import FlatScope.Json.Basic
import FlatScope.Json.Binary64
import FlatScope.Text.Numeral

/-!
# Number tokens

A number token is a sign, whole digits, fraction digits and an exponent.  Which number it stands for
is left to a `NumberReader`.  `Numeral.number?` is the reader that programs are read with: it collects
digits into a significand of 64 bits for as long as they fit.  Whole digits that do not fit are dropped
and counted into the exponent; fraction digits that do not fit are dropped.
-/

namespace FlatScope.Json

open FlatScope.Text

/-- The parts of a number token.  `fraction` is empty when the token has no point. -/
structure Numeral where
  negative : Bool
  whole : List Char
  fraction : List Char
  exponent : Option Int
deriving DecidableEq

/-- Gives the number that a token stands for, or nothing when it refuses the token. -/
abbrev NumberReader := Numeral → Option Number

def maxSignificand : Nat := 18446744073709551615

/-- Appends digits to a significand while they fit; the digits from the first that does not fit are
left over. -/
def absorb (significand : Nat) : List Char → Nat × List Char
  | [] => (significand, [])
  | c :: rest =>
    let next := 10 * significand + digitValue c
    if next ≤ maxSignificand then absorb next rest else (significand, c :: rest)

namespace Numeral

/-- Whether a token has neither a fraction nor an exponent. -/
def isPlain (numeral : Numeral) : Bool := numeral.fraction.isEmpty && numeral.exponent.isNone

/-- The number of a plain token whose digits all fit in the significand.  Minus zero and a negative
integer below `-2^63` are no exact numbers. -/
def plainNumber? (negative : Bool) (significand : Nat) : Option Number :=
  if negative then
    if significand = 0 ∨ 9223372036854775808 < significand then
      (Binary64.ofNat significand).map (Number.real true)
    else some (.exact (-(significand : Int)))
  else some (.exact significand)

/-- The number that a token stands for, or nothing when it is too large. -/
def number? (numeral : Numeral) : Option Number :=
  let (whole, dropped) := absorb 0 numeral.whole
  if numeral.isPlain && dropped.isEmpty then plainNumber? numeral.negative whole
  else
    let (significand, unused) := absorb whole numeral.fraction
    let shift : Int := dropped.length - (numeral.fraction.length - unused.length : Nat)
    (Binary64.ofDecimal significand (shift + numeral.exponent.getD 0)).map
      (Number.real numeral.negative)

end Numeral

end FlatScope.Json
