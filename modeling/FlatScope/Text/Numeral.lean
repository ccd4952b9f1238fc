/-!
# Decimal numerals

Reading numerals of ASCII digits.  Leading zeros are allowed; a sign is a single `+` or `-` in front
of at least one digit.
-/

namespace FlatScope.Text

def isDigit (c : Char) : Bool := '0' ≤ c && c ≤ '9'

def digitValue (c : Char) : Nat := c.toNat - 48

/-- The number that a list of digits stands for, most significant digit first. -/
def digitsValue (digits : List Char) : Nat :=
  digits.foldl (fun n c => 10 * n + digitValue c) 0

/-- Reads a numeral that is one digit or more and nothing else. -/
def natural? (cs : List Char) : Option Nat :=
  if cs ≠ [] ∧ cs.all isDigit then some (digitsValue cs) else none

/-- Reads a numeral with an optional plus sign. -/
def unsigned? (text : String) : Option Nat :=
  match text.toList with
  | '+' :: cs => natural? cs
  | cs => natural? cs

/-- Reads a numeral with an optional sign. -/
def signed? (text : String) : Option Int :=
  match text.toList with
  | '+' :: cs => (natural? cs).map Int.ofNat
  | '-' :: cs => (natural? cs).map fun n => -Int.ofNat n
  | cs => (natural? cs).map Int.ofNat

end FlatScope.Text
