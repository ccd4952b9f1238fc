/-!
# Binary64 magnitudes

The finite nonnegative numbers of the 64-bit binary floating-point format.  Every such number is a
whole multiple of `2^-1074`, so it is kept as that multiple: the magnitude `u` stands for the number
`u / 2^1074`.  All arithmetic is exact arithmetic of natural numbers followed by one rounding.
-/

namespace FlatScope.Json.Binary64

/-- One, as a multiple of the smallest positive number. -/
def one : Nat := Nat.pow 2 1074

-- The exponent becomes a variable, since the power itself is too large to compute with.
theorem pos_one : 0 < one := by
  unfold one
  generalize 1074 = places
  exact Nat.two_pow_pos places

/-- The least magnitude that is too large for the format. -/
def overflow : Nat := Nat.pow 2 2098

/-- The whole number nearest to `num / den`; of two that are equally near, the even one. -/
def roundDiv (num den : Nat) : Nat :=
  let quotient := num / den
  let rest := num % den
  if 2 * rest < den ∨ (2 * rest = den ∧ quotient % 2 = 0) then quotient else quotient + 1

/-- How many low bits a magnitude loses so that 53 bits remain. -/
def lostBits (magnitude : Nat) : Nat := magnitude.log2 - 52

/-- The magnitude nearest to `num / den`, with ties to the even one, or nothing when it is too
large. -/
def nearest (num den : Nat) : Option Nat :=
  let step := Nat.pow 2 (lostBits (num * one / den))
  let magnitude := roundDiv (num * one) (den * step) * step
  if magnitude < overflow then some magnitude else none

def ofNat (n : Nat) : Option Nat := nearest n 1

def mul (a b : Nat) : Option Nat := nearest (a * b) (one * one)

def div (a b : Nat) : Option Nat := nearest a b

/-- The whole number that a magnitude stands for, if it stands for one. -/
def whole? (magnitude : Nat) : Option Nat :=
  if magnitude % one = 0 then some (magnitude / one) else none

/-! ### Decimal scaling -/

/-- The largest power of ten that the format can hold. -/
def maxPower : Nat := 308

/-- Divides by `10^power` in steps of at most `10^308`; `steps` bounds their number. -/
def scaleDown : (steps : Nat) → (magnitude power : Nat) → Option Nat
  | 0, magnitude, _ => some magnitude
  | steps + 1, magnitude, power =>
    if power ≤ maxPower then (ofNat (Nat.pow 10 power)).bind (div magnitude)
    else if magnitude = 0 then some 0
    else do scaleDown steps (← div magnitude (← ofNat (Nat.pow 10 maxPower))) (power - maxPower)

/-- The magnitude for `significand * 10^exponent`: the significand is rounded first, then multiplied
or divided by a rounded power of ten.  The result is nothing when it is too large. -/
def ofDecimal (significand : Nat) (exponent : Int) : Option Nat := do
  let magnitude ← ofNat significand
  match exponent with
  | .ofNat power =>
    if power ≤ maxPower then mul magnitude (← ofNat (Nat.pow 10 power))
    else if magnitude = 0 then some 0 else none
  | .negSucc less => scaleDown (less / maxPower + 1) magnitude (less + 1)

end FlatScope.Json.Binary64
