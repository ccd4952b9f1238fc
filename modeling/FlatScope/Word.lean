/-!
# 64-bit signed integers

A word is an integer that fits in 64 bits with a sign.  Arithmetic on words is the arithmetic of
integers followed by `Word.ofInt?`, which refuses what does not fit: nothing wraps around.
-/

namespace FlatScope

/-- An integer from `-2^63` to `2^63 - 1`. -/
structure Word where
  val : Int
  fits : -9223372036854775808 ≤ val ∧ val ≤ 9223372036854775807
deriving DecidableEq

namespace Word

/-- The word with a given value, if the value fits. -/
def ofInt? (n : Int) : Option Word :=
  if h : -9223372036854775808 ≤ n ∧ n ≤ 9223372036854775807 then some ⟨n, h⟩ else none

def decimal (word : Word) : String := toString word.val

theorem ofInt?_eq_some_iff {n : Int} {word : Word} : ofInt? n = some word ↔ word.val = n := by
  obtain ⟨val, fits⟩ := word
  unfold ofInt?
  constructor
  · split
    · intro h
      cases h
      rfl
    · intro h
      cases h
  · rintro rfl
    simp [fits]

theorem ofInt?_eq_none_iff {n : Int} :
    ofInt? n = none ↔ n < -9223372036854775808 ∨ 9223372036854775807 < n := by
  unfold ofInt?
  split <;> simp <;> omega

end Word

end FlatScope
