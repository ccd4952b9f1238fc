import FlatScope.Json.Binary64
import Mathlib.Algebra.Order.Field.Basic
import Mathlib.Algebra.Order.Field.Rat
import Mathlib.Data.Nat.Cast.Order.Field
import Mathlib.Tactic.FieldSimp
import Mathlib.Tactic.GCongr
import Mathlib.Tactic.Linarith
import Mathlib.Tactic.NormNum
import Mathlib.Tactic.Positivity
import Mathlib.Tactic.Ring

/-!
# Rounding to binary64 magnitudes

`Binary64.value` is the number that a magnitude stands for.  Rounding changes a number by at most
`2^-53` of it, or by half of the smallest positive magnitude if that is more (`rounded_near`); it
never takes a number below a power of two that the number reaches (`two_pow_le_rounded`).  A whole
number is rounded to a number of the format next to it (`faithful_ofNat`).
-/

namespace FlatScope.Json.Binary64

/-- The number that a magnitude stands for. -/
def value (magnitude : Nat) : ℚ := magnitude / one

-- The exponent stays a variable: `2 ^ 1074` as it stands is too large to compute with.
theorem exists_places : ∃ places, places = 1074 ∧ one = 2 ^ places := by
  unfold one
  generalize 1074 = places
  exact ⟨places, rfl, rfl⟩

attribute [local irreducible] one

theorem one_pos : (0 : ℚ) < one := Nat.cast_pos.2 pos_one

/-- Half of the smallest positive magnitude. -/
def halfStep : ℚ := 1 / (2 * one)

theorem halfStep_pos : 0 < halfStep := by
  have h := one_pos
  unfold halfStep
  positivity

theorem value_nonneg (magnitude : Nat) : 0 ≤ value magnitude :=
  div_nonneg (Nat.cast_nonneg _) one_pos.le

theorem value_zero : value 0 = 0 := by
  simp [value]

theorem value_mul_one (n : Nat) : value (n * one) = n := by
  have h := one_pos.ne'
  rw [value, Nat.cast_mul]
  field_simp

theorem one_le_value_iff {magnitude : Nat} : 1 ≤ value magnitude ↔ one ≤ magnitude := by
  rw [value, le_div_iff₀ one_pos, one_mul, Nat.cast_le]

/-! ### Rounding a quotient -/

theorem roundDiv_near (num : Nat) {den : Nat} (hden : 0 < den) :
    |(roundDiv num den : ℚ) - num / den| ≤ 1 / 2 := by
  have hsplit := Nat.div_add_mod num den
  have hrest := Nat.mod_lt num hden
  -- Twice the distance from `num` to the rounded multiple of `den` is at most `den`.
  have hnat : 2 * num ≤ 2 * (den * roundDiv num den) + den ∧
      2 * (den * roundDiv num den) ≤ 2 * num + den := by
    simp only [roundDiv]
    split
    · omega
    · rw [Nat.mul_add]
      omega
  have hlower : (2 * num : ℚ) ≤ 2 * (den * roundDiv num den) + den := by exact_mod_cast hnat.1
  have hupper : (2 * (den * roundDiv num den) : ℚ) ≤ 2 * num + den := by exact_mod_cast hnat.2
  have hden' : (0 : ℚ) < den := by exact_mod_cast hden
  rw [abs_le]
  constructor
  · rw [neg_le_sub_iff_le_add, div_le_iff₀ hden']
    linarith
  · rw [sub_le_iff_le_add, ← sub_le_iff_le_add', le_div_iff₀ hden']
    linarith

theorem div_le_roundDiv (num den : Nat) : num / den ≤ roundDiv num den := by
  simp only [roundDiv]
  split <;> omega

theorem roundDiv_of_dvd {num den : Nat} (hden : 0 < den) (h : den ∣ num) :
    roundDiv num den = num / den := by
  have hrest : num % den = 0 := Nat.mod_eq_zero_of_dvd h
  simp only [roundDiv, hrest]
  rw [if_pos (Or.inl (by omega))]

/-! ### Rounding to a magnitude -/

/-- The step between neighbouring magnitudes at a quotient. -/
def stepAt (num den : Nat) : Nat := 2 ^ lostBits (num * one / den)

/-- The magnitude nearest to a quotient, whether or not it is too large. -/
def rounded (num den : Nat) : Nat :=
  roundDiv (num * one) (den * stepAt num den) * stepAt num den

theorem nearest_eq (num den : Nat) :
    nearest num den = if rounded num den < overflow then some (rounded num den) else none := rfl

theorem stepAt_pos (num den : Nat) : 0 < stepAt num den := Nat.two_pow_pos _

theorem stepAt_eq_one_or_le (num den : Nat) :
    stepAt num den = 1 ∨ 2 ^ 52 * stepAt num den ≤ num * one / den := by
  unfold stepAt lostBits
  by_cases hsmall : (num * one / den).log2 ≤ 52
  · left
    rw [Nat.sub_eq_zero_of_le hsmall, pow_zero]
  · right
    have hne : num * one / den ≠ 0 := by
      intro hzero
      rw [hzero] at hsmall
      simp at hsmall
    rw [← pow_add, Nat.add_sub_cancel' (by omega)]
    exact Nat.log2_self_le hne

/-- Rounding changes a number by at most a 53rd binary place of it, or by half of the smallest
positive magnitude. -/
theorem rounded_near (num : Nat) {den : Nat} (hden : 0 < den) :
    |value (rounded num den) - num / den| ≤
      max ((num : ℚ) / den / 2 ^ 53) halfStep := by
  have hone := one_pos
  have hden' : (0 : ℚ) < den := by exact_mod_cast hden
  have hstep : (0 : ℚ) < stepAt num den := by exact_mod_cast stepAt_pos num den
  have hround := roundDiv_near (num * one) (Nat.mul_pos hden (stepAt_pos num den))
  have hhalf : |value (rounded num den) - num / den| ≤ stepAt num den / (2 * one) := by
    have heq : value (rounded num den) - num / den =
        ((roundDiv (num * one) (den * stepAt num den) : ℚ) -
          (num * one : Nat) / (den * stepAt num den : Nat)) * (stepAt num den / one) := by
      rw [value, rounded]
      push_cast
      field_simp
    rw [heq, abs_mul, abs_of_pos (div_pos hstep hone)]
    calc _ ≤ 1 / 2 * ((stepAt num den : ℚ) / one) := by gcongr
      _ = stepAt num den / (2 * one) := by field_simp
  rcases stepAt_eq_one_or_le num den with hsmall | hlarge
  · refine hhalf.trans (le_max_of_le_right ?_)
    rw [hsmall, Nat.cast_one, halfStep]
  · refine hhalf.trans (le_max_of_le_left ?_)
    have hfloor : ((num * one / den : Nat) : ℚ) ≤ (num * one : Nat) / den := Nat.cast_div_le
    have hsteps : (2 ^ 52 * stepAt num den : ℚ) ≤ (num * one / den : Nat) := by
      exact_mod_cast hlarge
    have hbound : (2 ^ 52 * stepAt num den : ℚ) ≤ num * one / den := by
      have := hsteps.trans hfloor
      rwa [Nat.cast_mul] at this
    rw [div_le_iff₀ (by positivity)]
    have heq : (num : ℚ) / den / 2 ^ 53 * (2 * one) = num * one / den / 2 ^ 52 := by
      field_simp
    rw [heq, le_div_iff₀ (by positivity)]
    linarith

/-- A number that reaches a power of two still reaches it when it is rounded. -/
theorem two_pow_le_rounded {num den j : Nat} (h : 2 ^ j ≤ num * one / den) :
    2 ^ j ≤ rounded num den := by
  have hne : num * one / den ≠ 0 := by
    have := Nat.two_pow_pos j
    omega
  have hlog : j ≤ (num * one / den).log2 := (Nat.le_log2 hne).2 h
  have hdown : num * one / den / stepAt num den * stepAt num den ≤ rounded num den := by
    rw [Nat.div_div_eq_div_mul]
    exact Nat.mul_le_mul_right _ (div_le_roundDiv _ _)
  refine le_trans ?_ hdown
  unfold stepAt lostBits
  by_cases hsmall : (num * one / den).log2 ≤ 52
  · rw [Nat.sub_eq_zero_of_le hsmall, pow_zero, Nat.div_one, Nat.mul_one]
    exact h
  · -- At least 52 binary places remain, and the leading one stands for a power that is no smaller.
    have hsplit : 2 ^ 52 * 2 ^ ((num * one / den).log2 - 52) = 2 ^ (num * one / den).log2 := by
      rw [← pow_add, Nat.add_sub_cancel' (by omega)]
    have hself := Nat.log2_self_le hne
    have hquotient : 2 ^ 52 ≤ num * one / den / 2 ^ ((num * one / den).log2 - 52) := by
      rw [Nat.le_div_iff_mul_le (Nat.two_pow_pos _), hsplit]
      exact hself
    calc 2 ^ j ≤ 2 ^ (num * one / den).log2 := Nat.pow_le_pow_right (by decide) hlog
      _ = 2 ^ 52 * 2 ^ ((num * one / den).log2 - 52) := hsplit.symm
      _ ≤ _ := Nat.mul_le_mul_right _ hquotient

theorem rounded_mul {n : Nat} (hn : n < 2 ^ 53) {den : Nat} (hden : 0 < den) :
    rounded (n * den) den = n * one := by
  obtain ⟨places, -, hone⟩ := exists_places
  have hquotient : n * den * one / den = n * one := by
    rw [Nat.mul_right_comm]
    exact Nat.mul_div_cancel _ hden
  have hlog : (n * one).log2 - 52 ≤ places := by
    by_cases hzero : n * one = 0
    · simp [hzero]
    · have hlt : n * one < 2 ^ (53 + places) := by
        rw [hone, pow_add]
        exact Nat.mul_lt_mul_of_pos_right hn (Nat.two_pow_pos places)
      have := (Nat.log2_lt hzero).2 hlt
      omega
  have hstep : stepAt (n * den) den ∣ n * one := by
    rw [stepAt, lostBits, hquotient]
    refine Dvd.dvd.mul_left ?_ n
    rw [hone] at hlog ⊢
    exact pow_dvd_pow 2 hlog
  have hnum : n * den * one = den * (n * one) := by
    rw [Nat.mul_comm n den, Nat.mul_assoc]
  have hpos := Nat.mul_pos hden (stepAt_pos (n * den) den)
  rw [rounded, hnum, roundDiv_of_dvd hpos (Nat.mul_dvd_mul_left den hstep),
    Nat.mul_div_mul_left _ _ hden, Nat.div_mul_cancel hstep]

/-! ### Numbers of the format -/

/-- The finite numbers of the format: a significand of 53 binary places at a power of two. -/
def Representable (magnitude : Nat) : Prop :=
  magnitude < overflow ∧
    ∃ significand power, significand < 2 ^ 53 ∧ magnitude = significand * 2 ^ power

/-- A number of the format that a whole number may be rounded to, up or down: no other number of the
format lies between the two. -/
structure Faithful (magnitude n : Nat) : Prop where
  representable : Representable magnitude
  below : ∀ other, Representable other → other ≤ n * one → other ≤ magnitude
  above : ∀ other, Representable other → n * one ≤ other → magnitude ≤ other

/-- A whole number beyond the range of the format. -/
def Exceeds (n : Nat) : Prop := ∀ magnitude, Representable magnitude → magnitude < n * one

/-- A power of two that fits is a number of the format. -/
theorem representable_two_pow {places : Nat} (hfits : 2 ^ places * one < overflow) :
    Representable (2 ^ places * one) := by
  obtain ⟨onePlaces, -, hone⟩ := exists_places
  exact ⟨hfits, 1, places + onePlaces, by decide, by rw [Nat.one_mul, pow_add, hone]⟩

theorem Representable.dvd_or_lt {magnitude : Nat} (h : Representable magnitude) (places : Nat) :
    2 ^ places ∣ magnitude ∨ magnitude < 2 ^ 52 * 2 ^ places := by
  obtain ⟨-, significand, power, hsignificand, rfl⟩ := h
  by_cases hpower : places ≤ power
  · exact .inl (Dvd.dvd.mul_left (pow_dvd_pow 2 hpower) _)
  · right
    calc significand * 2 ^ power < 2 ^ 53 * 2 ^ power :=
          Nat.mul_lt_mul_of_pos_right hsignificand (Nat.two_pow_pos _)
      _ = 2 ^ 52 * 2 ^ (power + 1) := by ring
      _ ≤ 2 ^ 52 * 2 ^ places :=
          Nat.mul_le_mul_left _ (Nat.pow_le_pow_right (by decide) (by omega))

/-- A whole number that reaches a power of two still reaches it when it is rounded, and from `2^52` on
it stays whole. -/
theorem Faithful.exists_whole {magnitude n places : Nat} (h : Faithful magnitude n)
    (hplaces : 52 ≤ places) (hfits : 2 ^ places * one < overflow) (hn : 2 ^ places ≤ n) :
    ∃ whole, magnitude = whole * one ∧ 2 ^ places ≤ whole := by
  obtain ⟨onePlaces, -, hone⟩ := exists_places
  have hlarge : 2 ^ places * one ≤ magnitude :=
    h.below _ (representable_two_pow hfits) (Nat.mul_le_mul_right _ hn)
  have hdvd : one ∣ magnitude := by
    rcases h.representable.dvd_or_lt onePlaces with hdvd | hsmall
    · rwa [hone]
    · rw [← hone] at hsmall
      have hle : 2 ^ 52 * one ≤ 2 ^ places * one :=
        Nat.mul_le_mul_right _ (Nat.pow_le_pow_right (by decide) hplaces)
      omega
  obtain ⟨whole, rfl⟩ := hdvd
  rw [Nat.mul_comm one] at hlarge ⊢
  exact ⟨whole, rfl, Nat.le_of_mul_le_mul_right hlarge pos_one⟩

theorem roundDiv_le {num den bound : Nat} (hden : 0 < den) (h : num ≤ bound * den) :
    roundDiv num den ≤ bound := by
  have hsplit := Nat.div_add_mod num den
  have hquotient : num / den ≤ bound := Nat.div_le_of_le_mul (Nat.mul_comm bound den ▸ h)
  simp only [roundDiv]
  split
  case isTrue => exact hquotient
  case isFalse hup =>
    -- Something is left over, so the quotient is not the bound itself.
    refine Nat.lt_of_le_of_ne hquotient fun heq => ?_
    rw [heq, Nat.mul_comm] at hsplit
    omega

theorem rounded_one (n : Nat) :
    rounded n 1 = roundDiv (n * one) (stepAt n 1) * stepAt n 1 := by
  rw [rounded, Nat.one_mul]

theorem representable_rounded {n : Nat} (hfits : rounded n 1 < overflow) :
    Representable (rounded n 1) := by
  have hwidth : n * one ≤ 2 ^ 53 * stepAt n 1 := by
    have hlog : n * one < 2 ^ ((n * one).log2 + 1) := Nat.lt_log2_self
    have hpow : 2 ^ ((n * one).log2 + 1) ≤ 2 ^ 53 * stepAt n 1 := by
      rw [stepAt, Nat.div_one, lostBits, ← pow_add]
      exact Nat.pow_le_pow_right (by decide) (by omega)
    omega
  refine ⟨hfits, ?_⟩
  rcases Nat.lt_or_eq_of_le (roundDiv_le (stepAt_pos n 1) hwidth) with hlt | heq
  · exact ⟨_, _, hlt, rounded_one n⟩
  · refine ⟨1, 53 + lostBits (n * one / 1), by decide, ?_⟩
    rw [rounded_one, heq, Nat.one_mul, pow_add]
    rfl

/-- A number of the format is a multiple of the step at a number, or below all for which the step is
made. -/
theorem Representable.stepAt_dvd_or_lt {magnitude : Nat} (h : Representable magnitude) (n : Nat) :
    stepAt n 1 ∣ magnitude ∨
      (magnitude < 2 ^ 52 * stepAt n 1 ∧ 2 ^ 52 * stepAt n 1 ≤ n * one) := by
  rcases h.dvd_or_lt (lostBits (n * one / 1)) with hdvd | hsmall
  · exact .inl hdvd
  · rcases stepAt_eq_one_or_le n 1 with hone | hlarge
    · rw [hone]
      exact .inl (one_dvd magnitude)
    · rw [Nat.div_one] at hlarge
      exact .inr ⟨hsmall, hlarge⟩

/-- Rounding a whole number gives a number of the format next to it. -/
theorem faithful_ofNat {magnitude n : Nat} (h : ofNat n = some magnitude) : Faithful magnitude n := by
  have hstep : 0 < stepAt n 1 := stepAt_pos n 1
  rw [ofNat, nearest_eq] at h
  split at h
  case isFalse => cases h
  case isTrue hfits =>
    cases h
    refine ⟨representable_rounded hfits, fun other hother hle => ?_, fun other hother hle => ?_⟩
    · rcases hother.stepAt_dvd_or_lt n with ⟨factor, rfl⟩ | ⟨hsmall, hlarge⟩
      · rw [Nat.mul_comm (stepAt n 1)] at hle ⊢
        rw [rounded_one]
        refine Nat.mul_le_mul_right _ (le_trans ?_ (div_le_roundDiv _ _))
        exact (Nat.le_div_iff_mul_le hstep).2 hle
      · have hreach : 2 ^ (52 + lostBits (n * one / 1)) ≤ rounded n 1 := by
          refine two_pow_le_rounded ?_
          rw [pow_add]
          exact hlarge.trans_eq (Nat.div_one _).symm
        rw [pow_add] at hreach
        exact hsmall.le.trans hreach
    · rcases hother.stepAt_dvd_or_lt n with ⟨factor, rfl⟩ | ⟨hsmall, hlarge⟩
      · rw [Nat.mul_comm (stepAt n 1)] at hle ⊢
        rw [rounded_one]
        exact Nat.mul_le_mul_right _ (roundDiv_le hstep hle)
      · omega

end FlatScope.Json.Binary64
