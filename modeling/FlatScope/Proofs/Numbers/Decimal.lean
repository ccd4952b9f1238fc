import FlatScope.Json.Numeral
import FlatScope.Proofs.Numbers.Rounding
import Mathlib.Algebra.Order.Field.Power

/-!
# Magnitudes of decimals

`Binary64.ofDecimal` rounds three times: the significand, the power of ten, and their product or
quotient.  A result of at least one is off by less than `2^-51` of the decimal, and a result of zero
comes from a decimal below the smallest magnitude (`ofDecimal_rounds`).
-/

namespace FlatScope.Json.Binary64

attribute [local irreducible] one overflow maxPower

/-! ### Relative errors -/

/-- `y` is `x` up to a share of `x`. -/
def Within (share x y : ℚ) : Prop := (1 - share) * x ≤ y ∧ y ≤ (1 + share) * x

namespace Within

variable {s t x y z w : ℚ}

theorem mono (h : Within s x y) (hx : 0 ≤ x) (hst : s ≤ t) : Within t x y := by
  have hshare := mul_le_mul_of_nonneg_right hst hx
  obtain ⟨hlow, hhigh⟩ := h
  constructor <;> linarith

theorem iff_abs : Within s x y ↔ |y - x| ≤ s * x := by
  rw [Within, abs_le]
  constructor <;> rintro ⟨hlow, hhigh⟩ <;> constructor <;> linarith

theorem nonneg (h : Within s x y) (hs : s ≤ 1) (hx : 0 ≤ x) : 0 ≤ y :=
  (mul_nonneg (by linarith) hx).trans h.1

theorem pos (h : Within s x y) (hs : s < 1) (hx : 0 < x) : 0 < y :=
  lt_of_lt_of_le (mul_pos (by linarith) hx) h.1

theorem trans (hxy : Within s x y) (hyz : Within t y z) (hs : 0 ≤ s) (ht : 0 ≤ t) (ht' : t ≤ 1)
    (hx : 0 ≤ x) : Within (s + t + s * t) x z := by
  obtain ⟨hxlow, hxhigh⟩ := hxy
  obtain ⟨hylow, hyhigh⟩ := hyz
  have hlow := mul_le_mul_of_nonneg_left hxlow (by linarith : 0 ≤ 1 - t)
  have hhigh := mul_le_mul_of_nonneg_left hxhigh (by linarith : 0 ≤ 1 + t)
  have hcross := mul_nonneg (mul_nonneg hs ht) hx
  constructor <;> linarith

theorem mul_right (h : Within s x y) (hz : 0 ≤ z) : Within s (x * z) (y * z) := by
  constructor
  · rw [← mul_assoc]
    exact mul_le_mul_of_nonneg_right h.1 hz
  · rw [← mul_assoc]
    exact mul_le_mul_of_nonneg_right h.2 hz

theorem mul (hxy : Within s x y) (hzw : Within t z w) (hs : 0 ≤ s) (hs' : s ≤ 1) (ht : 0 ≤ t)
    (ht' : t ≤ 1) (hx : 0 ≤ x) (hz : 0 ≤ z) : Within (s + t + s * t) (x * z) (y * w) := by
  have hfirst : Within s (x * z) (y * z) := hxy.mul_right hz
  have hsecond : Within t (y * z) (y * w) := by
    rw [mul_comm y z, mul_comm y w]
    exact hzw.mul_right (hxy.nonneg hs' hx)
  exact hfirst.trans hsecond hs ht ht' (mul_nonneg hx hz)

theorem inv (h : Within t x y) (hx : 0 < x) (ht : 0 ≤ t) (ht' : t < 1) :
    Within (t / (1 - t)) x⁻¹ y⁻¹ := by
  have hless : 0 < 1 - t := by linarith
  have hmore : 0 < 1 + t := by linarith
  have hy : 0 < y := h.pos ht' hx
  constructor
  · calc (1 - t / (1 - t)) * x⁻¹ ≤ (1 - t / (1 + t)) * x⁻¹ := by
          gcongr
          linarith
      _ = ((1 + t) * x)⁻¹ := by
          field_simp
          ring
      _ ≤ y⁻¹ := inv_anti₀ hy h.2
  · calc y⁻¹ ≤ ((1 - t) * x)⁻¹ := inv_anti₀ (mul_pos hless hx) h.1
      _ = (1 + t / (1 - t)) * x⁻¹ := by
          field_simp
          ring

end Within

/-! ### The constants of the format -/

/-- How the constants of the format compare. -/
structure Sizes : Prop where
  maxPower_eq : maxPower = 308
  overflow_eq : overflow = 2 ^ 1024 * one
  one_large : 2 ^ 99 ≤ one
  ten_pow_small : (2 ^ 53 + 1) * Nat.pow 10 maxPower < 2 ^ 53 * 2 ^ 1024
  ten_pow_large : 2 ^ 1024 ≤ Nat.pow 10 (maxPower + 1)
  ten_pow_le_one : 40 * Nat.pow 10 maxPower ≤ 2 * one
  significand_le : 2 * maxSignificand ≤ Nat.pow 10 maxPower
  significand_le_one : maxSignificand * (2 * one) ≤ Nat.pow 10 (2 * maxPower + 1)
  ten_pow_exact : ∀ power < 23, ofNat (Nat.pow 10 power) = some (Nat.pow 10 power * one)

theorem sizes : Sizes := by
  constructor <;> decide +kernel

/-! ### One rounding -/

/-- The share of a number by which it may be off when it is rounded to 53 binary places. -/
def unit : ℚ := 1 / 2 ^ 53

theorem unit_nonneg : 0 ≤ unit := by
  norm_num [unit]

theorem unit_lt_one : unit < 1 := by
  norm_num [unit]

theorem value_pos_iff {magnitude : Nat} : 0 < value magnitude ↔ 0 < magnitude := by
  rw [value, div_pos_iff_of_pos_right one_pos, Nat.cast_pos]

theorem halfStep_le : halfStep ≤ 1 / 2 ^ 100 := by
  have hone : (2 ^ 99 : ℚ) ≤ one := by exact_mod_cast sizes.one_large
  unfold halfStep
  gcongr
  linarith

theorem value_lt_iff {magnitude : Nat} : value magnitude < 2 ^ 1024 ↔ magnitude < overflow := by
  rw [value, div_lt_iff₀ one_pos, sizes.overflow_eq]
  exact_mod_cast Iff.rfl

theorem nearest_eq_some_iff {num den magnitude : Nat} :
    nearest num den = some magnitude ↔
      rounded num den = magnitude ∧ value magnitude < 2 ^ 1024 := by
  rw [nearest_eq, value_lt_iff]
  split
  case isTrue hfits =>
    rw [Option.some_inj]
    constructor
    · rintro rfl
      exact ⟨rfl, hfits⟩
    · exact fun h => h.1
  case isFalse hlarge =>
    constructor
    · intro h
      cases h
    · rintro ⟨rfl, hfits⟩
      exact absurd hfits hlarge

theorem nearest_eq_none_iff {num den : Nat} :
    nearest num den = none ↔ 2 ^ 1024 ≤ value (rounded num den) := by
  rw [nearest_eq, ← not_lt, value_lt_iff]
  split <;> simp_all

theorem within_rounded {num den : Nat} (hden : 0 < den) {share : ℚ} (hshare : unit ≤ share)
    (hsmall : halfStep ≤ share * (num / den)) :
    Within share (num / den) (value (rounded num den)) := by
  refine Within.iff_abs.2 ((rounded_near num hden).trans (max_le ?_ hsmall))
  have hx : (0 : ℚ) ≤ num / den := by positivity
  calc (num : ℚ) / den / 2 ^ 53 = unit * (num / den) := by unfold unit; ring
    _ ≤ share * (num / den) := mul_le_mul_of_nonneg_right hshare hx

theorem within_rounded_unit {num den : Nat} (hden : 0 < den) (hx : (1 / 2 : ℚ) ≤ num / den) :
    Within unit (num / den) (value (rounded num den)) := by
  refine within_rounded hden le_rfl (halfStep_le.trans ?_)
  have : (1 : ℚ) / 2 ^ 100 ≤ unit * (1 / 2) := by norm_num [unit]
  exact this.trans (mul_le_mul_of_nonneg_left hx (by norm_num [unit]))

theorem rounded_zero {den : Nat} (hden : 0 < den) : rounded 0 den = 0 := by
  have h := rounded_mul (n := 0) (by decide) hden
  rwa [Nat.zero_mul, Nat.zero_mul] at h

theorem nearest_zero {den : Nat} (hden : 0 < den) : nearest 0 den = some 0 := by
  refine nearest_eq_some_iff.2 ⟨rounded_zero hden, ?_⟩
  rw [value_zero]
  positivity

theorem exists_ofNat {n : Nat} (hn : n ≤ Nat.pow 10 maxPower) :
    ∃ magnitude, ofNat n = some magnitude ∧ Within unit n (value magnitude) := by
  have hwithin : Within unit n (value (rounded n 1)) := by
    rcases Nat.eq_zero_or_pos n with rfl | hpos
    · rw [rounded_zero Nat.one_pos, value_zero]
      constructor <;> simp
    · have hx : (1 / 2 : ℚ) ≤ (n : ℚ) / (1 : Nat) := by
        have : (1 : ℚ) ≤ n := by exact_mod_cast hpos
        rw [Nat.cast_one, div_one]
        linarith
      simpa using within_rounded_unit Nat.one_pos hx
  refine ⟨rounded n 1, nearest_eq_some_iff.2 ⟨rfl, lt_of_le_of_lt hwithin.2 ?_⟩, hwithin⟩
  have hnat : (2 ^ 53 + 1) * n < 2 ^ 53 * 2 ^ 1024 :=
    lt_of_le_of_lt (Nat.mul_le_mul_left _ hn) sizes.ten_pow_small
  have hrat : ((2 ^ 53 + 1) * n : ℚ) < 2 ^ 53 * 2 ^ 1024 := by exact_mod_cast hnat
  calc (1 + unit) * (n : ℚ) = (2 ^ 53 + 1) * n / 2 ^ 53 := by
        unfold unit
        field_simp
    _ < 2 ^ 1024 := by
        rw [div_lt_iff₀ (by positivity), mul_comm (2 ^ 1024)]
        exact hrat

/-! ### The last rounding -/

/-- A result that is rounded from a quotient close to a given number. -/
def RoundsFrom (share x : ℚ) (result : Option Nat) : Prop :=
  ∃ num den, 0 < den ∧ result = nearest num den ∧ Within share x (num / den)

theorem le_halfStep_of_rounded_eq_zero {num den : Nat} (hden : 0 < den)
    (h : rounded num den = 0) : (num : ℚ) / den ≤ halfStep := by
  have hx : (0 : ℚ) ≤ num / den := by positivity
  have hnear := rounded_near num hden
  rw [h, value_zero, zero_sub, abs_neg, abs_of_nonneg hx] at hnear
  rcases le_max_iff.1 hnear with hrelative | hsmall
  · have hhalf := halfStep_pos
    linarith
  · exact hsmall

theorem half_le_of_one_le_rounded {num den : Nat} (hden : 0 < den)
    (h : 1 ≤ value (rounded num den)) : (1 / 2 : ℚ) ≤ num / den := by
  have hx : (0 : ℚ) ≤ num / den := by positivity
  have hnear := (abs_le.1 (rounded_near num hden)).2
  rcases le_total halfStep ((num : ℚ) / den / 2 ^ 53) with hle | hle
  · rw [max_eq_left hle] at hnear
    linarith
  · rw [max_eq_right hle] at hnear
    have hhalf := halfStep_le
    linarith

theorem half_le_of_within {x y : ℚ} (h : Within (9 / 4 * unit) x y) (hx : 0 ≤ x) :
    1 / 2 * x ≤ y := by
  refine le_trans ?_ h.1
  gcongr
  norm_num [unit]

theorem within_rounded_of_within {num den : Nat} (hden : 0 < den) {x : ℚ} (hx : 0 ≤ x)
    (h : Within (9 / 4 * unit) x (num / den)) (hone : 1 ≤ value (rounded num den)) :
    Within (7 / 2 * unit) x (value (rounded num den)) := by
  have hhalf := half_le_of_one_le_rounded hden hone
  refine (h.trans (within_rounded_unit hden hhalf) ?_ ?_ ?_ hx).mono hx ?_ <;> norm_num [unit]

namespace RoundsFrom

variable {share x : ℚ} {result : Option Nat} {magnitude : Nat}

theorem mono (h : RoundsFrom share x result) (hx : 0 ≤ x) {more : ℚ} (hmore : share ≤ more) :
    RoundsFrom more x result := by
  obtain ⟨num, den, hden, hnearest, hwithin⟩ := h
  exact ⟨num, den, hden, hnearest, hwithin.mono hx hmore⟩

theorem zero (h : RoundsFrom (1 / 8) x (some 0)) : x ≤ 5 / 4 * halfStep := by
  obtain ⟨num, den, hden, hnearest, hlow, -⟩ := h
  have hrounded := (nearest_eq_some_iff.1 hnearest.symm).1
  have hsmall := le_halfStep_of_rounded_eq_zero hden hrounded
  have hhalf := halfStep_pos
  linarith

theorem above (h : RoundsFrom (9 / 4 * unit) x (some magnitude)) (hx : 0 ≤ x)
    (hone : 1 ≤ value magnitude) : Within (7 / 2 * unit) x (value magnitude) := by
  obtain ⟨num, den, hden, hnearest, hwithin⟩ := h
  obtain ⟨rfl, -⟩ := nearest_eq_some_iff.1 hnearest.symm
  exact within_rounded_of_within hden hx hwithin hone

theorem none (h : RoundsFrom (9 / 4 * unit) x Option.none) (hx : 0 ≤ x) :
    2 ^ 1024 ≤ (1 + 7 / 2 * unit) * x := by
  obtain ⟨num, den, hden, hnearest, hwithin⟩ := h
  have hlarge := nearest_eq_none_iff.1 hnearest.symm
  have hone : 1 ≤ value (rounded num den) := (one_le_pow₀ one_le_two).trans hlarge
  exact hlarge.trans (within_rounded_of_within hden hx hwithin hone).2

end RoundsFrom

/-! ### Products and quotients -/

theorem cast_mul_div (a b : Nat) : ((a * b : Nat) : ℚ) / (one * one : Nat) = value a * value b := by
  have hone := one_pos.ne'
  unfold value
  push_cast
  field_simp

theorem cast_div (a b : Nat) : (a : ℚ) / b = value a / value b := by
  have hone := one_pos.ne'
  unfold value
  field_simp

theorem exists_ofNat_ten_pow {power : Nat} (hpower : power ≤ maxPower) :
    ∃ magnitude, ofNat (Nat.pow 10 power) = some magnitude ∧ 0 < magnitude ∧
      Within unit (10 ^ power) (value magnitude) := by
  have hle : Nat.pow 10 power ≤ Nat.pow 10 maxPower := Nat.pow_le_pow_right (by decide) hpower
  obtain ⟨magnitude, hmagnitude, hwithin⟩ := exists_ofNat hle
  have hcast : ((Nat.pow 10 power : Nat) : ℚ) = 10 ^ power := Nat.cast_pow 10 power
  rw [hcast] at hwithin
  exact ⟨magnitude, hmagnitude, value_pos_iff.1 (hwithin.pos unit_lt_one (by positivity)), hwithin⟩

variable {magnitude power : Nat} {share x : ℚ}

theorem roundsFrom_mul (hshare : 0 ≤ share) (hshare' : share ≤ 1) (hx : 0 ≤ x)
    (h : Within share x (value magnitude)) (hpower : power ≤ maxPower) :
    RoundsFrom (share + unit + share * unit) (x * 10 ^ power)
      ((ofNat (Nat.pow 10 power)).bind (mul magnitude)) := by
  obtain ⟨factor, hfactor, -, hwithin⟩ := exists_ofNat_ten_pow hpower
  have hone : 0 < one := pos_one
  refine ⟨magnitude * factor, one * one, Nat.mul_pos hone hone, ?_, ?_⟩
  · rw [hfactor, Option.bind_some, mul]
  · rw [cast_mul_div]
    exact h.mul hwithin hshare hshare' unit_nonneg unit_lt_one.le hx (by positivity)

theorem roundsFrom_div (hshare : 0 ≤ share) (hshare' : share ≤ 1) (hx : 0 ≤ x)
    (h : Within share x (value magnitude)) (hpower : power ≤ maxPower) :
    RoundsFrom (share + 9 / 8 * unit + share * (9 / 8 * unit)) (x / 10 ^ power)
      ((ofNat (Nat.pow 10 power)).bind (div magnitude)) := by
  obtain ⟨divisor, hdivisor, hpos, hwithin⟩ := exists_ofNat_ten_pow hpower
  refine ⟨magnitude, divisor, hpos, ?_, ?_⟩
  · rw [hdivisor, Option.bind_some, div]
  · have hinv : Within (9 / 8 * unit) (10 ^ power : ℚ)⁻¹ (value divisor)⁻¹ := by
      refine (hwithin.inv ?_ unit_nonneg unit_lt_one).mono ?_ ?_
      · positivity
      · positivity
      · norm_num [unit]
    rw [cast_div, div_eq_mul_inv, div_eq_mul_inv]
    refine h.mul hinv hshare hshare' ?_ ?_ hx ?_
    · norm_num [unit]
    · norm_num [unit]
    · positivity

/-! ### Decimals within the powers of ten of the format -/

theorem exists_significand {significand : Nat} (h : significand ≤ maxSignificand) :
    ∃ magnitude, ofNat significand = some magnitude ∧
      Within unit significand (value magnitude) := by
  have hle := sizes.significand_le
  exact exists_ofNat (by omega)

theorem ofDecimal_natCast {significand magnitude : Nat} (h : ofNat significand = some magnitude)
    (power : Nat) :
    ofDecimal significand power =
      if power ≤ maxPower then (ofNat (Nat.pow 10 power)).bind (mul magnitude)
      else if magnitude = 0 then some 0 else none := by
  simp only [ofDecimal, h]
  rfl

theorem ofDecimal_negSucc {significand magnitude : Nat} (h : ofNat significand = some magnitude)
    (less : Nat) :
    ofDecimal significand (.negSucc less) =
      scaleDown (less / maxPower + 1) magnitude (less + 1) := by
  simp only [ofDecimal, h]
  rfl

theorem roundsFrom_ofDecimal {significand : Nat} (h : significand ≤ maxSignificand) {exponent : Int}
    (hlow : -maxPower ≤ exponent) (hhigh : exponent ≤ maxPower) :
    RoundsFrom (9 / 4 * unit) (significand * 10 ^ exponent) (ofDecimal significand exponent) := by
  obtain ⟨magnitude, hmagnitude, hwithin⟩ := exists_significand h
  have hx : (0 : ℚ) ≤ significand := Nat.cast_nonneg _
  cases exponent with
  | ofNat power =>
    have hpower : power ≤ maxPower := by simpa using hhigh
    have hresult := roundsFrom_mul unit_nonneg unit_lt_one.le hx hwithin hpower
    rw [Int.ofNat_eq_natCast, ofDecimal_natCast hmagnitude, if_pos hpower, zpow_natCast]
    exact hresult.mono (by positivity) (by norm_num [unit])
  | negSucc less =>
    have hpower : less + 1 ≤ maxPower := by omega
    have hresult := roundsFrom_div unit_nonneg unit_lt_one.le hx hwithin hpower
    rw [ofDecimal_negSucc hmagnitude, scaleDown, if_pos hpower, zpow_negSucc, ← div_eq_mul_inv]
    exact hresult.mono (by positivity) (by norm_num [unit])

/-! ### Decimals below the powers of ten of the format -/

theorem div_le_of_two_le {magnitude divisor : Nat} (hfits : value magnitude < 2 ^ 1024)
    (hdivisor : 2 ≤ value divisor) :
    ∃ quotient, div magnitude divisor = some quotient ∧ quotient ≤ magnitude ∧
      value quotient < 2 ^ 1024 := by
  have hpos : 0 < divisor := value_pos_iff.1 (by linarith)
  have hle : rounded magnitude divisor ≤ magnitude := by
    rcases Nat.eq_zero_or_pos magnitude with rfl | hmagnitude
    · exact (rounded_zero hpos).le
    · have hone := one_pos
      have hstep : 2 * halfStep ≤ value magnitude := by
        have : (1 : ℚ) ≤ magnitude := by exact_mod_cast hmagnitude
        unfold halfStep value
        rw [le_div_iff₀ hone]
        calc 2 * (1 / (2 * one)) * (one : ℚ) = 1 := by field_simp
          _ ≤ magnitude := this
      have hquotient : (magnitude : ℚ) / divisor ≤ value magnitude / 2 := by
        rw [cast_div]
        exact div_le_div_of_nonneg_left (value_nonneg _) two_pos hdivisor
      have hnear := (abs_le.1 (rounded_near magnitude hpos)).2
      have hmax : max ((magnitude : ℚ) / divisor / 2 ^ 53) halfStep ≤ value magnitude / 2 :=
        max_le (by linarith [value_nonneg magnitude]) (by linarith)
      have hvalue : value (rounded magnitude divisor) ≤ value magnitude := by linarith
      exact_mod_cast (div_le_div_iff_of_pos_right hone).1 hvalue
  have hfits' : value (rounded magnitude divisor) < 2 ^ 1024 := by
    refine lt_of_le_of_lt ?_ hfits
    exact div_le_div_of_nonneg_right (by exact_mod_cast hle) one_pos.le
  exact ⟨rounded magnitude divisor, nearest_eq_some_iff.2 ⟨rfl, hfits'⟩, hle, hfits'⟩

theorem two_le_value_ten_pow {power divisor : Nat} (hpower : 0 < power)
    (h : Within unit (10 ^ power) (value divisor)) : 2 ≤ value divisor := by
  have hten : (10 : ℚ) ≤ 10 ^ power := le_self_pow₀ (by norm_num) hpower.ne'
  have hshare : (1 / 2 : ℚ) * 10 ^ power ≤ (1 - unit) * 10 ^ power := by
    gcongr
    norm_num [unit]
  linarith [h.1]

theorem scaleDown_succ {steps magnitude power divisor quotient : Nat} (hpower : maxPower < power)
    (hzero : magnitude ≠ 0) (hdivisor : ofNat (Nat.pow 10 maxPower) = some divisor)
    (hquotient : div magnitude divisor = some quotient) :
    scaleDown (steps + 1) magnitude power = scaleDown steps quotient (power - maxPower) := by
  rw [scaleDown, if_neg (Nat.not_le.2 hpower), if_neg hzero, hdivisor, Option.bind_eq_bind,
    Option.bind_some, hquotient, Option.bind_some]

theorem scaleDown_zero (steps : Nat) {power : Nat} (hpower : maxPower < power) :
    scaleDown (steps + 1) 0 power = some 0 := by
  rw [scaleDown, if_neg (Nat.not_le.2 hpower), if_pos rfl]

/-- Scaling down never fails and never enlarges. -/
theorem scaleDown_le (steps : Nat) {magnitude power : Nat} (hfits : value magnitude < 2 ^ 1024)
    (hpower : 0 < power) :
    ∃ result, scaleDown steps magnitude power = some result ∧ result ≤ magnitude := by
  induction steps generalizing magnitude power with
  | zero => exact ⟨magnitude, rfl, le_rfl⟩
  | succ steps ih =>
    rcases Nat.lt_or_ge maxPower power with hmore | hlast
    · by_cases hzero : magnitude = 0
      · subst hzero
        exact ⟨0, scaleDown_zero steps hmore, le_rfl⟩
      · have hmax : 0 < maxPower := by
          have := sizes.maxPower_eq
          omega
        obtain ⟨divisor, hdivisor, -, hwithin⟩ := exists_ofNat_ten_pow (le_refl maxPower)
        obtain ⟨quotient, hquotient, hle, hfits'⟩ :=
          div_le_of_two_le hfits (two_le_value_ten_pow hmax hwithin)
        obtain ⟨result, hresult, hle'⟩ := ih hfits' (Nat.sub_pos_of_lt hmore)
        exact ⟨result, (scaleDown_succ hmore hzero hdivisor hquotient).trans hresult,
          hle'.trans hle⟩
    · obtain ⟨divisor, hdivisor, -, hwithin⟩ := exists_ofNat_ten_pow hlast
      obtain ⟨quotient, hquotient, hle, -⟩ :=
        div_le_of_two_le hfits (two_le_value_ten_pow hpower hwithin)
      refine ⟨quotient, ?_, hle⟩
      rw [scaleDown, if_pos hlast, hdivisor, Option.bind_some, hquotient]

theorem RoundsFrom.next {x : ℚ} {result : Option Nat} (h : RoundsFrom (9 / 4 * unit) x result)
    (hlow : 40 * halfStep ≤ x) (hhigh : x ≤ 1 / 2) :
    ∃ magnitude, result = some magnitude ∧ Within (1 / 10) x (value magnitude) := by
  obtain ⟨num, den, hden, hnearest, hwithin⟩ := h
  have hx : 0 ≤ x := by linarith [halfStep_pos]
  have hquotient : halfStep ≤ 1 / 16 * (num / den : ℚ) := by linarith [half_le_of_within hwithin hx]
  have hrounded := within_rounded hden (by norm_num [unit] : unit ≤ 1 / 16) hquotient
  have hresult : Within (1 / 10) x (value (rounded num den)) := by
    refine (hwithin.trans hrounded ?_ ?_ ?_ hx).mono hx ?_ <;> norm_num [unit]
  have hfits : value (rounded num den) < 2 ^ 1024 := by
    refine lt_of_lt_of_le ?_ (one_le_pow₀ one_le_two)
    linarith [hresult.2]
  exact ⟨rounded num den, hnearest.trans (nearest_eq_some_iff.2 ⟨rfl, hfits⟩), hresult⟩

theorem halfStep_le_ten_pow : 40 * halfStep ≤ 1 / 10 ^ maxPower := by
  have hrat : (40 * 10 ^ maxPower : ℚ) ≤ 2 * one := by exact_mod_cast sizes.ten_pow_le_one
  have hone := one_pos
  rw [halfStep, mul_one_div, div_le_div_iff₀ (by positivity) (by positivity)]
  linarith

theorem significand_div_le {significand power : Nat} (h : significand ≤ maxSignificand)
    (hpower : maxPower ≤ power) : (significand : ℚ) / 10 ^ power ≤ 1 / 2 := by
  have hle : 2 * significand ≤ Nat.pow 10 power :=
    ((Nat.mul_le_mul_left 2 h).trans sizes.significand_le).trans
      (Nat.pow_le_pow_right (by decide) hpower)
  have hrat : (2 * significand : ℚ) ≤ 10 ^ power := by exact_mod_cast hle
  rw [div_le_iff₀ (by positivity)]
  linarith

theorem significand_div_le_halfStep {significand power : Nat} (h : significand ≤ maxSignificand)
    (hpower : 2 * maxPower < power) : (significand : ℚ) / 10 ^ power ≤ halfStep := by
  have hle : significand * (2 * one) ≤ Nat.pow 10 power :=
    ((Nat.mul_le_mul_right _ h).trans sizes.significand_le_one).trans
      (Nat.pow_le_pow_right (by decide) hpower)
  have hrat : (significand * (2 * one) : ℚ) ≤ 10 ^ power := by exact_mod_cast hle
  have hone := one_pos
  rw [halfStep, div_le_div_iff₀ (by positivity) (by positivity)]
  linarith

theorem exists_scaleDown {significand start : Nat} (h : significand ≤ maxSignificand)
    (hpos : 0 < significand) (hstart : Within unit significand (value start)) {less : Nat}
    (hmore : maxPower < less + 1) :
    ∃ magnitude, scaleDown (less / maxPower + 1) start (less + 1) = some magnitude ∧
      value magnitude < 1 ∧ (magnitude = 0 → significand / 10 ^ (less + 1) ≤ 5 / 4 * halfStep) := by
  have hsignificand : (1 : ℚ) ≤ significand := by exact_mod_cast hpos
  have hsignificand' : (0 : ℚ) < significand := by linarith
  have hzero : start ≠ 0 := (value_pos_iff.1 (hstart.pos unit_lt_one hsignificand')).ne'
  -- The first quotient keeps most of its places.
  obtain ⟨divisor, hdivisor, -, -⟩ := exists_ofNat_ten_pow (le_refl maxPower)
  have hx : 40 * halfStep ≤ significand / 10 ^ maxPower :=
    halfStep_le_ten_pow.trans (div_le_div_of_nonneg_right hsignificand (by positivity))
  obtain ⟨first, hfirst, hwithin⟩ :=
    ((roundsFrom_div unit_nonneg unit_lt_one.le hsignificand'.le hstart le_rfl).mono
      (by positivity) (by norm_num [unit])).next hx (significand_div_le h le_rfl)
  rw [hdivisor, Option.bind_some] at hfirst
  have hsmall : value first < 1 := by linarith [hwithin.2, significand_div_le h le_rfl]
  -- The steps after it only make it smaller.
  obtain ⟨magnitude, hmagnitude, hle⟩ :=
    scaleDown_le (less / maxPower) (nearest_eq_some_iff.1 hfirst).2 (Nat.sub_pos_of_lt hmore)
  refine ⟨magnitude, (scaleDown_succ hmore hzero hdivisor hfirst).trans hmagnitude, ?_, ?_⟩
  · refine lt_of_le_of_lt ?_ hsmall
    exact div_le_div_of_nonneg_right (by exact_mod_cast hle) one_pos.le
  · rintro rfl
    rcases Nat.lt_or_ge (2 * maxPower) (less + 1) with htiny | hlast
    · have := significand_div_le_halfStep h htiny
      linarith [halfStep_pos]
    · have hsteps : less / maxPower = 0 + 1 := by
        rw [sizes.maxPower_eq] at hmore hlast ⊢
        omega
      have hpower : less + 1 - maxPower ≤ maxPower := by omega
      rw [hsteps, scaleDown, if_pos hpower] at hmagnitude
      have hlast := (roundsFrom_div (by norm_num) (by norm_num) (by positivity) hwithin hpower).mono
        (by positivity) (by norm_num [unit] : _ ≤ (1 / 8 : ℚ))
      rw [hmagnitude, div_div, ← pow_add, Nat.add_sub_cancel' hmore.le] at hlast
      exact hlast.zero

/-! ### All decimals -/

theorem ofDecimal_zero (exponent : Int) : ofDecimal 0 exponent = some 0 := by
  have hstart : ofNat 0 = some 0 := nearest_zero Nat.one_pos
  cases exponent with
  | ofNat power =>
    rw [Int.ofNat_eq_natCast, ofDecimal_natCast hstart]
    split
    case isTrue hpower =>
      obtain ⟨factor, hfactor, -, -⟩ := exists_ofNat_ten_pow hpower
      have hone : 0 < one := pos_one
      rw [hfactor, Option.bind_some, mul, Nat.zero_mul, nearest_zero (Nat.mul_pos hone hone)]
    case isFalse => rw [if_pos rfl]
  | negSucc less =>
    rw [ofDecimal_negSucc hstart]
    rcases Nat.lt_or_ge maxPower (less + 1) with hmore | hlast
    · exact scaleDown_zero _ hmore
    · obtain ⟨divisor, hdivisor, hpos, -⟩ := exists_ofNat_ten_pow hlast
      rw [scaleDown, if_pos hlast, hdivisor, Option.bind_some, div, nearest_zero hpos]

theorem two_pow_le_of_maxPower_lt {significand power : Nat} (hpos : 0 < significand)
    (hpower : maxPower < power) : (2 ^ 1024 : ℚ) ≤ significand * 10 ^ power := by
  have hle : 2 ^ 1024 ≤ significand * 10 ^ power :=
    (sizes.ten_pow_large.trans (Nat.pow_le_pow_right (by decide) hpower)).trans
      (Nat.le_mul_of_pos_left _ hpos)
  exact_mod_cast hle

/-- The result for a decimal is one rounding away from it, or below one, or too large like the
decimal itself. -/
theorem ofDecimal_cases {significand : Nat} (h : significand ≤ maxSignificand) (exponent : Int) :
    RoundsFrom (9 / 4 * unit) (significand * 10 ^ exponent) (ofDecimal significand exponent) ∨
    (∃ magnitude, ofDecimal significand exponent = some magnitude ∧ value magnitude < 1 ∧
      (magnitude = 0 → (significand : ℚ) * 10 ^ exponent ≤ 5 / 4 * halfStep)) ∨
    (ofDecimal significand exponent = none ∧ (2 ^ 1024 : ℚ) ≤ significand * 10 ^ exponent) := by
  by_cases hrange : -maxPower ≤ exponent ∧ exponent ≤ maxPower
  · exact .inl (roundsFrom_ofDecimal h hrange.1 hrange.2)
  rcases Nat.eq_zero_or_pos significand with rfl | hpos
  · refine .inr (.inl ⟨0, ofDecimal_zero exponent, ?_, fun _ => ?_⟩)
    · rw [value_zero]
      exact zero_lt_one
    · rw [Nat.cast_zero, zero_mul]
      linarith [halfStep_pos]
  obtain ⟨start, hstart, hwithin⟩ := exists_significand h
  cases exponent with
  | ofNat power =>
    rw [Int.ofNat_eq_natCast] at hrange ⊢
    have hzero : start ≠ 0 :=
      (value_pos_iff.1 (hwithin.pos unit_lt_one (by exact_mod_cast hpos))).ne'
    rw [ofDecimal_natCast hstart, if_neg (by omega), if_neg hzero, zpow_natCast]
    exact .inr (.inr ⟨rfl, two_pow_le_of_maxPower_lt hpos (by omega)⟩)
  | negSucc less =>
    have hless : maxPower < less + 1 := by omega
    obtain ⟨magnitude, hmagnitude, hsmall, hzero⟩ := exists_scaleDown h hpos hwithin hless
    rw [ofDecimal_negSucc hstart, zpow_negSucc, ← div_eq_mul_inv]
    exact .inr (.inl ⟨magnitude, hmagnitude, hsmall, hzero⟩)

/-- What a magnitude says about the number that it was rounded from. -/
structure Rounds (x : ℚ) (magnitude : Nat) : Prop where
  zero : magnitude = 0 → x ≤ 5 / 4 * halfStep
  above : 1 ≤ value magnitude → Within (7 / 2 * unit) x (value magnitude)

variable {significand magnitude : Nat} {exponent : Int}

theorem ofDecimal_rounds (h : significand ≤ maxSignificand)
    (hresult : ofDecimal significand exponent = some magnitude) :
    Rounds (significand * 10 ^ exponent) magnitude := by
  have hx : (0 : ℚ) ≤ significand * 10 ^ exponent := by positivity
  obtain hrounds | ⟨found, hfound, hsmall, hzero⟩ | ⟨hnone, -⟩ := ofDecimal_cases h exponent
  · rw [hresult] at hrounds
    refine ⟨?_, hrounds.above hx⟩
    rintro rfl
    exact (hrounds.mono hx (by norm_num [unit])).zero
  · obtain rfl : found = magnitude := Option.some_inj.1 (hfound.symm.trans hresult)
    exact ⟨hzero, fun hone => absurd hone (not_le.2 hsmall)⟩
  · rw [hnone] at hresult
    cases hresult

/-- Only decimals of almost `2^1024` are too large. -/
theorem le_of_ofDecimal_eq_none (h : significand ≤ maxSignificand)
    (hresult : ofDecimal significand exponent = none) :
    2 ^ 1024 ≤ (1 + 7 / 2 * unit) * (significand * 10 ^ exponent) := by
  have hx : (0 : ℚ) ≤ significand * 10 ^ exponent := by positivity
  obtain hrounds | ⟨found, hfound, -, -⟩ | ⟨-, hlarge⟩ := ofDecimal_cases h exponent
  · rw [hresult] at hrounds
    exact hrounds.none hx
  · rw [hfound] at hresult
    cases hresult
  · refine hlarge.trans (le_mul_of_one_le_left hx ?_)
    norm_num [unit]

theorem exists_ofDecimal (h : significand ≤ maxSignificand)
    (hsmall : (significand : ℚ) * 10 ^ exponent ≤ 2 ^ 1023) :
    ∃ magnitude, ofDecimal significand exponent = some magnitude := by
  refine Option.ne_none_iff_exists'.1 fun hnone => ?_
  have hlarge := le_of_ofDecimal_eq_none h hnone
  have hpos : (0 : ℚ) < 2 ^ 1023 := by positivity
  rw [pow_succ] at hlarge
  generalize (2 : ℚ) ^ 1023 = bound at hsmall hlarge hpos
  have hshare : (1 + 7 / 2 * unit) * ((significand : ℚ) * 10 ^ exponent) ≤ 3 / 2 * bound := by
    gcongr
    norm_num [unit]
  linarith

/-! ### Decimals of 53 binary places -/

theorem nearest_mul {n den : Nat} (hn : n < 2 ^ 53) (hden : 0 < den) :
    nearest (n * den) den = some (n * one) := by
  refine nearest_eq_some_iff.2 ⟨rounded_mul hn hden, ?_⟩
  have hle : (n : ℚ) < 2 ^ 53 := by exact_mod_cast hn
  rw [value_mul_one]
  exact hle.trans_le (pow_le_pow_right₀ one_le_two (by decide))

theorem ofNat_of_lt {n : Nat} (hn : n < 2 ^ 53) : ofNat n = some (n * one) := by
  have h := nearest_mul hn Nat.one_pos
  rwa [Nat.mul_one] at h

theorem ofDecimal_mul {power : Nat} (h : significand * 10 ^ power < 2 ^ 53) :
    ofDecimal significand power = some (significand * 10 ^ power * one) := by
  rcases Nat.eq_zero_or_pos significand with rfl | hpos
  · rw [ofDecimal_zero, Nat.zero_mul, Nat.zero_mul]
  · have hsignificand : significand < 2 ^ 53 :=
      lt_of_le_of_lt (Nat.le_mul_of_pos_right _ (Nat.pow_pos (by decide))) h
    have hten : 10 ^ power < 2 ^ 53 := lt_of_le_of_lt (Nat.le_mul_of_pos_left _ hpos) h
    have hpower : power ≤ maxPower := by
      have hlt : 10 ^ power < 10 ^ 16 := hten.trans (by decide)
      have := (Nat.pow_lt_pow_iff_right (by decide : 1 < 10)).1 hlt
      rw [sizes.maxPower_eq]
      omega
    have hone : 0 < one := pos_one
    have hfactor : ofNat (Nat.pow 10 power) = some (10 ^ power * one) := ofNat_of_lt hten
    have hproduct : significand * one * (10 ^ power * one) =
        significand * 10 ^ power * (one * one) := by ring
    rw [ofDecimal_natCast (ofNat_of_lt hsignificand), if_pos hpower, hfactor, Option.bind_some, mul,
      hproduct, nearest_mul h (Nat.mul_pos hone hone)]

theorem ofDecimal_div {less : Nat} (h : significand < 2 ^ 53) (hless : less < 22) :
    ofDecimal significand (.negSucc less) =
      nearest (significand * one) (Nat.pow 10 (less + 1) * one) := by
  have hpower : less + 1 ≤ maxPower := by
    rw [sizes.maxPower_eq]
    omega
  rw [ofDecimal_negSucc (ofNat_of_lt h), scaleDown, if_pos hpower,
    sizes.ten_pow_exact _ (Nat.succ_lt_succ hless), Option.bind_some, div]

/-- A decimal of 53 binary places that is a whole number of 53 binary places is exact. -/
theorem ofDecimal_of_eq {n : Nat} (h : significand < 2 ^ 53) (hn : n < 2 ^ 53)
    (heq : (significand : ℚ) * 10 ^ exponent = n) :
    ofDecimal significand exponent = some (n * one) := by
  cases exponent with
  | ofNat power =>
    rw [Int.ofNat_eq_natCast, zpow_natCast] at heq
    have hnat : significand * 10 ^ power = n := by exact_mod_cast heq
    rw [Int.ofNat_eq_natCast, ofDecimal_mul (hnat ▸ hn), hnat]
  | negSucc less =>
    have hten : (0 : ℚ) < 10 ^ (less + 1) := by positivity
    rw [zpow_negSucc, ← div_eq_mul_inv, div_eq_iff hten.ne'] at heq
    have hnat : significand = n * 10 ^ (less + 1) := by exact_mod_cast heq
    rcases Nat.eq_zero_or_pos n with rfl | hpos
    · rw [hnat, Nat.zero_mul, Nat.zero_mul, ofDecimal_zero]
    · have hless : less < 22 := by
        have hle : 10 ^ (less + 1) ≤ significand := hnat ▸ Nat.le_mul_of_pos_left _ hpos
        have hlt : 10 ^ (less + 1) < 10 ^ 16 := (lt_of_le_of_lt hle h).trans (by decide)
        have := (Nat.pow_lt_pow_iff_right (by decide : 1 < 10)).1 hlt
        omega
      have hone : 0 < one := pos_one
      have hden : 0 < Nat.pow 10 (less + 1) * one := Nat.mul_pos (Nat.pow_pos (by decide)) hone
      have hnum : significand * one = n * (Nat.pow 10 (less + 1) * one) := by
        rw [hnat, Nat.mul_assoc]
        rfl
      rw [ofDecimal_div h hless, hnum, nearest_mul hn hden]

/-- A quotient of 53 binary places by an exact power of ten does not round to a whole number unless
it is one. -/
theorem eq_mul_of_nearest {power n : Nat} (h : significand < 2 ^ 53) (hpower : power ≤ 22)
    (hresult : nearest (significand * one) (Nat.pow 10 power * one) = some (n * one)) :
    significand = n * 10 ^ power := by
  have hone : 0 < one := pos_one
  have hten : (0 : ℚ) < 10 ^ power := by positivity
  have hden : 0 < Nat.pow 10 power * one := Nat.mul_pos (Nat.pow_pos (by decide)) hone
  have hnear := rounded_near (significand * one) hden
  have hquotient : ((significand * one : Nat) : ℚ) / (Nat.pow 10 power * one : Nat) =
      significand / 10 ^ power := by
    have hone' := one_pos.ne'
    have hcast : ((Nat.pow 10 power * one : Nat) : ℚ) = 10 ^ power * one := by
      rw [Nat.cast_mul]
      exact congrArg (· * (one : ℚ)) (Nat.cast_pow 10 power)
    rw [hcast, Nat.cast_mul]
    field_simp
  rw [(nearest_eq_some_iff.1 hresult).1, value_mul_one, hquotient] at hnear
  -- Both bounds on the error leave less than one when they are multiplied by the power.
  have hmax : max ((significand : ℚ) / 10 ^ power / 2 ^ 53) halfStep < 1 / 10 ^ power := by
    refine max_lt ?_ ?_
    · have : (significand : ℚ) < 2 ^ 53 := by exact_mod_cast h
      rw [div_div, mul_comm, ← div_div]
      gcongr
      rw [div_lt_one (by positivity)]
      exact this
    · have hle : (10 : ℚ) ^ power ≤ 10 ^ 22 := pow_le_pow_right₀ (by norm_num) hpower
      refine lt_of_le_of_lt halfStep_le ?_
      rw [div_lt_div_iff₀ (by positivity) hten]
      refine lt_of_le_of_lt (mul_le_mul_of_nonneg_left hle zero_le_one) ?_
      norm_num
  have hdiff : |(n * 10 ^ power : ℚ) - significand| < 1 := by
    have heq : (n * 10 ^ power : ℚ) - significand =
        (n - significand / 10 ^ power) * 10 ^ power := by
      field_simp
    rw [heq, abs_mul, abs_of_pos hten, ← lt_div_iff₀ hten]
    exact lt_of_le_of_lt hnear hmax
  have hint : |((n * 10 ^ power : Nat) : Int) - (significand : Int)| < 1 := by exact_mod_cast hdiff
  have := Int.abs_lt_one_iff.1 hint
  omega

/-- A decimal of 53 binary places that is no whole number, and not below the smallest magnitude,
gives no whole number. -/
theorem ofDecimal_of_ne (h : significand < 2 ^ 53)
    (hne : ∀ n : Nat, (significand : ℚ) * 10 ^ exponent ≠ n)
    (hlarge : 2 * halfStep < significand * 10 ^ exponent) :
    ∃ magnitude, ofDecimal significand exponent = some magnitude ∧ ¬ one ∣ magnitude := by
  have hmax : significand ≤ maxSignificand := h.le.trans (by decide)
  have hrat : (significand : ℚ) < 2 ^ 53 := by exact_mod_cast h
  obtain ⟨less, rfl⟩ : ∃ less, exponent = .negSucc less := by
    cases exponent with
    | ofNat power =>
      refine absurd ?_ (hne (significand * 10 ^ power))
      rw [Int.ofNat_eq_natCast, zpow_natCast]
      push_cast
      rfl
    | negSucc less => exact ⟨less, rfl⟩
  have hten : (1 : ℚ) ≤ 10 ^ (less + 1) := one_le_pow₀ (by norm_num)
  have hle : (significand : ℚ) * 10 ^ Int.negSucc less ≤ significand := by
    rw [zpow_negSucc, ← div_eq_mul_inv]
    exact div_le_self (Nat.cast_nonneg _) hten
  obtain ⟨magnitude, hresult⟩ := exists_ofDecimal hmax
    ((hle.trans hrat.le).trans (pow_le_pow_right₀ one_le_two (by decide)))
  refine ⟨magnitude, hresult, ?_⟩
  rcases Nat.lt_or_ge less 22 with hless | hmore
  · rintro ⟨n, rfl⟩
    rw [ofDecimal_div h hless, Nat.mul_comm one n] at hresult
    refine hne n ?_
    rw [eq_mul_of_nearest h hless hresult, zpow_negSucc]
    push_cast
    field_simp
  · have hrounds := ofDecimal_rounds hmax hresult
    have hpos : 0 < magnitude := by
      refine Nat.pos_of_ne_zero fun hzero => ?_
      have := hrounds.zero hzero
      linarith [halfStep_pos]
    have hsmall : value magnitude < 1 := by
      by_contra hone
      have hten : (10 ^ 23 : ℚ) ≤ 10 ^ (less + 1) := pow_le_pow_right₀ (by norm_num) (by omega)
      have hx : (significand : ℚ) * 10 ^ Int.negSucc less ≤ 2 ^ 53 / 10 ^ 23 := by
        rw [zpow_negSucc, ← div_eq_mul_inv]
        gcongr
      have hshare : (1 + 7 / 2 * unit) * ((significand : ℚ) * 10 ^ Int.negSucc less) ≤
          2 * (2 ^ 53 / 10 ^ 23) := by
        gcongr
        norm_num [unit]
      have := (not_lt.1 hone).trans ((hrounds.above (not_lt.1 hone)).2.trans hshare)
      norm_num at this
    have hlt : magnitude < one := by
      rwa [← not_le, one_le_value_iff, not_le] at hsmall
    exact Nat.not_dvd_of_pos_of_lt hpos hlt

end FlatScope.Json.Binary64
