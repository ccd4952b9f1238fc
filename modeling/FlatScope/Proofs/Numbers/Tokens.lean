import FlatScope.Json.Reader
import FlatScope.Proofs.Numbers.Decimal

/-!
# Number tokens and their values

`Numeral.Writes` is the grammar of number tokens, and `Numeral.value` is the exact number that a
token writes.  A text that is one token is read as the number that the reader gives for its parts
(`parseChars_of_writes`).  The decimal that `Numeral.number?` rounds is the exact number up to the
digits that do not fit in the significand, which are less than a share `2^-60` of it
(`Numeral.decimal_spec`).
-/

namespace FlatScope.Json

open FlatScope.Text

/-! ### Grammar -/

def IsDigits (cs : List Char) : Prop := cs ≠ [] ∧ ∀ c ∈ cs, isDigit c = true

/-- The digits before the point: a zero alone, or digits that begin with another one. -/
def IsWhole (cs : List Char) : Prop := IsDigits cs ∧ (cs.head? = some '0' → cs = ['0'])

instance : DecidablePred IsDigits := fun cs =>
  decidable_of_iff (cs ≠ [] ∧ cs.all isDigit = true) (by rw [IsDigits, List.all_eq_true])

instance : DecidablePred IsWhole := fun cs =>
  inferInstanceAs (Decidable (IsDigits cs ∧ (cs.head? = some '0' → cs = ['0'])))

inductive WritesFraction : List Char → (digits : List Char) → Prop where
  | absent : WritesFraction [] []
  | present {digits : List Char} (h : IsDigits digits) : WritesFraction ('.' :: digits) digits

inductive WritesPower : List Char → (power : Int) → Prop where
  | bare {digits : List Char} (h : IsDigits digits) : WritesPower digits (digitsValue digits)
  | plus {digits : List Char} (h : IsDigits digits) :
      WritesPower ('+' :: digits) (digitsValue digits)
  | minus {digits : List Char} (h : IsDigits digits) :
      WritesPower ('-' :: digits) (-(digitsValue digits : Int))

inductive WritesExponent : List Char → (exponent : Option Int) → Prop where
  | absent : WritesExponent [] none
  | lower {cs : List Char} {power : Int} (h : WritesPower cs power) :
      WritesExponent ('e' :: cs) (some power)
  | upper {cs : List Char} {power : Int} (h : WritesPower cs power) :
      WritesExponent ('E' :: cs) (some power)

/-- A text is the token with given parts. -/
inductive Numeral.Writes : List Char → Numeral → Prop where
  | positive {whole fraction point power : List Char} {exponent : Option Int}
      (hwhole : IsWhole whole) (hfraction : WritesFraction point fraction)
      (hexponent : WritesExponent power exponent) :
      Writes (whole ++ (point ++ power)) ⟨false, whole, fraction, exponent⟩
  | negative {whole fraction point power : List Char} {exponent : Option Int}
      (hwhole : IsWhole whole) (hfraction : WritesFraction point fraction)
      (hexponent : WritesExponent power exponent) :
      Writes ('-' :: (whole ++ (point ++ power))) ⟨true, whole, fraction, exponent⟩

/-! ### Reading -/

def NoDigit (cs : List Char) : Prop := ∀ c rest, cs = c :: rest → isDigit c = false

theorem noDigit_nil : NoDigit [] := by
  intro c rest h
  cases h

theorem noDigit_cons {c : Char} {rest : List Char} (h : isDigit c = false) :
    NoDigit (c :: rest) := by
  intro d others heq
  cases heq
  exact h

theorem span_digits {digits rest : List Char} (h : ∀ c ∈ digits, isDigit c = true)
    (hrest : NoDigit rest) : (digits ++ rest).span isDigit = (digits, rest) := by
  rw [List.span_eq_takeWhile_dropWhile, List.takeWhile_append_of_pos h,
    List.dropWhile_append_of_pos h]
  cases rest with
  | nil => simp
  | cons c others => simp [hrest c others rfl]

theorem readDigits_append {digits rest : List Char} (h : IsDigits digits) (hrest : NoDigit rest) :
    readDigits (digits ++ rest) = .ok (digits, rest) := by
  obtain ⟨hne, hall⟩ := h
  obtain ⟨c, others, rfl⟩ := List.exists_cons_of_ne_nil hne
  rw [readDigits, span_digits hall hrest]

theorem readDigits_all {digits : List Char} (h : IsDigits digits) :
    readDigits digits = .ok (digits, []) := by
  have hread := readDigits_append h noDigit_nil
  rwa [List.append_nil] at hread

theorem readWhole_append {whole rest : List Char} (h : IsWhole whole) (hrest : NoDigit rest) :
    readWhole (whole ++ rest) = .ok (whole, rest) := by
  obtain ⟨hdigits, hzero⟩ := h
  rw [readWhole, readDigits_append hdigits hrest]
  simp only [bind, Except.bind]
  split
  · rename_i c others
    simp at hzero
  · rfl

theorem noDigit_power {power : List Char} {exponent : Option Int}
    (h : WritesExponent power exponent) : NoDigit power := by
  cases h with
  | absent => exact noDigit_nil
  | lower => exact noDigit_cons (by decide)
  | upper => exact noDigit_cons (by decide)

theorem noDigit_point {point fraction power : List Char} {exponent : Option Int}
    (hfraction : WritesFraction point fraction) (hexponent : WritesExponent power exponent) :
    NoDigit (point ++ power) := by
  cases hfraction with
  | absent => exact noDigit_power hexponent
  | present => exact noDigit_cons (by decide)

theorem readFraction_append {point fraction power : List Char} {exponent : Option Int}
    (hfraction : WritesFraction point fraction) (hexponent : WritesExponent power exponent) :
    readFraction (point ++ power) = .ok (fraction, power) := by
  cases hfraction with
  | absent =>
    cases hexponent with
    | absent => rfl
    | lower => rfl
    | upper => rfl
  | present h => exact readDigits_append h (noDigit_power hexponent)

theorem readExponentDigits_eq {cs : List Char} {power : Int} (h : WritesPower cs power) :
    readExponentDigits cs = .ok (power, []) := by
  cases h with
  | plus h =>
    rw [readExponentDigits, readDigits_all h]
    rfl
  | minus h =>
    rw [readExponentDigits, readDigits_all h]
    rfl
  | bare h =>
    unfold readExponentDigits
    split
    case h_1 => exact absurd (h.2 '+' List.mem_cons_self) (by decide)
    case h_2 => exact absurd (h.2 '-' List.mem_cons_self) (by decide)
    case h_3 =>
      rw [readDigits_all h]
      rfl

theorem readExponent_eq {power : List Char} {exponent : Option Int}
    (h : WritesExponent power exponent) : readExponent power = .ok (exponent, []) := by
  cases h with
  | absent => rfl
  | lower h =>
    rw [readExponent, if_pos (.inl rfl), readExponentDigits_eq h]
    rfl
  | upper h =>
    rw [readExponent, if_pos (.inr rfl), readExponentDigits_eq h]
    rfl

/-- The number that a reader gives for a token, or why the token is refused. -/
def Numeral.answer (numbers : NumberReader) (numeral : Numeral) : Except Defect Json :=
  match numbers numeral with
  | some value => .ok (.number value)
  | none => .error .malformed

variable (numbers : NumberReader)

theorem readNumber_append {whole fraction point power : List Char} {exponent : Option Int}
    (negative : Bool) (hwhole : IsWhole whole) (hfraction : WritesFraction point fraction)
    (hexponent : WritesExponent power exponent) :
    readNumber numbers negative (whole ++ (point ++ power)) =
      (Numeral.answer numbers ⟨negative, whole, fraction, exponent⟩).map
        fun value => (value, []) := by
  simp only [readNumber, readWhole_append hwhole (noDigit_point hfraction hexponent),
    readFraction_append hfraction hexponent, readExponent_eq hexponent, bind, Except.bind,
    Numeral.answer]
  cases numbers ⟨negative, whole, fraction, exponent⟩ with
  | none => rfl
  | some value => rfl

theorem skipSpace_of_digit {c : Char} (h : isDigit c = true) (rest : List Char) :
    skipSpace (c :: rest) = c :: rest := by
  have hspace : isSpace c = false := by
    by_contra hne
    simp only [isSpace, Bool.not_eq_false, Bool.or_eq_true, decide_eq_true_eq] at hne
    rcases hne with ((rfl | rfl) | rfl) | rfl <;> exact absurd h (by decide)
  rw [skipSpace, List.dropWhile_cons, hspace]
  rfl

theorem readValue_of_digit {c : Char} (h : isDigit c = true) (rest : List Char) (fuel : Nat) :
    readValue numbers (fuel + 1) (c :: rest) = readNumber numbers false (c :: rest) := by
  rw [readValue, skipSpace_of_digit h]
  split
  case h_9 _ found others hnone heq =>
    cases heq
    rw [if_pos h]
  -- No other character that begins a value is a digit.
  all_goals
    rename_i heq
    cases heq
  all_goals exact absurd h (by decide)

theorem readValue_of_writes {cs : List Char} {numeral : Numeral} (h : numeral.Writes cs)
    (fuel : Nat) :
    readValue numbers (fuel + 1) cs = (numeral.answer numbers).map fun value => (value, []) := by
  cases h with
  | positive hwhole hfraction hexponent =>
    obtain ⟨c, rest, rfl⟩ := List.exists_cons_of_ne_nil hwhole.1.1
    rw [← readNumber_append numbers false hwhole hfraction hexponent]
    exact readValue_of_digit numbers (hwhole.1.2 c List.mem_cons_self) _ fuel
  | negative hwhole hfraction hexponent =>
    rw [← readNumber_append numbers true hwhole hfraction hexponent]
    rfl

/-- A text that is one number token is read as its number. -/
theorem parseChars_of_writes {cs : List Char} {numeral : Numeral} (h : numeral.Writes cs) :
    parseChars numbers cs = numeral.answer numbers := by
  rw [parseChars, readValue_of_writes numbers h]
  cases numeral.answer numbers with
  | error defect => rfl
  | ok value => rfl

/-! ### Exact values -/

namespace Numeral

/-- All digits of a token as one number. -/
def digits (numeral : Numeral) : Nat := digitsValue (numeral.whole ++ numeral.fraction)

/-- The power of ten that the last digit of a token counts. -/
def scale (numeral : Numeral) : Int := numeral.exponent.getD 0 - numeral.fraction.length

def magnitude (numeral : Numeral) : ℚ := numeral.digits * 10 ^ numeral.scale

/-- The exact number that a token writes. -/
def value (numeral : Numeral) : ℚ :=
  if numeral.negative then -numeral.magnitude else numeral.magnitude

end Numeral

/-! ### Significands -/

/-- A number with digits appended. -/
def appended (n : Nat) (digits : List Char) : Nat :=
  digits.foldl (fun n c => 10 * n + digitValue c) n

theorem appended_append (n : Nat) (first second : List Char) :
    appended n (first ++ second) = appended (appended n first) second :=
  List.foldl_append

theorem le_appended (n : Nat) (digits : List Char) : n ≤ appended n digits := by
  induction digits generalizing n with
  | nil => exact le_rfl
  | cons c rest ih =>
    have hrest := ih (10 * n + digitValue c)
    change n ≤ appended (10 * n + digitValue c) rest
    omega

theorem digitValue_le {c : Char} (h : isDigit c = true) : digitValue c ≤ 9 := by
  simp only [isDigit, Bool.and_eq_true, decide_eq_true_eq] at h
  have hle : c.toNat ≤ '9'.toNat := h.2
  have hnine : '9'.toNat = 57 := rfl
  unfold digitValue
  omega

theorem appended_bounds {digits : List Char} (h : ∀ c ∈ digits, isDigit c = true) (n : Nat) :
    n * 10 ^ digits.length ≤ appended n digits ∧
      appended n digits < (n + 1) * 10 ^ digits.length := by
  induction digits generalizing n with
  | nil => exact ⟨by simp [appended], by simp [appended]⟩
  | cons c rest ih =>
    have hdigit := digitValue_le (h c List.mem_cons_self)
    obtain ⟨hlow, hhigh⟩ := ih (fun d hd => h d (List.mem_cons_of_mem c hd)) (10 * n + digitValue c)
    have hpow : 10 ^ (c :: rest).length = 10 * 10 ^ rest.length := by
      rw [List.length_cons, Nat.pow_succ, Nat.mul_comm]
    rw [hpow, ← Nat.mul_assoc, ← Nat.mul_assoc]
    constructor
    · refine le_trans (Nat.mul_le_mul_right _ ?_) hlow
      omega
    · refine lt_of_lt_of_le hhigh (Nat.mul_le_mul_right _ ?_)
      omega

theorem absorb_spec {digits : List Char} (h : ∀ c ∈ digits, isDigit c = true) {n : Nat}
    (hn : n ≤ maxSignificand) :
    ∃ taken rest, digits = taken ++ rest ∧ absorb n digits = (appended n taken, rest) ∧
      appended n taken ≤ maxSignificand ∧ (rest ≠ [] → 2 ^ 60 ≤ appended n taken) := by
  induction digits generalizing n with
  | nil => exact ⟨[], [], rfl, rfl, hn, fun hne => absurd rfl hne⟩
  | cons c rest ih =>
    rw [absorb]
    by_cases hfits : 10 * n + digitValue c ≤ maxSignificand
    · obtain ⟨taken, left, hsplit, habsorb, hmax, hlarge⟩ :=
        ih (fun d hd => h d (List.mem_cons_of_mem c hd)) hfits
      refine ⟨c :: taken, left, by rw [hsplit, List.cons_append], ?_, hmax, hlarge⟩
      simp only [hfits, if_true]
      exact habsorb
    · have hdigit := digitValue_le (h c List.mem_cons_self)
      refine ⟨[], c :: rest, rfl, ?_, hn, fun _ => ?_⟩
      · simp only [hfits, if_false]
        rfl
      · change 2 ^ 60 ≤ n
        unfold maxSignificand at hfits
        omega

theorem absorb_of_le {digits : List Char} {n : Nat} (h : appended n digits ≤ maxSignificand) :
    absorb n digits = (appended n digits, []) := by
  induction digits generalizing n with
  | nil => rfl
  | cons c rest ih =>
    have hfits : 10 * n + digitValue c ≤ maxSignificand := (le_appended _ rest).trans h
    rw [absorb]
    simp only [hfits, if_true]
    exact ih h

/-- A number begins with given digits, of which the last counts a given power of ten. -/
def Leads (n : Nat) (power : Int) (x : ℚ) : Prop :=
  n * 10 ^ power ≤ x ∧ x ≤ (n + 1) * 10 ^ power

theorem leads_self (n : Nat) (power : Int) : Leads n power (n * 10 ^ power) := by
  have hpos : (0 : ℚ) ≤ 10 ^ power := by positivity
  constructor <;> linarith

theorem leads_appended {n all : Nat} {power last : Int} {rest : List Char}
    (h : ∀ c ∈ rest, isDigit c = true) (hall : all = appended n rest)
    (hlast : last = power - rest.length) : Leads n power (all * 10 ^ last) := by
  obtain ⟨hlow, hhigh⟩ := appended_bounds h n
  have hlow' : (n * 10 ^ rest.length : ℚ) ≤ all := by
    rw [hall]
    exact_mod_cast hlow
  have hhigh' : (all : ℚ) ≤ (n + 1) * 10 ^ rest.length := by
    rw [hall]
    exact_mod_cast hhigh.le
  have hsplit : (10 : ℚ) ^ power = 10 ^ rest.length * 10 ^ last := by
    rw [hlast, ← zpow_natCast, ← zpow_add₀ (by norm_num), add_sub_cancel]
  have hpos : (0 : ℚ) ≤ 10 ^ last := by positivity
  rw [Leads, hsplit, ← mul_assoc, ← mul_assoc]
  exact ⟨mul_le_mul_of_nonneg_right hlow' hpos, mul_le_mul_of_nonneg_right hhigh' hpos⟩

theorem within_of_leads {n : Nat} {power : Int} {x y : ℚ} (hn : 2 ^ 60 ≤ n)
    (hx : Leads n power x) (hy : Leads n power y) : Binary64.Within (1 / 2 ^ 60) x y := by
  have hn' : (2 ^ 60 : ℚ) ≤ n := by exact_mod_cast hn
  have hpos : (0 : ℚ) < 10 ^ power := by positivity
  have hstep : (10 : ℚ) ^ power ≤ 1 / 2 ^ 60 * (n * 10 ^ power) := by
    have := mul_le_mul_of_nonneg_right hn' hpos.le
    linarith
  obtain ⟨hxlow, hxhigh⟩ := hx
  obtain ⟨hylow, hyhigh⟩ := hy
  rw [add_mul, one_mul] at hxhigh hyhigh
  constructor <;> linarith

/-! ### The decimal that is rounded -/

namespace Numeral

variable {numeral : Numeral}

def AllDigits (numeral : Numeral) : Prop :=
  ∀ c ∈ numeral.whole ++ numeral.fraction, isDigit c = true

theorem Writes.allDigits {cs : List Char} (h : numeral.Writes cs) : numeral.AllDigits := by
  have hparts : ∀ {whole fraction point : List Char}, IsWhole whole →
      WritesFraction point fraction → ∀ c ∈ whole ++ fraction, isDigit c = true := by
    intro whole fraction point hwhole hfraction c hc
    rcases List.mem_append.1 hc with hc | hc
    · exact hwhole.1.2 c hc
    · cases hfraction with
      | absent => cases hc
      | present hdigits => exact hdigits.2 c hc
  cases h with
  | positive hwhole hfraction => exact hparts hwhole hfraction
  | negative hwhole hfraction => exact hparts hwhole hfraction

theorem AllDigits.whole (h : numeral.AllDigits) : ∀ c ∈ numeral.whole, isDigit c = true :=
  fun c hc => h c (List.mem_append_left _ hc)

theorem AllDigits.fraction (h : numeral.AllDigits) : ∀ c ∈ numeral.fraction, isDigit c = true :=
  fun c hc => h c (List.mem_append_right _ hc)

theorem digits_eq (numeral : Numeral) :
    numeral.digits = appended (appended 0 numeral.whole) numeral.fraction :=
  appended_append 0 numeral.whole numeral.fraction

theorem digits_of_fraction_eq_nil (h : numeral.fraction = []) :
    numeral.digits = appended 0 numeral.whole := by
  rw [digits_eq, h]
  rfl

/-- The decimal that is rounded when a token is no exact number. -/
def decimal (numeral : Numeral) : Nat × Int :=
  let (whole, dropped) := absorb 0 numeral.whole
  let (significand, unused) := absorb whole numeral.fraction
  (significand, dropped.length - (numeral.fraction.length - unused.length : Nat) +
    numeral.exponent.getD 0)

theorem decimal_of_le (h : numeral.digits ≤ maxSignificand) :
    numeral.decimal = (numeral.digits, numeral.scale) := by
  rw [digits_eq] at h
  have hwhole := absorb_of_le ((le_appended _ numeral.fraction).trans h)
  have hfraction := absorb_of_le h
  simp only [decimal, hwhole, hfraction, scale, digits_eq, List.length_nil, Nat.sub_zero]
  refine Prod.ext rfl ?_
  simp only
  omega

/-- The decimal is the exact number up to the digits that were dropped. -/
theorem decimal_spec (h : numeral.AllDigits) :
    numeral.decimal.1 ≤ maxSignificand ∧
      Binary64.Within (1 / 2 ^ 60) numeral.magnitude
        (numeral.decimal.1 * 10 ^ numeral.decimal.2) := by
  obtain ⟨first, dropped, hsplit, habsorb, hmax, hlarge⟩ := absorb_spec h.whole (Nat.zero_le _)
  obtain ⟨second, unused, hsplit', habsorb', hmax', hlarge'⟩ := absorb_spec h.fraction hmax
  have hlength : numeral.fraction.length = second.length + unused.length := by
    rw [hsplit', List.length_append]
  have hdecimal : numeral.decimal = (appended (appended 0 first) second,
      dropped.length - second.length + numeral.exponent.getD 0) := by
    simp only [decimal, habsorb, habsorb', hlength, Nat.add_sub_cancel]
  have hdigits : numeral.digits = appended (appended 0 first) (dropped ++ numeral.fraction) := by
    rw [digits_eq, hsplit, appended_append, appended_append]
  have hscale : numeral.scale = numeral.exponent.getD 0 - numeral.fraction.length := rfl
  rw [hdecimal]
  refine ⟨hmax', ?_⟩
  rcases eq_or_ne dropped [] with rfl | hdropped
  · rw [List.nil_append, hsplit', appended_append] at hdigits
    rcases eq_or_ne unused [] with rfl | hunused
    · -- Nothing was dropped.
      have hle : numeral.digits ≤ maxSignificand := by rwa [hdigits]
      have hmagnitude : (0 : ℚ) ≤ numeral.magnitude := by
        unfold magnitude
        positivity
      rw [← hdecimal, decimal_of_le hle]
      change Binary64.Within _ numeral.magnitude numeral.magnitude
      constructor <;> linarith
    · have hrest : ∀ c ∈ unused, isDigit c = true :=
        fun c hc => h.fraction c (hsplit' ▸ List.mem_append_right _ hc)
      refine within_of_leads (hlarge' hunused) (leads_appended hrest hdigits ?_) (leads_self _ _)
      rw [hscale, hlength]
      push_cast [List.length_nil]
      omega
  · -- Digits of the fraction may stand in for whole digits that were dropped.
    have hrest : ∀ c ∈ dropped ++ numeral.fraction, isDigit c = true := by
      intro c hc
      rcases List.mem_append.1 hc with hc | hc
      · exact h.whole c (hsplit ▸ List.mem_append_right _ hc)
      · exact h.fraction c hc
    have hsecond : ∀ c ∈ second, isDigit c = true :=
      fun c hc => h.fraction c (hsplit' ▸ List.mem_append_left _ hc)
    have hlast : numeral.scale = (dropped.length + numeral.exponent.getD 0 : Int) -
        (dropped ++ numeral.fraction).length := by
      rw [hscale, List.length_append]
      push_cast
      omega
    exact within_of_leads (hlarge hdropped) (leads_appended hrest hdigits hlast)
      (leads_appended hsecond rfl (by omega))

theorem isEmpty_dropped_iff (h : numeral.AllDigits) (hfraction : numeral.fraction = []) :
    (absorb 0 numeral.whole).2.isEmpty = true ↔ numeral.digits ≤ maxSignificand := by
  have hdigits := digits_of_fraction_eq_nil hfraction
  constructor
  · intro hempty
    obtain ⟨taken, rest, hsplit, habsorb, hmax, -⟩ := absorb_spec h.whole (Nat.zero_le _)
    rw [habsorb, List.isEmpty_iff] at hempty
    change rest = [] at hempty
    rw [hempty, List.append_nil] at hsplit
    rwa [hdigits, hsplit]
  · intro hle
    rw [absorb_of_le (hdigits ▸ hle)]
    rfl

/-- A plain token whose digits fit in the significand is exact where it can be; any other token is
rounded from its decimal. -/
theorem number?_eq (h : numeral.AllDigits) :
    numeral.number? =
      if numeral.isPlain = true ∧ numeral.digits ≤ maxSignificand then
        plainNumber? numeral.negative numeral.digits
      else (Binary64.ofDecimal numeral.decimal.1 numeral.decimal.2).map
        (Number.real numeral.negative) := by
  by_cases hplain : numeral.isPlain = true
  · have hfraction : numeral.fraction = [] := by
      simp only [isPlain, Bool.and_eq_true, List.isEmpty_iff] at hplain
      exact hplain.1
    by_cases hle : numeral.digits ≤ maxSignificand
    · have habsorb : absorb 0 numeral.whole = (numeral.digits, []) := by
        rw [digits_of_fraction_eq_nil hfraction] at hle ⊢
        exact absorb_of_le hle
      rw [if_pos ⟨hplain, hle⟩]
      simp only [number?, habsorb, hplain, List.isEmpty_nil, Bool.and_self, if_true]
    · have hdropped : (absorb 0 numeral.whole).2.isEmpty = false := by
        rw [← Bool.not_eq_true, isEmpty_dropped_iff h hfraction]
        exact hle
      rw [if_neg (fun hboth => hle hboth.2)]
      simp only [number?, hdropped, Bool.and_false, Bool.false_eq_true, if_false, decimal]
  · rw [if_neg (fun hboth => hplain hboth.1)]
    simp only [number?, hplain, Bool.false_and, Bool.false_eq_true, if_false, decimal]

/-! ### What the decimal is rounded to -/

theorem magnitude_nonneg (numeral : Numeral) : 0 ≤ numeral.magnitude := by
  unfold magnitude
  positivity

/-- How the exact number of a token relates to the magnitude that it is rounded to. -/
structure RoundsTo (numeral : Numeral) (magnitude : Nat) : Prop where
  zero : magnitude = 0 → numeral.magnitude ≤ 2 * Binary64.halfStep
  above : 1 ≤ Binary64.value magnitude →
    Binary64.Within (1 / 2 ^ 51) numeral.magnitude (Binary64.value magnitude)

theorem roundsTo_of_some (h : numeral.AllDigits) {magnitude : Nat}
    (hsome : Binary64.ofDecimal numeral.decimal.1 numeral.decimal.2 = some magnitude) :
    numeral.RoundsTo magnitude := by
  obtain ⟨hmax, hwithin⟩ := decimal_spec h
  have hrounds := Binary64.ofDecimal_rounds hmax hsome
  have hnonneg := numeral.magnitude_nonneg
  refine ⟨fun hzero => ?_, fun hone => ?_⟩
  · have hlow := hwithin.1.trans (hrounds.zero hzero)
    have hhalf := Binary64.halfStep_pos
    norm_num at hlow
    linarith
  · -- Dropping digits and rounding what is left add up to less than `2^-51`.
    refine (hwithin.trans (hrounds.above hone) ?_ ?_ ?_ hnonneg).mono hnonneg ?_ <;>
      norm_num [Binary64.unit]

end Numeral

end FlatScope.Json
