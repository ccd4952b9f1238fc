import FlatScope.Proofs.Numbers.Tokens
import FlatScope.Proofs.Scope.Start

/-!
# Programs that are one number token

With any reader that classifies integer tokens as it should (`Classified`), an integer token is
decoded and evaluated exactly, or it is refused (`integer_tokens_are_exact_or_refused`).  A token with
a fraction or an exponent is rounded before it is asked whether it is whole: what it evaluates to is
off by at most `2^-51` of the exact number, and exact where the digits of the token and the number
itself have 53 binary places (`decimal_tokens_change_by_rounding`).
-/

namespace FlatScope

open Json

attribute [local irreducible] Binary64.one

/-! ### Literals of numbers -/

/-- The literal for an integer: the integer itself, or the smallest or largest literal if it lies
beyond that. -/
def nearestLiteral (n : Int) : Int := max minLiteral (min maxLiteral n)

theorem nearestLiteral_of_between {n : Int} (hlow : minLiteral ≤ n) (hhigh : n ≤ maxLiteral) :
    nearestLiteral n = n := by
  unfold nearestLiteral
  omega

theorem eq_of_nearestLiteral {n : Int} (hlow : minLiteral < nearestLiteral n)
    (hhigh : nearestLiteral n < maxLiteral) : nearestLiteral n = n := by
  unfold nearestLiteral at *
  omega

def signed (negative : Bool) (n : Nat) : Int := if negative then -n else n

theorem signed_eq (negative : Bool) (n : Nat) : signed negative n = n ∨ signed negative n = -n := by
  cases negative with
  | false => exact .inl rfl
  | true => exact .inr rfl

theorem literal?_mul_one (negative : Bool) (n : Nat) :
    (Number.real negative (n * Binary64.one)).literal? =
      some (nearestLiteral (signed negative n)) := by
  have hone : 0 < Binary64.one := Binary64.pos_one
  have hwhole : Binary64.whole? (n * Binary64.one) = some n := by
    rw [Binary64.whole?, if_pos (Nat.mul_mod_left _ _), Nat.mul_div_cancel _ hone]
  rw [Number.literal?, hwhole]
  change some (if negative then max minLiteral (-(n : Int)) else min maxLiteral n) = _
  unfold nearestLiteral signed minLiteral maxLiteral
  cases negative with
  | false =>
    simp only [Bool.false_eq_true, if_false]
    congr 1
    omega
  | true =>
    simp only [if_true]
    congr 1
    omega

theorem literal?_of_not_dvd (negative : Bool) {magnitude : Nat} (h : ¬ Binary64.one ∣ magnitude) :
    (Number.real negative magnitude).literal? = none := by
  have hrest : ¬ magnitude % Binary64.one = 0 := fun hzero => h (Nat.dvd_of_mod_eq_zero hzero)
  rw [Number.literal?, Binary64.whole?, if_neg hrest]
  rfl

theorem Json.Numeral.value_eq_signed {numeral : Numeral} {n : Nat} (h : numeral.magnitude = n) :
    numeral.value = signed numeral.negative n := by
  rw [Numeral.value, h, signed]
  split <;> push_cast <;> rfl

/-! ### Running one node -/

namespace Setting

variable {setting : Setting} {steps : Nat} {id : NodeId} {frame : FrameId} {memory : Memory}

theorem evaluateWithin_of_startNode {outcome : Outcome} (hsteps : 2 ≤ steps)
    (h : setting.startNode id frame [] memory = ⟨.outcome outcome, [], memory⟩) :
    setting.evaluateWithin steps id frame memory = some (outcome, memory) := by
  have hrun : setting.run 2 ⟨.node id frame, [], memory⟩ = some (outcome, memory) := by
    simp only [run, step, h]
  exact run_mono hsteps hrun

end Setting

namespace Program

variable {program : Program} {names : NameTable} {steps : Nat}

theorem runProgram_of_startNode (hsteps : 2 ≤ steps) (config : Config)
    (defines : List (String × Word)) {outcome : Outcome}
    (h : ∀ memory, (startSetting program names config defines).startNode program.root startFrame []
      memory = ⟨.outcome outcome, [], memory⟩) :
    runProgram steps program names config defines = outcome.mapError .halt := by
  rw [runProgram_eq_start, Setting.evaluateWithin_of_startNode hsteps (h _)]
  cases outcome <;> rfl

theorem runProgram_of_int {literal : Int} (hsteps : 2 ≤ steps)
    (h : Decoded program names (.int literal)) (config : Config) (defines : List (String × Word)) :
    runProgram steps program names config defines = (evalInt literal).mapError .halt := by
  obtain ⟨node, hnode, hlayer⟩ := Code.expr?_eq_some_iff.1 h.root
  cases hlayer
  refine runProgram_of_startNode hsteps config defines fun memory => ?_
  simp only [Setting.startNode, startSetting, hnode]

theorem runProgram_of_unknown {tag : String} (hsteps : 2 ≤ steps)
    (h : Decoded program names (.unknown tag)) (config : Config) (defines : List (String × Word)) :
    runProgram steps program names config defines =
      .error (.halt (.fault (.unknownForm tag))) := by
  obtain ⟨node, hnode, hlayer⟩ := Code.expr?_eq_some_iff.1 h.root
  cases hlayer with
  | unknown htext =>
    have htext' := keptBy_start names defines _ _ htext
    have hstart : ∀ memory,
        (startSetting program names config defines).startNode program.root startFrame [] memory =
          ⟨.outcome (.error (.fault (.unknownForm tag))), [], memory⟩ := by
      intro memory
      simp only [Setting.startNode, startSetting, hnode, Setting.evalUnknown, NameTable.faultFor,
        htext']
    exact runProgram_of_startNode hsteps config defines hstart

/-! ### Decoding one number -/

def exprOf (number : Number) : Expr :=
  match number.literal? with
  | some literal => .int literal
  | none => .unknown "number"

theorem encodes_exprOf (number : Number) : Encodes (.number number) (exprOf number) := by
  unfold exprOf
  split
  case h_1 literal hliteral => exact .whole (Number.literal?_eq_some_iff.1 hliteral)
  case h_2 hnone => exact .broken (Number.literal?_eq_none_iff.1 hnone)

/-- A text is read as a program with a given expression, whatever names there are, as long as there is
room for those of the expression. -/
def DecodesTo (numbers : NumberReader) (text : String) (expr : Expr) : Prop :=
  ∀ names : NameTable, names.Suffices expr.names →
    ∃ program after, ofText numbers text names = (.ok program, after) ∧ Decoded program after expr

variable {numbers : NumberReader} {engine : Engine} {text : String} {numeral : Numeral}

theorem ofText_of_none (hwrites : numeral.Writes text.toList) (hnumber : numbers numeral = none)
    (names : NameTable) : ofText numbers text names = (.error (.json .malformed), names) := by
  have hparse : Json.parse numbers text = .error .malformed := by
    rw [Json.parse, parseChars_of_writes numbers hwrites, Numeral.answer, hnumber]
  rw [ofText, hparse]

theorem decodesTo_of_some (hwrites : numeral.Writes text.toList) {number : Number}
    (hnumber : numbers numeral = some number) : DecodesTo numbers text (exprOf number) := by
  intro names hroom
  have hparse : Json.parse numbers text = .ok (.number number) := by
    rw [Json.parse, parseChars_of_writes numbers hwrites, Numeral.answer, hnumber]
  have hdecode := ofJson_of_encodes (encodes_exprOf number) hroom
  obtain ⟨hroot, hreadable, -⟩ := ofJson_reads_back hdecode (encodes_exprOf number)
  refine ⟨_, _, ?_, hroot, hreadable⟩
  rw [ofText, hparse]
  simp only [hdecode]

variable {options : Options} {scopingValue : Option String} {config : Config}

theorem runText_of_none (hwrites : numeral.Writes text.toList)
    (hnumber : engine.numbers numeral = none)
    (hconfig : options.config scopingValue = .ok config) :
    runText engine text options scopingValue = .error (.decode (.json .malformed)) := by
  simp only [runText, hconfig, ofText_of_none hwrites hnumber]

theorem DecodesTo.runText_int {literal : Int} (h : DecodesTo engine.numbers text (.int literal))
    (hsteps : 2 ≤ engine.steps) (hconfig : options.config scopingValue = .ok config) :
    runText engine text options scopingValue = (evalInt literal).mapError .halt := by
  obtain ⟨program, after, htext, hdecoded⟩ :=
    h .new (NameTable.suffices_of_subset (List.nil_subset _))
  simp only [runText, hconfig, htext]
  exact runProgram_of_int hsteps hdecoded config options.defines

theorem DecodesTo.runText_number (h : DecodesTo engine.numbers text (.unknown "number"))
    (hsteps : 2 ≤ engine.steps) (hconfig : options.config scopingValue = .ok config) :
    runText engine text options scopingValue =
      .error (.halt (.fault (.unknownForm "number"))) := by
  obtain ⟨program, after, htext, hdecoded⟩ := h .new (by decide)
  simp only [runText, hconfig, htext]
  exact runProgram_of_unknown hsteps hdecoded config options.defines

/-! ### Tokens with a literal -/

/-- What is read is a number that stands for a literal. -/
def HasLiteral (read : Option Number) (literal : Int) : Prop :=
  ∃ number, read = some number ∧ number.literal? = some literal

/-- What is read is a number whose literal is refused when it is evaluated. -/
def Refused (read : Option Number) : Prop :=
  ∃ literal, HasLiteral read literal ∧ (literal ≤ -2 ^ 63 ∨ 2 ^ 63 - 1 ≤ literal)

theorem HasLiteral.decodesTo (hwrites : numeral.Writes text.toList) {literal : Int}
    (h : HasLiteral (numbers numeral) literal) : DecodesTo numbers text (.int literal) := by
  obtain ⟨number, hnumber, hliteral⟩ := h
  have hdecodes := decodesTo_of_some hwrites hnumber
  rwa [exprOf, hliteral] at hdecodes

theorem Refused.runText (hwrites : numeral.Writes text.toList) (h : Refused (engine.numbers numeral))
    (hsteps : 2 ≤ engine.steps) (hconfig : options.config scopingValue = .ok config) :
    ∃ literal, FlatScope.runText engine text options scopingValue =
      .error (.halt (.raised ⟨.integerRange literal, none⟩)) := by
  obtain ⟨literal, hliteral, hrange⟩ := h
  refine ⟨literal, ?_⟩
  rw [(hliteral.decodesTo hwrites).runText_int hsteps hconfig, Setting.evalInt_of_range (by omega)]
  rfl

theorem HasLiteral.runText_of_between (hwrites : numeral.Writes text.toList) {n : Int}
    (h : HasLiteral (engine.numbers numeral) n) (hlow : -2 ^ 63 < n) (hhigh : n < 2 ^ 63 - 1)
    (hsteps : 2 ≤ engine.steps) (hconfig : options.config scopingValue = .ok config)
    (value : Value) :
    runText engine text options scopingValue = .ok value ↔
      ∃ word : Word, value = .int word ∧ word.val = n := by
  have hrun := (h.decodesTo hwrites).runText_int hsteps hconfig
  rw [Setting.evalInt_of_between ⟨n, by omega⟩ (by simp only; omega) (by simp only; omega)] at hrun
  rw [hrun]
  constructor
  · intro heq
    cases heq
    exact ⟨_, rfl, rfl⟩
  · rintro ⟨⟨val, hfits⟩, rfl, rfl⟩
    rfl

/-! ### Integer tokens -/

/-- What a reader may give for an integer token.  An integer of 64 bits, with or without a sign, is
exact, but a zero may keep its sign; any other integer is rounded from its digits to a number of the
format, or refused if it exceeds all of them. -/
inductive Classified (numeral : Numeral) : Option Number → Prop where
  | exact {n : Int} (hvalue : numeral.value = n) (hlow : -2 ^ 63 ≤ n) (hhigh : n ≤ 2 ^ 64 - 1) :
      Classified numeral (some (.exact n))
  | signedZero (hvalue : numeral.value = (0 : Int)) :
      Classified numeral (some (.real numeral.negative 0))
  | rounded {n : Int} {magnitude : Nat} (hvalue : numeral.value = n)
      (hout : n < -2 ^ 63 ∨ 2 ^ 64 - 1 < n)
      (hfaithful : Binary64.Faithful magnitude numeral.digits) :
      Classified numeral (some (.real numeral.negative magnitude))
  | exceeds (h : Binary64.Exceeds numeral.digits) : Classified numeral none

theorem magnitude_of_isPlain (h : numeral.isPlain = true) : numeral.magnitude = numeral.digits := by
  simp only [Numeral.isPlain, Bool.and_eq_true, List.isEmpty_iff, Option.isNone_iff_eq_none] at h
  rw [Numeral.magnitude, Numeral.scale, h.1, h.2]
  simp

theorem eq_signed_of_isPlain (hplain : numeral.isPlain = true) {n : Int} (hvalue : numeral.value = n) :
    n = signed numeral.negative numeral.digits := by
  rw [Numeral.value_eq_signed (magnitude_of_isPlain hplain)] at hvalue
  exact_mod_cast hvalue.symm

theorem nearestLiteral_large (negative : Bool) {whole : Nat} (h : 2 ^ 63 ≤ whole) :
    nearestLiteral (signed negative whole) ≤ -2 ^ 63 ∨
      2 ^ 63 - 1 ≤ nearestLiteral (signed negative whole) := by
  have hsigned := signed_eq negative whole
  unfold nearestLiteral minLiteral maxLiteral
  omega

theorem two_pow_fits {places : Nat} (h : places < 1024) :
    2 ^ places * Binary64.one < Binary64.overflow := by
  rw [Binary64.sizes.overflow_eq]
  generalize 1024 = bound at h ⊢
  exact Nat.mul_lt_mul_of_pos_right (Nat.pow_lt_pow_right (by decide) h)
    Binary64.pos_one

/-- A number of the format next to an integer that is too wide is itself too wide, so its literal is
refused. -/
theorem refused_of_faithful {negative : Bool} {magnitude n : Nat} (hlarge : 2 ^ 63 ≤ n)
    (hfaithful : Binary64.Faithful magnitude n) : Refused (some (.real negative magnitude)) := by
  obtain ⟨whole, rfl, hlarge⟩ := hfaithful.exists_whole (by decide) (two_pow_fits (by decide)) hlarge
  exact ⟨_, ⟨_, rfl, literal?_mul_one _ _⟩, nearestLiteral_large _ hlarge⟩

theorem lt_of_exceeds {n : Nat} (h : Binary64.Exceeds n) : 2 ^ 64 < n :=
  Nat.lt_of_mul_lt_mul_right (h _ (Binary64.representable_two_pow (two_pow_fits (by decide))))

theorem Classified.cases {read : Option Number} (hread : Classified numeral read)
    (hplain : numeral.isPlain = true) {n : Int} (hvalue : numeral.value = n) :
    (-2 ^ 63 ≤ n ∧ n ≤ 2 ^ 64 - 1 ∧ HasLiteral read n) ∨
    ((n < -2 ^ 63 ∨ 2 ^ 64 - 1 < n) ∧ Refused read) ∨
    ((n < -2 ^ 63 ∨ 2 ^ 64 - 1 < n) ∧ Binary64.Exceeds n.natAbs ∧ read = none) := by
  have hdigits : numeral.digits = n.natAbs := by
    have hsigned := signed_eq numeral.negative numeral.digits
    have hn := eq_signed_of_isPlain hplain hvalue
    omega
  cases hread with
  | exact hvalue' hlow hhigh =>
    obtain rfl : n = _ := by exact_mod_cast hvalue.symm.trans hvalue'
    exact .inl ⟨hlow, hhigh, _, rfl, rfl⟩
  | signedZero hvalue' =>
    obtain rfl : n = 0 := by exact_mod_cast hvalue.symm.trans hvalue'
    refine .inl ⟨by decide, by decide, _, rfl, ?_⟩
    have hliteral := literal?_mul_one numeral.negative 0
    rw [Nat.zero_mul] at hliteral
    rw [hliteral]
    cases numeral.negative <;> rfl
  | rounded hvalue' hout hfaithful =>
    obtain rfl : n = _ := by exact_mod_cast hvalue.symm.trans hvalue'
    exact .inr (.inl ⟨hout, refused_of_faithful (by omega) hfaithful⟩)
  | exceeds h =>
    rw [hdigits] at h
    have hlarge := lt_of_exceeds h
    exact .inr (.inr ⟨by omega, h, rfl⟩)

/-- Programs that are one integer token, of value `n`, with any reader that classifies the token as it
should and at least two steps.  The literal is `n` itself from `-2^63` to `2^64 - 1`, and the value is
`n` strictly between the least and the greatest word.  Every other token fails: over the range of its
literal, or as malformed if it is beyond the range of the format. -/
theorem integer_tokens_are_exact_or_refused (hsteps : 2 ≤ engine.steps)
    (hwrites : numeral.Writes text.toList) (hplain : numeral.isPlain = true) {n : Int}
    (hvalue : numeral.value = n) (hread : Classified numeral (engine.numbers numeral)) :
    (-2 ^ 63 ≤ n → n ≤ 2 ^ 64 - 1 → DecodesTo engine.numbers text (.int n)) ∧
    ∀ options scopingValue config, Options.config options scopingValue = .ok config →
      (∀ value, runText engine text options scopingValue = .ok value ↔
        ∃ word : Word, value = .int word ∧ word.val = n ∧ -2 ^ 63 < n ∧ n < 2 ^ 63 - 1) ∧
      (¬ (-2 ^ 63 < n ∧ n < 2 ^ 63 - 1) →
        (∃ literal, runText engine text options scopingValue =
          .error (.halt (.raised ⟨.integerRange literal, none⟩))) ∨
        (runText engine text options scopingValue = .error (.decode (.json .malformed)) ∧
          Binary64.Exceeds n.natAbs)) := by
  have hcases := hread.cases hplain hvalue
  refine ⟨fun hlow hhigh => ?_, fun options scopingValue config hconfig => ?_⟩
  · rcases hcases with ⟨-, -, hliteral⟩ | ⟨hout, -⟩ | ⟨hout, -⟩
    · exact hliteral.decodesTo hwrites
    · omega
    · omega
  have hrefused : ¬ (-2 ^ 63 < n ∧ n < 2 ^ 63 - 1) →
      (∃ literal, runText engine text options scopingValue =
        .error (.halt (.raised ⟨.integerRange literal, none⟩))) ∨
      (runText engine text options scopingValue = .error (.decode (.json .malformed)) ∧
        Binary64.Exceeds n.natAbs) := by
    intro hbetween
    rcases hcases with ⟨-, -, hliteral⟩ | ⟨-, hrefused⟩ | ⟨-, hlarge, hnone⟩
    · exact .inl (Refused.runText hwrites ⟨n, hliteral, by omega⟩ hsteps hconfig)
    · exact .inl (hrefused.runText hwrites hsteps hconfig)
    · exact .inr ⟨runText_of_none hwrites hnone hconfig, hlarge⟩
  refine ⟨fun value => ?_, hrefused⟩
  by_cases hbetween : -2 ^ 63 < n ∧ n < 2 ^ 63 - 1
  · rcases hcases with ⟨-, -, hliteral⟩ | ⟨hout, -⟩ | ⟨hout, -⟩
    · rw [hliteral.runText_of_between hwrites hbetween.1 hbetween.2 hsteps hconfig value]
      simp only [hbetween, and_self, and_true]
    · omega
    · omega
  · have herror : runText engine text options scopingValue ≠ .ok value := by
      rcases hrefused hbetween with ⟨literal, hrun⟩ | ⟨hrun, -⟩ <;> rw [hrun] <;> simp
    exact iff_of_false herror fun ⟨_, _, _, hlow, hhigh⟩ => hbetween ⟨hlow, hhigh⟩

/-- The reader of the command line classifies every integer token whose digits fit in 64 bits. -/
theorem classified_number? (hdigits : numeral.AllDigits) (hplain : numeral.isPlain = true)
    (hle : numeral.digits ≤ maxSignificand) : Classified numeral numeral.number? := by
  have hvalue := Numeral.value_eq_signed (magnitude_of_isPlain hplain)
  rw [Numeral.number?_eq hdigits, if_pos ⟨hplain, hle⟩, Numeral.plainNumber?]
  obtain ⟨magnitude, hmagnitude, -⟩ := Binary64.exists_significand hle
  unfold maxSignificand at hle
  cases hnegative : numeral.negative with
  | false =>
    rw [hnegative] at hvalue
    rw [if_neg Bool.false_ne_true]
    exact .exact hvalue (by omega) (by omega)
  | true =>
    rw [hnegative, signed, if_pos rfl] at hvalue
    rw [if_pos rfl]
    split
    case isTrue hzero =>
      rw [hmagnitude, Option.map_some, ← hnegative]
      rcases hzero with hzero | hwide
      · have hstart : Binary64.ofNat 0 = some 0 := Binary64.nearest_zero Nat.one_pos
        rw [hzero, hstart] at hmagnitude
        cases hmagnitude
        refine .signedZero ?_
        rw [hvalue, hzero]
        rfl
      · refine .rounded hvalue (.inl ?_) (Binary64.faithful_ofNat hmagnitude)
        omega
    case isFalse hexact =>
      exact .exact hvalue (by omega) (by omega)

/-- The integer below the least word is rounded to the least word, whose literal is refused like that
of the integer itself. -/
theorem integer_tokens_are_exact_or_refused_belowLeast :
    (∃ literal, runText .standard "-9223372036854775809" .default none =
        .error (.halt (.raised ⟨.integerRange literal, none⟩))) ∧
      ∀ value, runText .standard "-9223372036854775809" .default none ≠ .ok value := by
  let numeral : Numeral := ⟨true, "9223372036854775809".toList, [], none⟩
  have hwhole : IsWhole "9223372036854775809".toList ∧ numeral.digits = 9223372036854775809 := by
    decide +kernel
  have hwrites : numeral.Writes "-9223372036854775809".toList := by
    have hsigned := Numeral.Writes.negative hwhole.1 .absent .absent
    rwa [List.append_nil, List.append_nil] at hsigned
  have hvalue : numeral.value = (-9223372036854775809 : Int) := by
    rw [Numeral.value_eq_signed (magnitude_of_isPlain rfl), hwhole.2]
    rfl
  have hread : Classified numeral (Engine.standard.numbers numeral) := by
    rw [Engine.numbers_standard]
    exact classified_number? hwrites.allDigits rfl (by rw [hwhole.2]; decide)
  have hall := integer_tokens_are_exact_or_refused (by decide) hwrites rfl hvalue hread
  obtain ⟨hvalues, hrefused⟩ := hall.2 .default none _ rfl
  refine ⟨?_, fun value hrun => ?_⟩
  · rcases hrefused (by decide) with hraised | ⟨-, hexceeds⟩
    · exact hraised
    · exact absurd (lt_of_exceeds hexceeds) (by decide)
  · obtain ⟨word, -, -, hlow, -⟩ := (hvalues value).1 hrun
    exact absurd hlow (by decide)

/-! ### Tokens with a fraction or an exponent -/

/-- An integer is an exact number up to rounding. -/
def Near (n : Int) (exact : ℚ) : Prop :=
  (n = 0 ∧ |exact| ≤ 1 / 2 ^ 1074) ∨ |n - exact| ≤ |exact| / 2 ^ 51

theorem two_mul_halfStep : 2 * Binary64.halfStep = 1 / 2 ^ 1074 := by
  obtain ⟨places, hplaces, hone⟩ := Binary64.exists_places
  rw [Binary64.halfStep, hone, ← hplaces]
  push_cast
  field_simp

theorem abs_value (numeral : Numeral) : |numeral.value| = numeral.magnitude := by
  have hnonneg := numeral.magnitude_nonneg
  unfold Numeral.value
  split
  · rw [abs_neg, abs_of_nonneg hnonneg]
  · exact abs_of_nonneg hnonneg

theorem abs_signed_sub_value (numeral : Numeral) (n : Nat) :
    |(signed numeral.negative n : ℚ) - numeral.value| = |n - numeral.magnitude| := by
  unfold signed Numeral.value
  split
  · push_cast
    rw [← abs_neg]
    congr 1
    ring
  · rfl

theorem near_of_roundsTo {n : Nat} (h : numeral.RoundsTo (n * Binary64.one)) :
    Near (signed numeral.negative n) numeral.value := by
  rw [Near, abs_signed_sub_value, abs_value]
  rcases Nat.eq_zero_or_pos n with rfl | hpos
  · refine .inl ⟨?_, ?_⟩
    · have := signed_eq numeral.negative 0
      omega
    · rw [← two_mul_halfStep]
      exact h.zero (Nat.zero_mul _)
  · have hone : (1 : ℚ) ≤ n := by exact_mod_cast hpos
    have hwithin := h.above (by rwa [Binary64.value_mul_one])
    rw [Binary64.value_mul_one] at hwithin
    right
    calc |(n : ℚ) - numeral.magnitude| ≤ 1 / 2 ^ 51 * numeral.magnitude :=
          Binary64.Within.iff_abs.1 hwithin
      _ = numeral.magnitude / 2 ^ 51 := one_div_mul_eq_div _ _

theorem number?_of_not_isPlain (hdigits : numeral.AllDigits) (hplain : numeral.isPlain = false) :
    numeral.number? = (Binary64.ofDecimal numeral.decimal.1 numeral.decimal.2).map
      (Number.real numeral.negative) := by
  rw [Numeral.number?_eq hdigits, if_neg]
  rw [hplain]
  exact fun hboth => Bool.false_ne_true hboth.1

/-- What is read is a number that is not whole. -/
def IsBroken (read : Option Number) : Prop :=
  ∃ number, read = some number ∧ number.literal? = none

theorem decimal_cases (hdigits : numeral.AllDigits) (hplain : numeral.isPlain = false) :
    numeral.number? = none ∨ IsBroken numeral.number? ∨
      ∃ n, HasLiteral numeral.number? (nearestLiteral n) ∧ Near n numeral.value := by
  have hnumber := number?_of_not_isPlain hdigits hplain
  cases hresult : Binary64.ofDecimal numeral.decimal.1 numeral.decimal.2 with
  | none =>
    rw [hresult] at hnumber
    exact .inl hnumber
  | some magnitude =>
    have hrounds := Numeral.roundsTo_of_some hdigits hresult
    rw [hresult] at hnumber
    by_cases hdvd : Binary64.one ∣ magnitude
    · obtain ⟨n, rfl⟩ := hdvd
      rw [Nat.mul_comm] at hnumber hrounds
      exact .inr (.inr ⟨_, ⟨_, hnumber, literal?_mul_one _ n⟩, near_of_roundsTo hrounds⟩)
    · exact .inr (.inl ⟨_, hnumber, literal?_of_not_dvd _ hdvd⟩)

theorem IsBroken.decodesTo (hwrites : numeral.Writes text.toList)
    (h : IsBroken (numbers numeral)) : DecodesTo numbers text (.unknown "number") := by
  obtain ⟨number, hnumber, hliteral⟩ := h
  have hdecodes := decodesTo_of_some hwrites hnumber
  rwa [exprOf, hliteral] at hdecodes

/-! ### Tokens of 53 binary places -/

theorem number?_of_small (hdigits : numeral.AllDigits) (hplain : numeral.isPlain = false)
    (hsmall : numeral.digits < 2 ^ 53) :
    numeral.number? = (Binary64.ofDecimal numeral.digits numeral.scale).map
      (Number.real numeral.negative) := by
  have hle : numeral.digits ≤ maxSignificand := by
    unfold maxSignificand
    omega
  rw [number?_of_not_isPlain hdigits hplain, Numeral.decimal_of_le hle]

theorem hasLiteral_of_integer (hdigits : numeral.AllDigits) (hplain : numeral.isPlain = false)
    (hsmall : numeral.digits < 2 ^ 53) {n : Int} (hvalue : numeral.value = n)
    (hbound : |n| < 2 ^ 53) : HasLiteral numeral.number? n := by
  obtain ⟨hlow, hhigh⟩ := abs_lt.1 hbound
  have hmagnitude : numeral.magnitude = n.natAbs := by
    rw [← abs_value, hvalue, Nat.cast_natAbs, Int.cast_abs]
  have hsigned : signed numeral.negative n.natAbs = n := by
    rw [Numeral.value_eq_signed hmagnitude] at hvalue
    exact_mod_cast hvalue
  have hresult := Binary64.ofDecimal_of_eq hsmall (by omega : n.natAbs < 2 ^ 53) hmagnitude
  have hnumber := number?_of_small hdigits hplain hsmall
  rw [hresult] at hnumber
  refine ⟨_, hnumber, ?_⟩
  rw [literal?_mul_one, hsigned, nearestLiteral_of_between]
  · unfold minLiteral
    omega
  · unfold maxLiteral
    omega

theorem isBroken_of_not_integer (hdigits : numeral.AllDigits) (hplain : numeral.isPlain = false)
    (hsmall : numeral.digits < 2 ^ 53) (hvalue : ∀ n : Int, numeral.value ≠ n)
    (hlarge : 1 / 2 ^ 1074 < |numeral.value|) : IsBroken numeral.number? := by
  have hne : ∀ n : Nat, numeral.magnitude ≠ n :=
    fun n heq => hvalue _ (Numeral.value_eq_signed heq)
  rw [abs_value, ← two_mul_halfStep] at hlarge
  obtain ⟨magnitude, hresult, hdvd⟩ := Binary64.ofDecimal_of_ne hsmall hne hlarge
  have hnumber := number?_of_small hdigits hplain hsmall
  rw [hresult] at hnumber
  exact ⟨_, hnumber, literal?_of_not_dvd _ hdvd⟩

/-! ### Programs that are one decimal token -/

/-- A program that is one token with a fraction or an exponent has a value only if the token is read
as a literal strictly inside the literals, which was not cut off. -/
theorem near_of_runText (hsteps : 2 ≤ engine.steps) (hwrites : numeral.Writes text.toList)
    (hplain : numeral.isPlain = false) (hread : engine.numbers numeral = numeral.number?)
    {value : Value} (hrun : runText engine text options scopingValue = .ok value) :
    ∃ word : Word, value = .int word ∧ Near word.val numeral.value := by
  obtain ⟨config, hconfig⟩ : ∃ config, options.config scopingValue = .ok config := by
    cases hconfig : options.config scopingValue with
    | error error =>
      simp only [runText, hconfig] at hrun
      cases hrun
    | ok config => exact ⟨config, rfl⟩
  have hcases := decimal_cases hwrites.allDigits hplain
  rw [← hread] at hcases
  rcases hcases with hnone | hbroken | ⟨n, hliteral, hnear⟩
  · rw [runText_of_none hwrites hnone hconfig] at hrun
    cases hrun
  · rw [(hbroken.decodesTo hwrites).runText_number hsteps hconfig] at hrun
    cases hrun
  · by_cases hbetween : -2 ^ 63 < nearestLiteral n ∧ nearestLiteral n < 2 ^ 63 - 1
    · have heq : nearestLiteral n = n := by
        refine eq_of_nearestLiteral ?_ ?_
        · unfold minLiteral
          omega
        · unfold maxLiteral
          omega
      rw [heq] at hliteral hbetween
      obtain ⟨word, hvalue, hword⟩ :=
        (hliteral.runText_of_between hwrites hbetween.1 hbetween.2 hsteps hconfig value).1 hrun
      exact ⟨word, hvalue, hword ▸ hnear⟩
    · obtain ⟨literal, herror⟩ :=
        Refused.runText hwrites ⟨_, hliteral, by omega⟩ hsteps hconfig
      rw [herror] at hrun
      cases hrun

/-- Programs that are one token with a fraction or an exponent, with any reader that drops digits and
rounds the token like `Numeral.number?` and at least two steps.  If the token is no error and no
unknown form, it is the literal of an integer that is its exact number up to rounding, and so is the
value of the program.  Where all digits together have 53 binary places, an exact number that is no
integer gives an unknown form, and an integer of 53 binary places gives itself. -/
theorem decimal_tokens_change_by_rounding (hsteps : 2 ≤ engine.steps)
    (hwrites : numeral.Writes text.toList) (hplain : numeral.isPlain = false)
    (hread : engine.numbers numeral = numeral.number?) :
    ((∀ names, ofText engine.numbers text names = (.error (.json .malformed), names)) ∨
      DecodesTo engine.numbers text (.unknown "number") ∨
      ∃ n, DecodesTo engine.numbers text (.int (nearestLiteral n)) ∧ Near n numeral.value) ∧
    (∀ options scopingValue value, runText engine text options scopingValue = .ok value →
      ∃ word : Word, value = .int word ∧ Near word.val numeral.value) ∧
    (numeral.digits < 2 ^ 53 →
      ((∀ n : Int, numeral.value ≠ n) → 1 / 2 ^ 1074 < |numeral.value| →
        DecodesTo engine.numbers text (.unknown "number")) ∧
      ∀ n : Int, numeral.value = n → |n| < 2 ^ 53 → DecodesTo engine.numbers text (.int n) ∧
        ∀ options scopingValue config, Options.config options scopingValue = .ok config →
          ∃ word : Word, runText engine text options scopingValue = .ok (.int word) ∧
            word.val = n) := by
  have hdigits := hwrites.allDigits
  refine ⟨?_, fun options scopingValue value => near_of_runText hsteps hwrites hplain hread, ?_⟩
  · have hcases := decimal_cases hdigits hplain
    rw [← hread] at hcases
    rcases hcases with hnone | hbroken | ⟨n, hliteral, hnear⟩
    · exact .inl (ofText_of_none hwrites hnone)
    · exact .inr (.inl (hbroken.decodesTo hwrites))
    · exact .inr (.inr ⟨n, hliteral.decodesTo hwrites, hnear⟩)
  · intro hsmall
    refine ⟨fun hvalue hlarge => ?_, fun n hvalue hbound => ?_⟩
    · have hbroken := isBroken_of_not_integer hdigits hplain hsmall hvalue hlarge
      rw [← hread] at hbroken
      exact hbroken.decodesTo hwrites
    · have hliteral := hasLiteral_of_integer hdigits hplain hsmall hvalue hbound
      rw [← hread] at hliteral
      obtain ⟨hlow, hhigh⟩ := abs_lt.1 hbound
      refine ⟨hliteral.decodesTo hwrites, fun options scopingValue config hconfig => ?_⟩
      refine ⟨⟨n, by omega⟩, ?_, rfl⟩
      have hruns := hliteral.runText_of_between hwrites (by omega) (by omega) hsteps hconfig
      exact (hruns _).2 ⟨_, rfl, rfl⟩

/-- The token `1e3` stands for its exact number. -/
theorem decimal_tokens_change_by_rounding_thousand :
    DecodesTo Engine.standard.numbers "1e3" (.int 1000) ∧
      ∃ word : Word, runText .standard "1e3" .default none = .ok (.int word) ∧ word.val = 1000 := by
  have hwhole : IsWhole ['1'] := by decide
  have hpower : IsDigits ['3'] := by decide
  have hwrites : Numeral.Writes "1e3".toList ⟨false, ['1'], [], some 3⟩ :=
    .positive hwhole .absent (.lower (.bare hpower))
  have hdigits : Numeral.digits ⟨false, ['1'], [], some 3⟩ = 1 := by decide
  have hvalue : Numeral.value ⟨false, ['1'], [], some 3⟩ = (1000 : Int) := by
    rw [Numeral.value, Numeral.magnitude, hdigits]
    norm_num [Numeral.scale]
  have hall := decimal_tokens_change_by_rounding (show 2 ≤ Engine.standard.steps by decide) hwrites
    rfl (congrFun Engine.numbers_standard _)
  obtain ⟨hdecodes, hrun⟩ := (hall.2.2 (by rw [hdigits]; decide)).2 1000 hvalue (by decide)
  exact ⟨hdecodes, hrun .default none _ rfl⟩

/-- A token that writes no integer can be rounded to one. -/
theorem fraction_token_is_rounded_to_integer :
    ∃ numeral : Numeral, numeral.Writes "9007199254740993.5".toList ∧ numeral.isPlain = false ∧
      (∀ n : Int, numeral.value ≠ n) ∧
      runText .standard "9007199254740993.5" .default none =
        .ok (.int ⟨9007199254740994, by decide⟩) := by
  have hparts : IsWhole "9007199254740993".toList ∧ IsDigits ['5'] ∧
      Numeral.digits ⟨false, "9007199254740993".toList, ['5'], none⟩ = 90071992547409935 ∧
      runText .standard "9007199254740993.5" .default none =
        .ok (.int ⟨9007199254740994, by decide⟩) := by
    decide +kernel
  obtain ⟨hwhole, hfraction, hdigits, hrun⟩ := hparts
  have hwrites : Numeral.Writes "9007199254740993.5".toList
      ⟨false, "9007199254740993".toList, ['5'], none⟩ :=
    .positive hwhole (.present hfraction) .absent
  refine ⟨_, hwrites, rfl, fun n hvalue => ?_, hrun⟩
  rw [Numeral.value, Numeral.magnitude, hdigits] at hvalue
  norm_num [Numeral.scale] at hvalue
  have hint : (90071992547409935 : Int) = n * 10 := by
    have : (90071992547409935 : ℚ) = n * 10 := by linarith
    exact_mod_cast this
  omega

end Program

end FlatScope
