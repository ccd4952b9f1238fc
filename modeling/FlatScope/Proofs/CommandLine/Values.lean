import FlatScope.CommandLine.Options
import Mathlib.Data.List.TakeDrop
import Mathlib.Data.List.TakeWhile

/-!
# The values of options

`DepthValue` and `DefineValue` are the grammars of the values that `--max-depth` and `--define` take.
The readers accept what the grammars admit and nothing else (`parseDepth_eq_ok_iff`,
`parseDefine_eq_ok_iff`), and the grammars admit what is written for a limit and for a definition.
-/

namespace FlatScope

/-! ### Numerals -/

namespace Text

def Digits (cs : List Char) : Prop := cs ≠ [] ∧ ∀ c ∈ cs, isDigit c = true

/-- The numerals of a natural number. -/
inductive Unsigned : List Char → Nat → Prop where
  | bare {digits : List Char} (h : Digits digits) : Unsigned digits (digitsValue digits)
  | plus {digits : List Char} (h : Digits digits) : Unsigned ('+' :: digits) (digitsValue digits)

/-- The numerals of an integer. -/
inductive Signed : List Char → Int → Prop where
  | unsigned {cs : List Char} {n : Nat} (h : Unsigned cs n) : Signed cs n
  | minus {digits : List Char} (h : Digits digits) : Signed ('-' :: digits) (-digitsValue digits)

theorem Digits.head_ne {c : Char} {rest : List Char} (h : Digits (c :: rest)) {sign : Char}
    (hsign : isDigit sign = false) : c ≠ sign := by
  rintro rfl
  rw [h.2 c List.mem_cons_self] at hsign
  cases hsign

theorem natural?_eq_some_iff {cs : List Char} {n : Nat} :
    natural? cs = some n ↔ Digits cs ∧ digitsValue cs = n := by
  unfold natural? Digits
  by_cases h : cs ≠ [] ∧ cs.all isDigit = true
  · rw [if_pos h, Option.some.injEq]
    rw [List.all_eq_true] at h
    exact ⟨fun hn => ⟨h, hn⟩, And.right⟩
  · rw [if_neg h]
    rw [List.all_eq_true] at h
    exact ⟨nofun, fun hn => absurd hn.1 h⟩

theorem unsigned?_eq_some_iff {text : String} {n : Nat} :
    unsigned? text = some n ↔ Unsigned text.toList n := by
  unfold unsigned?
  split
  · rename_i cs hcs
    rw [hcs, natural?_eq_some_iff]
    constructor
    · rintro ⟨hdigits, rfl⟩
      exact .plus hdigits
    · intro h
      cases h with
      | bare h => exact absurd rfl (h.head_ne (by decide))
      | plus h => exact ⟨h, rfl⟩
  · rename_i hplus
    rw [natural?_eq_some_iff]
    generalize text.toList = cs at hplus
    constructor
    · rintro ⟨hdigits, rfl⟩
      exact .bare hdigits
    · intro h
      cases h with
      | bare h => exact ⟨h, rfl⟩
      | plus h => exact absurd rfl (hplus _)

theorem signed?_eq_some_iff {text : String} {n : Int} :
    signed? text = some n ↔ Signed text.toList n := by
  unfold signed?
  split
  · rename_i cs hcs
    rw [hcs, Option.map_eq_some_iff]
    constructor
    · rintro ⟨value, hvalue, rfl⟩
      obtain ⟨hdigits, rfl⟩ := natural?_eq_some_iff.1 hvalue
      exact .unsigned (.plus hdigits)
    · rintro (⟨h | h⟩ | h)
      · exact absurd rfl (h.head_ne (by decide))
      · exact ⟨_, natural?_eq_some_iff.2 ⟨h, rfl⟩, rfl⟩
  · rename_i cs hcs
    rw [hcs, Option.map_eq_some_iff]
    constructor
    · rintro ⟨value, hvalue, rfl⟩
      obtain ⟨hdigits, rfl⟩ := natural?_eq_some_iff.1 hvalue
      exact .minus hdigits
    · rintro (⟨h | h⟩ | h)
      · exact absurd rfl (h.head_ne (by decide))
      · exact ⟨_, natural?_eq_some_iff.2 ⟨h, rfl⟩, rfl⟩
  · rename_i hplus hminus
    rw [Option.map_eq_some_iff]
    generalize text.toList = cs at hplus hminus
    constructor
    · rintro ⟨value, hvalue, rfl⟩
      obtain ⟨hdigits, rfl⟩ := natural?_eq_some_iff.1 hvalue
      exact .unsigned (.bare hdigits)
    · rintro (⟨h | h⟩ | h)
      · exact ⟨_, natural?_eq_some_iff.2 ⟨h, rfl⟩, rfl⟩
      · exact absurd rfl (hplus _)
      · exact absurd rfl (hminus _)

/-- The decimal digits of a number write that number. -/
theorem digits_toDigits (n : Nat) :
    Digits (Nat.toDigits 10 n) ∧ digitsValue (Nat.toDigits 10 n) = n := by
  refine ⟨⟨Nat.toDigits_ne_nil, fun c hc => ?_⟩, Nat.ofDigitChars_toDigits (by decide) (by decide)⟩
  have hdigit : c.isDigit = true := Nat.isDigit_of_mem_toDigits (by decide) (by decide) hc
  simp only [Char.isDigit, Bool.and_eq_true, decide_eq_true_eq] at hdigit
  simp only [isDigit, Bool.and_eq_true, decide_eq_true_eq]
  exact hdigit

theorem unsigned_toString (n : Nat) : Unsigned (toString n).toList n := by
  obtain ⟨hdigits, hvalue⟩ := digits_toDigits n
  have hunsigned := Unsigned.bare hdigits
  rw [hvalue] at hunsigned
  simpa [toString, Nat.repr] using hunsigned

theorem signed_toString (n : Int) : Signed (toString n).toList n := by
  cases n with
  | ofNat n => exact .unsigned (unsigned_toString n)
  | negSucc n =>
    obtain ⟨hdigits, hvalue⟩ := digits_toDigits (n + 1)
    have hsigned := Signed.minus hdigits
    rw [hvalue] at hsigned
    simpa [toString, Int.repr, Nat.repr, Int.negSucc_eq] using hsigned

/-! ### Blanks around numerals -/

theorem not_isBlank_of_isDigit {c : Char} (h : isDigit c = true) : isBlank c = false := by
  simp only [isDigit, Bool.and_eq_true, decide_eq_true_eq] at h
  have hlow : 48 ≤ c.toNat := h.1
  have hhigh : c.toNat ≤ 57 := h.2
  simp [isBlank, blankRanges]
  omega

theorem Signed.not_isBlank {cs : List Char} {n : Int} (h : Signed cs n) :
    ∀ c ∈ cs, isBlank c = false := by
  have hsign {sign : Char} {digits : List Char} (hblank : isBlank sign = false)
      (hdigits : Digits digits) : ∀ c ∈ sign :: digits, isBlank c = false := by
    rintro c (_ | ⟨_, hc⟩)
    · exact hblank
    · exact not_isBlank_of_isDigit (hdigits.2 c hc)
  rcases h with ⟨hdigits | hdigits⟩ | hdigits
  · exact fun c hc => not_isBlank_of_isDigit (hdigits.2 c hc)
  · exact hsign (by decide) hdigits
  · exact hsign (by decide) hdigits

theorem trim_of_not_isBlank {text : String} (h : ∀ c ∈ text.toList, isBlank c = false) :
    trim text = text := by
  refine trim_of_isTrimmed ⟨fun c hc => ?_, fun c hc => ?_⟩
  · simp [h c (List.mem_of_mem_head? hc)]
  · simp [h c (List.mem_of_mem_getLast? hc)]

end Text

namespace Options

/-! ### Limits -/

/-- The values of `--max-depth`, each with what it chooses. -/
inductive DepthValue : String → DepthChoice → Prop where
  | unlimited {value : String} (h : Text.Unsigned value.toList 0) : DepthValue value .unlimited
  | limit {value : String} {depth : Nat} (h : Text.Unsigned value.toList depth) (hpos : 0 < depth)
      (hmax : depth ≤ maxDepth) : DepthValue value (.limit depth)

theorem parseDepth_eq_ok_iff {value : String} {choice : DepthChoice} :
    parseDepth value = .ok choice ↔ DepthValue value choice := by
  unfold parseDepth
  constructor
  · split
    · rename_i depth hdepth
      have hunsigned := Text.unsigned?_eq_some_iff.1 hdepth
      split
      · rename_i hmax
        intro h
        cases h
        by_cases hzero : depth = 0
        · subst hzero
          exact .unlimited hunsigned
        · rw [if_neg hzero]
          exact .limit hunsigned (Nat.pos_of_ne_zero hzero) hmax
      · exact nofun
    · exact nofun
  · intro h
    cases h with
    | unlimited h =>
      rw [Text.unsigned?_eq_some_iff.2 h]
      rfl
    | limit h hpos hmax =>
      rw [Text.unsigned?_eq_some_iff.2 h]
      simp only [if_pos hmax, if_neg (Nat.ne_of_gt hpos)]

theorem parseDepth_of_invalid {value : String} (h : ∀ choice, ¬ DepthValue value choice) :
    parseDepth value = .error (.invalidDepth value) := by
  cases hparse : parseDepth value with
  | ok choice => exact absurd (parseDepth_eq_ok_iff.1 hparse) (h choice)
  | error error =>
    unfold parseDepth at hparse
    split at hparse
    · split at hparse <;> cases hparse
      rfl
    · cases hparse
      rfl

/-! ### Definitions -/

/-- The values of `--define`, each with the name and the integer that it gives. -/
inductive DefineValue : String → String × Word → Prop where
  | intro {first second : String} {word : Word} (hfirst : '=' ∉ first.toList)
      (hname : Text.trim first ≠ "") (hword : Text.Signed (Text.trim second).toList word.val) :
      DefineValue (first ++ "=" ++ second) (Text.trim first, word)

theorem splitAtEquals_eq_some_iff {cs first second : List Char} :
    splitAtEquals cs = some (first, second) ↔ cs = first ++ '=' :: second ∧ '=' ∉ first := by
  unfold splitAtEquals
  rw [List.span_eq_takeWhile_dropWhile]
  constructor
  · have hcs := List.takeWhile_append_dropWhile (p := fun c => decide (c ≠ '=')) (l := cs)
    have hhead := List.head?_dropWhile_not (fun c => decide (c ≠ '=')) cs
    split
    · rename_i before sign after heq
      obtain ⟨hbefore, hafter⟩ := Prod.mk.inj heq
      intro h
      cases h
      rw [hbefore, hafter] at hcs
      rw [hafter] at hhead
      obtain rfl : sign = '=' := by simpa using hhead
      refine ⟨hcs.symm, fun hmem => ?_⟩
      rw [← hbefore] at hmem
      simpa using List.mem_takeWhile_imp hmem
    · exact nofun
  · rintro ⟨rfl, hfirst⟩
    have hall : ∀ c ∈ first, decide (c ≠ '=') = true := by
      intro c hc
      simpa using fun heq : c = '=' => hfirst (heq ▸ hc)
    rw [List.takeWhile_append_of_pos hall, List.dropWhile_append_of_pos hall]
    simp

theorem parseDefine_eq_ok_iff {value : String} {entry : String × Word} :
    parseDefine value = .ok entry ↔ DefineValue value entry := by
  unfold parseDefine
  constructor
  · intro h
    split at h
    · cases h
    · rename_i first second hsplit
      obtain ⟨hvalue, hfirst⟩ := splitAtEquals_eq_some_iff.1 hsplit
      have htext : value = String.ofList first ++ "=" ++ String.ofList second := by
        rw [← String.toList_inj, hvalue]
        simp
      simp only at h
      split at h
      · cases h
      · rename_i hname
        split at h
        · rename_i word hword
          cases h
          obtain ⟨n, hn, hfits⟩ := Option.bind_eq_some_iff.1 hword
          have hsigned := Text.signed?_eq_some_iff.1 hn
          rw [← Word.ofInt?_eq_some_iff.1 hfits] at hsigned
          rw [htext]
          exact .intro (by simpa using hfirst) hname hsigned
        · cases h
  · intro h
    cases h with
    | @intro first second word hfirst hname hword =>
      have hsplit : splitAtEquals (first ++ "=" ++ second).toList =
          some (first.toList, second.toList) :=
        splitAtEquals_eq_some_iff.2 ⟨by simp, hfirst⟩
      have hfits : (Text.signed? (Text.trim second)).bind Word.ofInt? = some word := by
        rw [Text.signed?_eq_some_iff.2 hword, Option.bind_some, Word.ofInt?_eq_some_iff]
      simp only [hsplit, String.ofList_toList, if_neg hname, hfits]

theorem parseDefine_of_invalid {value : String} (h : ∀ entry, ¬ DefineValue value entry) :
    parseDefine value = .error (.invalidDefine value) := by
  cases hparse : parseDefine value with
  | ok entry => exact absurd (parseDefine_eq_ok_iff.1 hparse) (h entry)
  | error error =>
    unfold parseDefine at hparse
    split at hparse
    · cases hparse
      rfl
    · simp only at hparse
      split at hparse
      · cases hparse
        rfl
      · split at hparse <;> cases hparse
        rfl

/-- The value of `--define` for a name and an integer. -/
def definition (entry : String × Word) : String := entry.1 ++ "=" ++ entry.2.decimal

theorem defineValue_definition {entry : String × Word} (hne : entry.1 ≠ "")
    (htrimmed : Text.IsTrimmed entry.1) (hequals : '=' ∉ entry.1.toList) :
    DefineValue (definition entry) entry := by
  obtain ⟨name, word⟩ := entry
  have hname : Text.trim name = name := Text.trim_of_isTrimmed htrimmed
  have hsigned := Text.signed_toString word.val
  have hnumeral : Text.trim word.decimal = word.decimal :=
    Text.trim_of_not_isBlank hsigned.not_isBlank
  have hvalue : DefineValue (name ++ "=" ++ word.decimal) (Text.trim name, word) :=
    .intro hequals (by rwa [hname]) (by rwa [hnumeral])
  rwa [hname] at hvalue

end Options

end FlatScope
