import FlatScope.Proofs.Decoding.ReadBack
import FlatScope.Proofs.Names.Capacity
import Mathlib.Data.Finset.Card

/-!
# Names over whole histories

An interner is asked for the names of texts any number of times, in either of the two ways.  While
there is room it answers as a table does that takes one text after another (`answers_eq`), so its map
and its texts never get out of step.  What it answers and what it holds in the end is said by the
texts alone.
-/

namespace FlatScope

/-! ### Histories -/

namespace Interner

/-- A call that asks for the name of a text. -/
inductive Call where
  | intern (text : String)
  | tryIntern (text : String)

def Call.text : Call → String
  | .intern text | .tryIntern text => text

inductive Reply where
  | name (name : Name)
  /-- The caller is told that there is no index left. -/
  | refused (full : Full)
  /-- The caller does not go on. -/
  | halted (full : Full)

def Call.reply : Call → Except Full Name → Reply
  | _, .ok name => .name name
  | .tryIntern _, .error full => .refused full
  | .intern _, .error full => .halted full

/-- The reply to a call, and the interner after it. -/
def answer (interner : Interner) (call : Call) : Reply × Interner :=
  let (result, after) := interner.tryIntern call.text
  (call.reply result, after)

/-- The replies to calls one after another, and the interner after them. -/
def answers (interner : Interner) : List Call → List Reply × Interner
  | [] => ([], interner)
  | call :: rest =>
    let (first, interner) := interner.answer call
    let (others, interner) := interner.answers rest
    (first :: others, interner)

/-- The answers to `tryIntern` for texts one after another, and the interner after them. -/
def tryInternAll (interner : Interner) : List String → List (Except Full Name) × Interner
  | [] => ([], interner)
  | text :: rest =>
    let (first, interner) := interner.tryIntern text
    let (others, interner) := interner.tryInternAll rest
    (first :: others, interner)

end Interner

/-! ### Names of several texts -/

namespace NameTable

variable {table : NameTable} {texts : List String}

theorem keptBy_withTexts (table : NameTable) (texts : List String) :
    table.KeptBy (table.withTexts texts) :=
  table.keptBy_internAll texts

theorem length_internAll (table : NameTable) (texts : List String) :
    (table.internAll texts).1.length = texts.length := by
  induction texts generalizing table with
  | nil => rfl
  | cons text rest ih => exact congrArg (· + 1) (ih (table.intern text).2)

/-- A name has its text from the moment at which it is given. -/
theorem text?_withTexts_take {i moment : Nat} {text : String} {name : Name} (hi : i < moment)
    (htext : texts[i]? = some text) (hname : (table.internAll texts).1[i]? = some name) :
    (table.withTexts (texts.take moment)).text? name = some text := by
  induction texts generalizing table i moment with
  | nil => cases htext
  | cons first rest ih =>
    obtain ⟨moment, rfl⟩ : ∃ before, moment = before + 1 :=
      ⟨moment - 1, by omega⟩
    rw [List.take_succ_cons, withTexts_cons]
    cases i with
    | zero =>
      cases htext
      cases hname
      exact keptBy_withTexts _ _ _ _ (table.text?_intern text)
    | succ i => exact ih (Nat.lt_of_succ_lt_succ hi) htext hname

/-- Two names are the same exactly when their texts are. -/
theorem internAll_eq_iff {i j : Nat} {first second : String} (hfirst : texts[i]? = some first)
    (hsecond : texts[j]? = some second) :
    (table.internAll texts).1[i]? = (table.internAll texts).1[j]? ↔ first = second := by
  have hname {k : Nat} {text : String} (htext : texts[k]? = some text) :
      ∃ name, (table.internAll texts).1[k]? = some name ∧
        (table.withTexts texts).find? text = some name := by
    have hk := (List.getElem?_eq_some_iff.1 htext).1
    rw [← length_internAll table texts] at hk
    have hfound := List.getElem?_eq_getElem hk
    rw [length_internAll] at hk
    have hread := text?_withTexts_take hk htext hfound
    rw [List.take_length] at hread
    exact ⟨_, hfound, find?_eq_some_iff.2 hread⟩
  obtain ⟨left, hleft, hleft'⟩ := hname hfirst
  obtain ⟨right, hright, hright'⟩ := hname hsecond
  rw [hleft, hright, Option.some.injEq]
  constructor
  · rintro rfl
    rw [find?_eq_some_iff] at hleft' hright'
    exact Option.some.inj (hleft'.symm.trans hright')
  · rintro rfl
    exact Option.some.inj (hleft'.symm.trans hright')

/-- All texts of a table, each once, in the order in which they were first named. -/
theorem texts_withTexts_eq_eraseDups (table : NameTable) (texts : List String) :
    (table.withTexts texts).texts = (table.texts ++ texts).eraseDups := by
  rw [texts_withTexts, List.eraseDups_append, eraseDups_eq_self table.nodup, fresh]
  simp [List.removeAll]

theorem size_withTexts (table : NameTable) (texts : List String) :
    (table.withTexts texts).size = (table.texts ++ texts).toFinset.card := by
  show (table.withTexts texts).texts.length = _
  rw [← List.toFinset_card_of_nodup (table.withTexts texts).nodup, texts_withTexts_eq_eraseDups]
  congr 1
  ext text
  rw [List.mem_toFinset, List.mem_eraseDups, List.mem_toFinset]

/-- There is room for texts if the different texts are not too many. -/
theorem suffices_of_card (h : (table.texts ++ texts).toFinset.card ≤ Interner.maxIndex + 1) :
    table.Suffices texts := by
  have hlength : (table.withTexts texts).texts.length = _ := size_withTexts table texts
  have hsize : table.size = table.texts.length := rfl
  rw [texts_withTexts, List.length_append] at hlength
  rw [Suffices]
  omega

theorem mem_fresh {text : String} : text ∈ table.fresh texts ↔ text ∈ texts ∧ text ∉ table.texts := by
  rw [fresh, List.mem_eraseDups, List.mem_filter, decide_eq_true_iff]

theorem nodup_fresh (table : NameTable) (texts : List String) : (table.fresh texts).Nodup := by
  have hall := (table.withTexts texts).nodup
  rw [texts_withTexts] at hall
  exact (List.nodup_append.1 hall).2.1

theorem Suffices.of_subset {more : List String} (h : table.Suffices texts) (hsub : more ⊆ texts) :
    table.Suffices more := by
  have hfresh : table.fresh more ⊆ table.fresh texts := fun text htext =>
    mem_fresh.2 ((mem_fresh.1 htext).imp_left fun hmem => hsub hmem)
  exact ((nodup_fresh table more).subperm hfresh).length_le.trans h

end NameTable

namespace Interner

variable {table : NameTable} {calls : List Call}

theorem tryIntern_of_suffices {text : String} {rest : List String}
    (hroom : table.Suffices (text :: rest)) :
    table.interner.tryIntern text =
        (.ok (table.intern text).1, (table.intern text).2.interner) ∧
      (table.intern text).2.Suffices rest := by
  rw [NameTable.interner_tryIntern]
  by_cases hmem : text ∈ table.texts
  · rw [NameTable.tryIntern_of_mem hmem]
    refine ⟨rfl, ?_⟩
    rw [NameTable.intern_eq_self hmem]
    exact (NameTable.suffices_cons_of_mem hmem).1 hroom
  · obtain ⟨hsize, hrest⟩ := (NameTable.suffices_cons_of_not_mem hmem).1 hroom
    rw [NameTable.tryIntern_of_le hsize]
    exact ⟨rfl, hrest⟩

/-- While there is room, an interner does with texts what a table does with them. -/
theorem tryInternAll_eq {texts : List String} (hroom : table.Suffices texts) :
    table.interner.tryInternAll texts =
      ((table.internAll texts).1.map .ok, (table.withTexts texts).interner) := by
  induction texts generalizing table with
  | nil => rfl
  | cons text rest ih =>
    obtain ⟨hcall, hrest⟩ := tryIntern_of_suffices hroom
    simp only [tryInternAll, hcall, ih hrest]
    rfl

theorem answers_eq (hroom : table.Suffices (calls.map Call.text)) :
    table.interner.answers calls =
      ((table.internAll (calls.map Call.text)).1.map .name,
        (table.withTexts (calls.map Call.text)).interner) := by
  induction calls generalizing table with
  | nil => rfl
  | cons call rest ih =>
    obtain ⟨hcall, hrest⟩ := tryIntern_of_suffices hroom
    have hanswer : table.interner.answer call =
        (.name (table.intern call.text).1, (table.intern call.text).2.interner) := by
      rw [answer, hcall]
      cases call <;> rfl
    simp only [answers, hanswer, ih hrest]
    rfl

/-- Over every history of calls for which there are indices enough, names and texts correspond to
each other one to one.  Every call is answered; two calls get the same name exactly when they ask for
the same text, and a name has its text at every later moment.  The names that have a text are those
below the size, the first of them is that of the empty text, and the size is the number of different
texts.  The texts stand in the order in which they were first asked for, and the map undoes the
look-up of a name. -/
theorem names_and_texts_correspond (calls : List Call)
    (hroom : ("" :: calls.map Call.text).toFinset.card ≤ maxIndex + 1) :
    ∃ (names : List Name) (interner : Interner), new.answers calls = (names.map .name, interner) ∧
      names.length = calls.length ∧
      (∀ (i j : Nat) (first second : Call), calls[i]? = some first → calls[j]? = some second →
        (names[i]? = names[j]? ↔ first.text = second.text)) ∧
      (∀ (i moment : Nat) (call : Call) (name : Name), i < moment → calls[i]? = some call →
        names[i]? = some name →
          (new.answers (calls.take moment)).2.text? name = some call.text) ∧
      (∀ name, (interner.text? name).isSome ↔ name.index < interner.size) ∧
      interner.text? .empty = some "" ∧
      interner.size = ("" :: calls.map Call.text).toFinset.card ∧
      interner.texts = ("" :: calls.map Call.text).eraseDups ∧
      ∀ text name, interner.find? text = some name ↔ interner.text? name = some text := by
  have hnew : NameTable.new.Suffices (calls.map Call.text) := NameTable.suffices_of_card hroom
  have htexts : (NameTable.new.withTexts (calls.map Call.text)).texts =
      ("" :: calls.map Call.text).eraseDups := NameTable.texts_withTexts_eq_eraseDups _ _
  have hcalled {i : Nat} {call : Call} (hcall : calls[i]? = some call) :
      (calls.map Call.text)[i]? = some call.text := by
    rw [List.getElem?_map, hcall]
    rfl
  refine ⟨_, _, answers_eq hnew, ?_, ?_, ?_, ?_, ?_, ?_, htexts, ?_⟩
  · rw [NameTable.length_internAll, List.length_map]
  · intro i j first second hfirst hsecond
    exact NameTable.internAll_eq_iff (hcalled hfirst) (hcalled hsecond)
  · intro i moment call name hi hcall hname
    have htake : NameTable.new.Suffices ((calls.take moment).map Call.text) := by
      rw [List.map_take]
      exact hnew.of_subset (List.take_subset _ _)
    rw [show new = NameTable.new.interner from rfl, answers_eq htake, List.map_take]
    exact NameTable.text?_withTexts_take hi (hcalled hcall) hname
  · intro name
    simp [text?, size]
  · exact (NameTable.withTexts ..).wellFormed.first
  · exact NameTable.size_withTexts _ _
  · exact (NameTable.withTexts ..).wellFormed.inverse

/-- A history that asks in both ways, for the empty text and for a text three times. -/
def repeated : List Call :=
  [.intern "x", .tryIntern "", .tryIntern "y", .intern "x", .tryIntern "x"]

theorem names_and_texts_correspond_repeated :
    ("" :: repeated.map Call.text).toFinset.card ≤ maxIndex + 1 ∧
      ∃ (names : List Name) (interner : Interner),
        new.answers repeated = (names.map .name, interner) ∧
        names[0]? = names[4]? ∧ names[0]? ≠ names[2]? ∧ interner.size = 3 ∧
        interner.texts = ["", "x", "y"] ∧ interner.find? "y" = some ⟨2⟩ := by
  have hroom : ("" :: repeated.map Call.text).toFinset.card ≤ maxIndex + 1 := by decide
  obtain ⟨names, interner, hanswers, -, hsame, -, -, -, hsize, htexts, hinverse⟩ :=
    names_and_texts_correspond repeated hroom
  have hlist : interner.texts = ["", "x", "y"] := by
    rw [htexts]
    decide
  refine ⟨hroom, names, interner, hanswers, (hsame 0 4 _ _ rfl rfl).2 rfl, ?_, ?_, hlist, ?_⟩
  · intro heq
    exact absurd ((hsame 0 2 _ _ rfl rfl).1 heq) (by decide)
  · rw [hsize]
    decide
  · rw [hinverse, text?, hlist]
    rfl

end Interner

end FlatScope
