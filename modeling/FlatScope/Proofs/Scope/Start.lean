import FlatScope.CommandLine.Run
import FlatScope.Proofs.Tree.Refinement

/-!
# How a program starts

A text is decoded without regard to the options, and the program starts in one frame, which binds the
prelude and then the definitions.  Under every name the definition that was made last counts
(`lookup_start`).
-/

namespace FlatScope

/-! ### Defining one name after another -/

theorem NameTable.find?_intern_of_ne {names : NameTable} {text other : String} (h : other ≠ text) :
    (names.intern text).2.find? other = names.find? other := by
  cases hfind : names.find? other with
  | some name =>
    have htext := find?_eq_some_iff.1 hfind
    exact find?_eq_some_iff.2 (text?_intern_of_text? text htext)
  | none =>
    have hother := find?_eq_none_iff.1 hfind
    rw [find?_eq_none_iff, texts_intern]
    split
    · exact hother
    · simp [hother, h]

theorem NameTable.text?_inj {names : NameTable} {first second : Name} {text : String}
    (hfirst : names.text? first = some text) (hsecond : names.text? second = some text) :
    first = second :=
  Option.some.inj ((find?_eq_some_iff.2 hfirst).symm.trans (find?_eq_some_iff.2 hsecond))

namespace Prelude

theorem defineAll_append (names : NameTable) (store : Store) (id : FrameId)
    (first second : List (String × Value)) :
    defineAll names store id (first ++ second) =
      defineAll (defineAll names store id first).1 (defineAll names store id first).2 id second := by
  induction first generalizing names store with
  | nil => rfl
  | cons entry rest ih => exact ih _ _

variable {store : Store} {id : FrameId}

theorem holds_define (hid : store.Holds id) (name : Name) (value : Value) :
    (store.define id name value).Holds id := by
  rw [Store.Holds, Store.define, Setting.size_update]
  exact hid

theorem keptBy_defineAll (names : NameTable) (store : Store) (id : FrameId)
    (entries : List (String × Value)) : names.KeptBy (defineAll names store id entries).1 := by
  induction entries generalizing names store with
  | nil => exact .refl names
  | cons entry rest ih => exact (names.keptBy_intern entry.1).trans (ih _ _)

theorem size_defineAll (names : NameTable) (store : Store) (id : FrameId)
    (entries : List (String × Value)) :
    (defineAll names store id entries).2.frames.size = store.frames.size ∧
      (defineAll names store id entries).2.closures = store.closures := by
  induction entries generalizing names store with
  | nil => exact ⟨rfl, rfl⟩
  | cons entry rest ih =>
    obtain ⟨hsize, hclosures⟩ := ih (names.intern entry.1).2
      (store.define id (names.intern entry.1).1 entry.2)
    exact ⟨hsize.trans (Setting.size_update store id _), hclosures⟩

/-- What a text is bound to after one definition. -/
theorem find?_define (names : NameTable) (hid : store.Holds id) (text other : String)
    (value : Value) :
    ((names.intern text).2.find? other).bind
        ((store.define id (names.intern text).1 value).lookup id) =
      if other = text then some value else (names.find? other).bind (store.lookup id) := by
  have htext := names.text?_intern text
  by_cases h : other = text
  · subst h
    rw [NameTable.find?_eq_some_iff.2 htext, if_pos rfl]
    simp [Store.lookup_define _ value id _ hid]
  · rw [NameTable.find?_intern_of_ne h, if_neg h]
    cases hfind : names.find? other with
    | none => rfl
    | some name =>
      have hother := NameTable.text?_intern_of_text? text (NameTable.find?_eq_some_iff.1 hfind)
      have hne : (names.intern text).1 ≠ name := by
        rintro rfl
        exact h (Option.some.inj (hother.symm.trans htext))
      simp [Store.lookup_define _ value id _ hid, hne]

/-- The last definition of a text counts. -/
theorem find?_defineAll (names : NameTable) (hid : store.Holds id)
    (entries : List (String × Value)) (text : String) :
    ((defineAll names store id entries).1.find? text).bind
        ((defineAll names store id entries).2.lookup id) =
      (entries.reverse.lookup text).or ((names.find? text).bind (store.lookup id)) := by
  induction entries generalizing names store with
  | nil => rfl
  | cons entry rest ih =>
    obtain ⟨other, value⟩ := entry
    have hstep := ih (names.intern other).2 (holds_define hid (names.intern other).1 value)
    rw [find?_define names hid] at hstep
    rw [List.reverse_cons, List.lookup_append, Option.or_assoc]
    refine hstep.trans ?_
    congr 1
    by_cases h : text = other
    · simp [h]
    · have hbeq : (text == other) = false := by simpa using h
      simp [List.lookup_cons, hbeq, h]

theorem mem_of_lookup_defineAll (names : NameTable) (hid : store.Holds id)
    {entries : List (String × Value)} {other : FrameId} {name : Name} {value : Value}
    (h : (defineAll names store id entries).2.lookup other name = some value) :
    value ∈ entries.map Prod.snd ∨ store.lookup other name = some value := by
  induction entries generalizing names store with
  | nil => exact .inr h
  | cons entry rest ih =>
    obtain ⟨text, first⟩ := entry
    rcases ih (names.intern text).2 (holds_define hid (names.intern text).1 first) h with hrest | hold
    · exact .inl (List.mem_cons_of_mem _ hrest)
    · rw [Store.lookup_define _ first other name hid] at hold
      split at hold
      · cases hold
        exact .inl (List.mem_cons_self ..)
      · exact .inr hold

end Prelude

/-! ### The first frame -/

namespace Program

/-- What the first frame of a program binds, in the order in which it is bound. -/
def startEntries (defines : List (String × Word)) : List (String × Value) :=
  Prelude.entries ++ defines.map fun (name, word) => (name, .int word)

/-- What a text is bound to in the first frame of a program. -/
def startValue? (defines : List (String × Word)) (text : String) : Option Value :=
  (startEntries defines).reverse.lookup text

def startFrame : FrameId := ⟨0⟩

/-- The names and the store of a program that starts, from the names after it was decoded.  The
lemmas below say what is to be known of them. -/
@[irreducible] def start (names : NameTable) (defines : List (String × Word)) : NameTable × Store :=
  Prelude.defineAll names (Store.empty.newFrame []).2 startFrame (startEntries defines)

/-- The setting in which a program runs. -/
def startSetting (program : Program) (names : NameTable) (config : Config)
    (defines : List (String × Word)) : Setting :=
  ⟨program.code, (start names defines).1, config.scoping⟩

theorem holds_startFrame : (Store.empty.newFrame []).2.Holds startFrame := show 0 < 1 by decide

variable (names : NameTable) (defines : List (String × Word))

theorem runProgram_eq_start (steps : Nat) (program : Program) (config : Config) :
    runProgram steps program names config defines =
      match (startSetting program names config defines).evaluateWithin steps program.root startFrame
          ⟨(start names defines).2, .new config.maxDepth⟩ with
      | none => .error .unfinished
      | some (.error halt, _) => .error (.halt halt)
      | some (.ok value, _) => .ok value := by
  rw [startSetting, start, startEntries, Prelude.defineAll_append]
  dsimp only [runProgram, Prelude.frame, Prelude.seed]
  rfl

theorem keptBy_start : names.KeptBy (start names defines).1 := by
  rw [start]
  exact Prelude.keptBy_defineAll _ _ _ _

theorem size_start : (start names defines).2.frames.size = 1 := by
  rw [start]
  exact (Prelude.size_defineAll _ _ _ _).1

theorem closures_start : (start names defines).2.closures = 0 := by
  rw [start]
  exact (Prelude.size_defineAll _ _ _ _).2

theorem find?_start (text : String) :
    ((start names defines).1.find? text).bind ((start names defines).2.lookup startFrame) =
      startValue? defines text := by
  have hempty : (names.find? text).bind ((Store.empty.newFrame []).2.lookup startFrame) = none := by
    cases names.find? text <;> rfl
  have hall := Prelude.find?_defineAll names holds_startFrame (startEntries defines) text
  rw [hempty, Option.or_none] at hall
  rw [start]
  exact hall

variable {names defines}

theorem lookup_start {name : Name} {text : String}
    (htext : (start names defines).1.text? name = some text) :
    (start names defines).2.lookup startFrame name = startValue? defines text := by
  have hfind := find?_start names defines text
  rw [NameTable.find?_eq_some_iff.2 htext, Option.bind_some] at hfind
  exact hfind

theorem lookup_start_of_ne {frame : FrameId} (name : Name) (h : frame ≠ startFrame) :
    (start names defines).2.lookup frame name = none := by
  have hindex : frame.index ≠ 0 := fun hzero => h (congrArg FrameId.mk hzero)
  have hheld : ¬ (start names defines).2.Holds frame := by
    rw [Store.Holds, size_start]
    omega
  rw [Store.lookup, Store.bindings_of_not_holds hheld]
  rfl

theorem not_closure_of_mem_startEntries {text : String} {value : Value}
    (h : (text, value) ∈ startEntries defines) (closure : Closure) : value ≠ .closure closure := by
  rintro rfl
  rcases List.mem_append.1 h with hprelude | hdefine
  · simp [Prelude.entries] at hprelude
  · simp at hdefine

/-- No closure is bound when a program starts. -/
theorem not_closure_of_lookup_start {frame : FrameId} {name : Name} {value : Value}
    (h : (start names defines).2.lookup frame name = some value) (closure : Closure) :
    value ≠ .closure closure := by
  rw [start] at h
  rcases Prelude.mem_of_lookup_defineAll names holds_startFrame h with hentry | hempty
  · obtain ⟨⟨text, found⟩, hmem, rfl⟩ := List.mem_map.1 hentry
    exact not_closure_of_mem_startEntries hmem closure
  · have hnil : (Store.empty.newFrame []).2.bindings frame = [] := by
      rw [Store.bindings_newFrame]
      split
      · rfl
      · exact Store.bindings_of_not_holds (Nat.not_lt_zero _)
    rw [Store.lookup, hnil] at hempty
    cases hempty

/-! ### Decoding -/

/-- A text is the JSON text of a value that encodes an expression. -/
def Denotes (numbers : Json.NumberReader) (text : String) (expr : Expr) : Prop :=
  ∃ json, Json.parse numbers text = .ok json ∧ Encodes json expr

/-- The expression that is read from a text, if there is room for its texts in a new table. -/
def denoted? (numbers : Json.NumberReader) (text : String) : Option Expr :=
  match Json.parse numbers text with
  | .error _ => none
  | .ok json => ((Expr.read json).run .new).1.toOption

variable {numbers : Json.NumberReader}

theorem denotes_of_mem_denoted? {text : String} {expr : Expr} (h : expr ∈ denoted? numbers text) :
    Denotes numbers text expr := by
  unfold denoted? at h
  split at h
  · cases h
  · rename_i json hjson
    cases hread : (Expr.read json).run .new with
    | mk result after =>
      rw [hread] at h
      cases result with
      | error stop => cases h
      | ok found =>
        cases h
        exact ⟨json, hjson, (Expr.read_eq_ok_iff.1 hread).1⟩

/-- What is asked of the expression that a text denotes can be asked of the one that is read. -/
theorem forall_denotes {text : String} {property : Expr → Prop}
    (h : ∃ expr ∈ denoted? numbers text, property expr) :
    ∀ expr, Denotes numbers text expr → property expr := by
  obtain ⟨found, hfound, hproperty⟩ := h
  obtain ⟨json, hjson, hencodes⟩ := denotes_of_mem_denoted? hfound
  rintro expr ⟨other, hother, hencodes'⟩
  cases hjson.symm.trans hother
  rw [hencodes'.unique hencodes]
  exact hproperty

/-- A decoded program: its expression stands at its root, and every node has a tree. -/
structure Decoded (program : Program) (names : NameTable) (expr : Expr) : Prop where
  root : program.code.expr? names program.root = some expr
  readable : program.code.Readable names

theorem exists_decoded_of_ofText {text : String} {before names : NameTable} {program : Program}
    (h : ofText numbers text before = (.ok program, names)) :
    ∃ expr, Denotes numbers text expr ∧ Decoded program names expr := by
  unfold ofText at h
  split at h
  · cases h
  · rename_i json hjson
    split at h
    · cases h
    · rename_i hdecode
      cases h
      obtain ⟨expr, hencodes⟩ := exists_encodes_of_ofJson hdecode
      obtain ⟨hroot, hreadable, -⟩ := ofJson_reads_back hdecode hencodes
      exact ⟨expr, ⟨json, hjson, hencodes⟩, hroot, hreadable⟩

/-- Whatever the options are, a text is refused with the same error, or it denotes an expression and
the same program is run. -/
theorem runText_cases (engine : Engine) (text : String) :
    (∃ error, ∀ options scopingValue config, Options.config options scopingValue = .ok config →
        runText engine text options scopingValue = .error (.decode error)) ∨
      ∃ expr program names, Denotes engine.numbers text expr ∧ Decoded program names expr ∧
        ∀ options scopingValue config, Options.config options scopingValue = .ok config →
          runText engine text options scopingValue =
            runProgram engine.steps program names config options.defines := by
  cases hprogram : ofText engine.numbers text .new with
  | mk result names =>
    cases result with
    | error error =>
      refine .inl ⟨error, fun options scopingValue config hconfig => ?_⟩
      simp only [runText, hconfig, hprogram]
    | ok program =>
      have hrun : ∀ options scopingValue config, Options.config options scopingValue = .ok config →
          runText engine text options scopingValue =
            runProgram engine.steps program names config options.defines := by
        intro options scopingValue config hconfig
        simp only [runText, hconfig, hprogram]
      obtain ⟨expr, hdenotes, hdecoded⟩ := exists_decoded_of_ofText hprogram
      exact .inr ⟨expr, program, names, hdenotes, hdecoded, hrun⟩

end Program

end FlatScope
