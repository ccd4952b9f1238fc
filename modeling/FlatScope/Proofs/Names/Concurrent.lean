import FlatScope.Proofs.Names.History

/-!
# Names asked for at the same time

Several callers share an interner.  Each looks its text up while others may look up theirs, and if
that fails it looks again and adds its text while it has the interner to itself.  The steps of the
callers come in any order.  What the callers are told is what they would be told one after another, in
the order of the steps that decide (`run_interner`, `run_answer?`).
-/

namespace FlatScope.Interner

/-! ### Callers -/

/-- How far a caller has come. -/
inductive Progress where
  | waiting
  /-- The text was looked up and not found. -/
  | missed
  | answered (answer : Except Full Name)

structure Caller where
  text : String
  progress : Progress

namespace Caller

def answer? (caller : Caller) : Option (Except Full Name) :=
  match caller.progress with
  | .answered answer => some answer
  | _ => none

def tell (caller : Caller) (answer : Except Full Name) : Caller :=
  { caller with progress := .answered answer }

/-- The next step of a caller: the look-up, or all that is left of the call. -/
def act (caller : Caller) (interner : Interner) : Caller × Interner :=
  match caller.progress with
  | .waiting =>
    match interner.find? caller.text with
    | some name => (caller.tell (.ok name), interner)
    | none => ({ caller with progress := .missed }, interner)
  | .missed =>
    let (answer, interner) := interner.internMissing caller.text
    (caller.tell answer, interner)
  | .answered _ => (caller, interner)

/-- The number of steps that a caller has before it at most. -/
def remaining (caller : Caller) : Nat :=
  match caller.progress with
  | .waiting => 2
  | .missed => 1
  | .answered _ => 0

end Caller

/-- An interner, and the callers that share it. -/
structure Shared where
  interner : Interner
  callers : List Caller

namespace Shared

def start (interner : Interner) (texts : List String) : Shared :=
  ⟨interner, texts.map fun text => ⟨text, .waiting⟩⟩

def texts (shared : Shared) : List String := shared.callers.map Caller.text

def answer? (shared : Shared) (i : Nat) : Option (Except Full Name) :=
  (shared.callers[i]?).bind Caller.answer?

/-- One step of the caller at a position. -/
def step (shared : Shared) (i : Nat) : Shared :=
  match shared.callers[i]? with
  | some caller =>
    let (caller, interner) := caller.act shared.interner
    ⟨interner, shared.callers.set i caller⟩
  | none => shared

/-- The steps of callers in a given order. -/
def run (shared : Shared) (schedule : List Nat) : Shared := schedule.foldl step shared

/-- Whether a step tells a caller its answer. -/
def decides (shared : Shared) (i : Nat) : Bool :=
  (shared.answer? i).isNone && ((shared.step i).answer? i).isSome

/-- The callers in the order of the steps that tell them their answers. -/
def order (shared : Shared) : List Nat → List Nat
  | [] => []
  | i :: rest =>
    if shared.decides i then i :: (shared.step i).order rest else (shared.step i).order rest

/-- The texts of the callers at given positions. -/
def calls (texts : List String) (order : List Nat) : List String :=
  order.map fun i => (texts[i]?).getD ""

end Shared

/-! ### One call -/

/-- Looking a text up first makes no difference, since the second step looks again. -/
theorem tryIntern_eq_internMissing (interner : Interner) (text : String) :
    interner.tryIntern text = interner.internMissing text := by
  unfold tryIntern internMissing
  cases interner.find? text <;> rfl

theorem tryIntern_of_find? {interner : Interner} {text : String} {name : Name}
    (h : interner.find? text = some name) : interner.tryIntern text = (.ok name, interner) := by
  rw [tryIntern, h]

theorem snd_tryIntern_cases (interner : Interner) (text : String) :
    (interner.tryIntern text).2 = interner ∨
      interner.find? text = none ∧ (interner.tryIntern text).2 = interner.add text := by
  cases hfind : interner.find? text with
  | some name => exact .inl (by rw [tryIntern_of_find? hfind])
  | none =>
    by_cases hsize : interner.size ≤ maxIndex
    · exact .inr ⟨rfl, by simp [tryIntern_eq_internMissing, internMissing, hfind, hsize]⟩
    · exact .inl (by simp [tryIntern_eq_internMissing, internMissing, hfind, hsize])

theorem text?_tryIntern {interner : Interner} {name : Name} {old : String} (text : String)
    (h : interner.text? name = some old) : (interner.tryIntern text).2.text? name = some old := by
  rcases snd_tryIntern_cases interner text with hsame | ⟨-, hadd⟩
  · rw [hsame, h]
  · have hne : name.index ≠ interner.size := fun heq => by
      rw [text?_eq_none (Nat.le_of_eq heq.symm)] at h
      cases h
    rw [hadd, text?_add, if_neg hne, h]

theorem WellFormed.tryIntern {interner : Interner} (h : interner.WellFormed) (text : String) :
    (interner.tryIntern text).2.WellFormed := by
  rcases snd_tryIntern_cases interner text with hsame | ⟨hfind, hadd⟩
  · rwa [hsame]
  · rw [hadd]
    exact h.add hfind

/-! ### One step -/

namespace Shared

variable {shared : Shared} {i j : Nat} {caller : Caller} {interner : Interner}

theorem text_act (caller : Caller) (interner : Interner) :
    (caller.act interner).1.text = caller.text := by
  unfold Caller.act
  split
  · split <;> rfl
  · rfl
  · rfl

/-- A step of a caller that has no answer yet is the whole call, or a look-up that fails. -/
theorem act_cases (h : caller.answer? = none) (interner : Interner) :
    caller.act interner =
        (caller.tell (interner.tryIntern caller.text).1, (interner.tryIntern caller.text).2) ∨
      caller.act interner = (⟨caller.text, .missed⟩, interner) ∧ caller.remaining = 2 := by
  obtain ⟨text, progress⟩ := caller
  cases progress with
  | waiting =>
    cases hfind : interner.find? text with
    | some name => exact .inl (by simp [Caller.act, tryIntern_of_find? hfind, hfind])
    | none => exact .inr ⟨by simp [Caller.act, hfind], rfl⟩
  | missed =>
    left
    rw [tryIntern_eq_internMissing]
    rfl
  | answered => cases h

theorem act_of_answered {told : Except Full Name} (h : caller.answer? = some told) :
    caller.act interner = (caller, interner) := by
  obtain ⟨text, progress⟩ := caller
  cases progress with
  | waiting | missed => cases h
  | answered => rfl

theorem step_of_getElem? (h : shared.callers[i]? = some caller) :
    shared.step i =
      ⟨(caller.act shared.interner).2, shared.callers.set i (caller.act shared.interner).1⟩ := by
  unfold step
  rw [h]

theorem step_of_getElem?_eq_none (h : shared.callers[i]? = none) : shared.step i = shared := by
  unfold step
  rw [h]

theorem getElem?_set_callers (h : shared.callers[i]? = some caller) (next : Caller) (j : Nat) :
    (shared.callers.set i next)[j]? = if i = j then some next else shared.callers[j]? := by
  rw [List.getElem?_set, if_pos (List.getElem?_eq_some_iff.1 h).1]

theorem texts_step (shared : Shared) (i : Nat) : (shared.step i).texts = shared.texts := by
  cases h : shared.callers[i]? with
  | none => rw [step_of_getElem?_eq_none h]
  | some caller =>
    rw [step_of_getElem? h]
    refine List.ext_getElem? fun j => ?_
    rw [texts, texts, List.getElem?_map, List.getElem?_map, getElem?_set_callers h]
    split
    · rename_i hj
      rw [← hj, h, Option.map_some, Option.map_some, text_act]
    · rfl

theorem answer?_set (h : shared.callers[i]? = some caller) (next : Caller) (interner : Interner)
    (j : Nat) :
    (Shared.mk interner (shared.callers.set i next)).answer? j =
      if i = j then next.answer? else shared.answer? j := by
  unfold answer?
  rw [getElem?_set_callers h]
  split <;> rfl

/-- What a step can do: it tells its caller the answer to the whole call, or it changes neither the
interner nor an answer. -/
theorem step_cases (shared : Shared) (i : Nat) :
    (shared.decides i = true ∧ ∃ text, shared.texts[i]? = some text ∧
      (shared.step i).interner = (shared.interner.tryIntern text).2 ∧
      ∀ j, (shared.step i).answer? j =
        if i = j then some (shared.interner.tryIntern text).1 else shared.answer? j) ∨
    (shared.decides i = false ∧ (shared.step i).interner = shared.interner ∧
      ∀ j, (shared.step i).answer? j = shared.answer? j) := by
  cases hcaller : shared.callers[i]? with
  | none =>
    have hstep := step_of_getElem?_eq_none hcaller
    exact .inr ⟨by simp [decides, hstep], by rw [hstep], by simp [hstep]⟩
  | some caller =>
    have htext : shared.texts[i]? = some caller.text := by simp [texts, hcaller]
    have hanswer : shared.answer? i = caller.answer? := by simp [answer?, hcaller]
    rw [decides, hanswer, step_of_getElem? hcaller]
    simp only [answer?_set hcaller, if_true]
    cases htold : caller.answer? with
    | some told =>
      rw [act_of_answered htold]
      refine .inr ⟨rfl, rfl, fun j => ?_⟩
      split
      · rename_i hj
        rw [← hj, hanswer]
      · rfl
    | none =>
      rcases act_cases htold shared.interner with hact | ⟨hact, -⟩
      · rw [hact]
        exact .inl ⟨rfl, caller.text, htext, rfl, fun j => rfl⟩
      · rw [hact]
        refine .inr ⟨rfl, rfl, fun j => ?_⟩
        split
        · rename_i hj
          rw [← hj, hanswer, htold]
          rfl
        · rfl

/-! ### Runs -/

variable {schedule : List Nat} {told : Except Full Name}

theorem run_cons (shared : Shared) (i : Nat) (rest : List Nat) :
    shared.run (i :: rest) = (shared.step i).run rest := rfl

theorem run_append (shared : Shared) (first second : List Nat) :
    shared.run (first ++ second) = (shared.run first).run second :=
  List.foldl_append

theorem texts_run (shared : Shared) (schedule : List Nat) :
    (shared.run schedule).texts = shared.texts := by
  induction schedule generalizing shared with
  | nil => rfl
  | cons i rest ih => rw [run_cons, ih, texts_step]

theorem answer?_step (h : shared.answer? j = some told) (i : Nat) :
    (shared.step i).answer? j = some told := by
  rcases step_cases shared i with ⟨hdecides, text, -, -, hanswers⟩ | ⟨-, -, hanswers⟩
  · have hne : i ≠ j := by
      rintro rfl
      simp [decides, h] at hdecides
    rw [hanswers, if_neg hne, h]
  · rw [hanswers, h]

/-- An answer stays what it was. -/
theorem answer?_run (h : shared.answer? j = some told) (schedule : List Nat) :
    (shared.run schedule).answer? j = some told := by
  induction schedule generalizing shared with
  | nil => exact h
  | cons i rest ih => exact ih (answer?_step h i)

theorem order_cons_of_decides (h : shared.decides i = true) (rest : List Nat) :
    shared.order (i :: rest) = i :: (shared.step i).order rest := by
  rw [order, if_pos h]

theorem order_cons_of_not_decides (h : shared.decides i = false) (rest : List Nat) :
    shared.order (i :: rest) = (shared.step i).order rest := by
  rw [order, h]
  rfl

theorem calls_cons {texts : List String} {text : String} (h : texts[i]? = some text)
    (order : List Nat) : calls texts (i :: order) = text :: calls texts order := by
  simp [calls, h]

/-- The interner is the one after the calls in the order of the steps that decide. -/
theorem run_interner (shared : Shared) (schedule : List Nat) :
    (shared.run schedule).interner =
      (shared.interner.tryInternAll (calls shared.texts (shared.order schedule))).2 := by
  induction schedule generalizing shared with
  | nil => rfl
  | cons i rest ih =>
    rw [run_cons, ih, texts_step]
    rcases step_cases shared i with ⟨hdecides, text, htext, hinterner, -⟩ | ⟨hdecides, hinterner, -⟩
    · rw [order_cons_of_decides hdecides, calls_cons htext, hinterner]
      rfl
    · rw [order_cons_of_not_decides hdecides, hinterner]

/-- A caller that has its answer already is told nothing any more. -/
theorem not_mem_order (h : shared.answer? j = some told) : j ∉ shared.order schedule := by
  induction schedule generalizing shared with
  | nil => exact List.not_mem_nil
  | cons i rest ih =>
    have hrest := ih (answer?_step h i)
    cases hdecides : shared.decides i with
    | false => rwa [order_cons_of_not_decides hdecides]
    | true =>
      rw [order_cons_of_decides hdecides, List.mem_cons, not_or]
      refine ⟨?_, hrest⟩
      rintro rfl
      simp [decides, h] at hdecides

/-- A caller is told what its call is answered in the order of the steps that decide. -/
theorem run_answer? {k : Nat} (h : (shared.order schedule)[k]? = some j) :
    (shared.run schedule).answer? j =
      (shared.interner.tryInternAll (calls shared.texts (shared.order schedule))).1[k]? := by
  induction schedule generalizing shared k with
  | nil => cases h
  | cons i rest ih =>
    rw [run_cons]
    rcases step_cases shared i with
      ⟨hdecides, text, htext, hinterner, hanswers⟩ | ⟨hdecides, hinterner, hanswers⟩
    · rw [order_cons_of_decides hdecides] at h ⊢
      rw [calls_cons htext]
      cases k with
      | zero =>
        obtain rfl : i = j := Option.some.inj h
        exact answer?_run ((hanswers i).trans (if_pos rfl)) rest
      | succ k =>
        rw [ih h, texts_step, hinterner]
        rfl
    · rw [order_cons_of_not_decides hdecides] at h ⊢
      rw [ih h, texts_step, hinterner]

theorem nodup_order (shared : Shared) (schedule : List Nat) : (shared.order schedule).Nodup := by
  induction schedule generalizing shared with
  | nil => exact List.nodup_nil
  | cons i rest ih =>
    rcases step_cases shared i with ⟨hdecides, text, -, -, hanswers⟩ | ⟨hdecides, -⟩
    · rw [order_cons_of_decides hdecides]
      exact List.nodup_cons.2 ⟨not_mem_order ((hanswers i).trans (if_pos rfl)), ih _⟩
    · rw [order_cons_of_not_decides hdecides]
      exact ih _

theorem mem_order_iff (h : shared.answer? j = none) :
    j ∈ shared.order schedule ↔ ((shared.run schedule).answer? j).isSome := by
  induction schedule generalizing shared with
  | nil => simp [order, run, h]
  | cons i rest ih =>
    rw [run_cons]
    rcases step_cases shared i with ⟨hdecides, text, -, -, hanswers⟩ | ⟨hdecides, -, hanswers⟩
    · rw [order_cons_of_decides hdecides, List.mem_cons]
      by_cases hj : i = j
      · subst hj
        simp [answer?_run ((hanswers i).trans (if_pos rfl)) rest]
      · rw [ih ((hanswers j).trans (by rw [if_neg hj, h]))]
        simp [Ne.symm hj]
    · rw [order_cons_of_not_decides hdecides, ih ((hanswers j).trans h)]

/-- No name changes its text. -/
theorem text?_run {name : Name} {text : String} (h : shared.interner.text? name = some text)
    (schedule : List Nat) : (shared.run schedule).interner.text? name = some text := by
  induction schedule generalizing shared with
  | nil => exact h
  | cons i rest ih =>
    refine ih ?_
    rcases step_cases shared i with ⟨-, other, -, hinterner, -⟩ | ⟨-, hinterner, -⟩
    · rw [hinterner]
      exact text?_tryIntern other h
    · rw [hinterner, h]

/-- The map and the texts stay in step. -/
theorem wellFormed_run (h : shared.interner.WellFormed) (schedule : List Nat) :
    (shared.run schedule).interner.WellFormed := by
  induction schedule generalizing shared with
  | nil => exact h
  | cons i rest ih =>
    refine ih ?_
    rcases step_cases shared i with ⟨-, text, -, hinterner, -⟩ | ⟨-, hinterner, -⟩
    · rw [hinterner]
      exact h.tryIntern text
    · rwa [hinterner]

/-! ### Steps that are left -/

def remaining (shared : Shared) (i : Nat) : Nat :=
  ((shared.callers[i]?).map Caller.remaining).getD 0

theorem isSome_answer? (hi : i < shared.texts.length) (h : shared.remaining i = 0) :
    (shared.answer? i).isSome := by
  obtain ⟨text, progress, hcaller⟩ :
      ∃ text progress, shared.callers[i]? = some ⟨text, progress⟩ := by
    rw [texts, List.length_map] at hi
    exact ⟨_, _, List.getElem?_eq_getElem hi⟩
  simp only [remaining, hcaller, Option.map_some, Option.getD_some] at h
  cases progress with
  | waiting | missed => cases h
  | answered => simp [answer?, hcaller, Caller.answer?]

theorem remaining_set (h : shared.callers[i]? = some caller) (next : Caller) (interner : Interner)
    (j : Nat) :
    (Shared.mk interner (shared.callers.set i next)).remaining j =
      if i = j then next.remaining else shared.remaining j := by
  unfold remaining
  rw [getElem?_set_callers h]
  split <;> rfl

theorem remaining_step (shared : Shared) (i j : Nat) :
    (shared.step i).remaining j ≤ shared.remaining j - if i = j then 1 else 0 := by
  cases hcaller : shared.callers[i]? with
  | none =>
    have hzero : shared.remaining i = 0 := by simp [remaining, hcaller]
    rw [step_of_getElem?_eq_none hcaller]
    split
    · rename_i hj
      rw [← hj, hzero]
    · exact Nat.le_refl _
  | some caller =>
    have hremaining : shared.remaining i = caller.remaining := by simp [remaining, hcaller]
    rw [step_of_getElem? hcaller, remaining_set hcaller]
    split
    · rename_i hj
      rw [← hj, hremaining]
      cases htold : caller.answer? with
      | some told =>
        rw [act_of_answered htold]
        obtain ⟨text, progress⟩ := caller
        cases progress with
        | waiting | missed => cases htold
        | answered => exact Nat.le_refl _
      | none =>
        rcases act_cases htold shared.interner with hact | ⟨hact, htwo⟩
        · rw [hact]
          exact Nat.zero_le _
        · rw [hact, htwo]
          exact Nat.le_refl _
    · exact Nat.le_refl _

theorem remaining_run (shared : Shared) (schedule : List Nat) (i : Nat) :
    (shared.run schedule).remaining i ≤ shared.remaining i - schedule.count i := by
  induction schedule generalizing shared with
  | nil => exact Nat.le_refl _
  | cons j rest ih =>
    have hrest := ih (shared.step j)
    have hstep := remaining_step shared j i
    rw [run_cons, List.count_cons]
    simp only [beq_iff_eq]
    omega

/-! ### Linearizability -/

section Start

variable (interner : Interner) (texts : List String)

theorem texts_start : (start interner texts).texts = texts := by
  simp [start, Shared.texts, Function.comp_def]

theorem interner_start : (start interner texts).interner = interner := rfl

theorem answer?_start (i : Nat) : (start interner texts).answer? i = none := by
  cases h : texts[i]? <;> simp [start, answer?, h, Caller.answer?]

theorem remaining_start_le (i : Nat) : (start interner texts).remaining i ≤ 2 := by
  cases h : texts[i]? <;> simp [start, remaining, h, Caller.remaining]

end Start

theorem exists_text_of_answer? (h : shared.answer? i = some told) :
    ∃ text, shared.texts[i]? = some text := by
  obtain ⟨caller, hcaller, -⟩ := Option.bind_eq_some_iff.1 h
  exact ⟨caller.text, by simp [Shared.texts, hcaller]⟩

/-- What callers are told, in any order of their steps, is what they are told one after another. -/
structure Linearized (interner : Interner) (texts : List String) (schedule : List Nat) : Prop where
  /-- The callers that have their answers stand in the order, each once. -/
  nodup : ((start interner texts).order schedule).Nodup
  told : ∀ i, i ∈ (start interner texts).order schedule ↔
    (((start interner texts).run schedule).answer? i).isSome
  /-- Two steps are enough for an answer. -/
  prompt : ∀ i < texts.length, 2 ≤ schedule.count i → i ∈ (start interner texts).order schedule
  /-- The interner, its map and its texts, is that of the calls one after another. -/
  same_interner : ((start interner texts).run schedule).interner =
    (interner.tryInternAll (calls texts ((start interner texts).order schedule))).2
  /-- Each answer is that of the calls one after another. -/
  same_answer : ∀ (k i : Nat), ((start interner texts).order schedule)[k]? = some i →
    ((start interner texts).run schedule).answer? i =
      (interner.tryInternAll (calls texts ((start interner texts).order schedule))).1[k]?
  /-- Each answer is a name, and the name has the text of the caller. -/
  named : ∀ i answer, ((start interner texts).run schedule).answer? i = some answer →
    ∃ name text, answer = .ok name ∧ texts[i]? = some text ∧
      ((start interner texts).run schedule).interner.text? name = some text
  /-- A text is stored once, however many callers ask for it. -/
  stored_once : ((start interner texts).run schedule).interner.texts.Nodup ∧
    ((start interner texts).run schedule).interner.texts =
      (interner.texts ++ calls texts ((start interner texts).order schedule)).eraseDups
  /-- The map and the texts undo each other. -/
  inverse : ∀ text name, ((start interner texts).run schedule).interner.find? text = some name ↔
    ((start interner texts).run schedule).interner.text? name = some text
  /-- From every moment on, answers stay and names keep their texts. -/
  kept : ∀ moment, (∀ i answer,
      ((start interner texts).run (schedule.take moment)).answer? i = some answer →
        ((start interner texts).run schedule).answer? i = some answer) ∧
    ∀ name text,
      ((start interner texts).run (schedule.take moment)).interner.text? name = some text →
        ((start interner texts).run schedule).interner.text? name = some text

theorem calls_subset {texts : List String} {order : List Nat} (h : ∀ i ∈ order, i < texts.length) :
    calls texts order ⊆ texts := by
  intro text htext
  obtain ⟨i, hi, rfl⟩ := List.mem_map.1 htext
  rw [List.getElem?_eq_getElem (h i hi)]
  exact List.getElem_mem (h i hi)

/-- While there are indices enough, callers that share an interner are told what they would be told
one after another, in the order of the steps that decide: the interner and the names are the same,
each text is stored once, and no name changes its text. -/
theorem concurrent_calls_are_linearized (table : NameTable) (texts : List String)
    (schedule : List Nat) (hroom : table.Suffices texts) :
    Linearized table.interner texts schedule := by
  have htold (i : Nat) : i ∈ (start table.interner texts).order schedule ↔
      (((start table.interner texts).run schedule).answer? i).isSome :=
    mem_order_iff (answer?_start table.interner texts i)
  have hposition : ∀ i ∈ (start table.interner texts).order schedule, i < texts.length := by
    intro i hi
    obtain ⟨answer, hanswer⟩ := Option.isSome_iff_exists.1 ((htold i).1 hi)
    obtain ⟨text, htext⟩ := exists_text_of_answer? hanswer
    rw [texts_run, texts_start] at htext
    exact (List.getElem?_eq_some_iff.1 htext).1
  have hinterner := run_interner (start table.interner texts) schedule
  rw [texts_start, interner_start] at hinterner
  have hanswers {k i : Nat} (hk : ((start table.interner texts).order schedule)[k]? = some i) :
      ((start table.interner texts).run schedule).answer? i =
        (table.interner.tryInternAll
          (calls texts ((start table.interner texts).order schedule))).1[k]? := by
    rw [run_answer? hk, texts_start, interner_start]
  have hall := tryInternAll_eq (hroom.of_subset (calls_subset hposition))
  have hformed : ((start table.interner texts).run schedule).interner.WellFormed :=
    wellFormed_run (interner_start table.interner texts ▸ table.wellFormed) schedule
  refine ⟨nodup_order _ _, htold, ?_, hinterner, fun k i hk => hanswers hk, ?_, ⟨?_, ?_⟩,
    hformed.inverse, ?_⟩
  · intro i hi hcount
    rw [htold]
    have hstart := remaining_start_le table.interner texts i
    have hleft := remaining_run (start table.interner texts) schedule i
    refine isSome_answer? ?_ (by omega)
    rwa [texts_run, texts_start]
  · intro i answer hanswer
    have hmem := (htold i).2 (by rw [hanswer]; rfl)
    obtain ⟨k, hk⟩ := List.getElem?_of_mem hmem
    have htext := List.getElem?_eq_getElem (hposition i hmem)
    have hcall : (calls texts ((start table.interner texts).order schedule))[k]? =
        some (texts.get ⟨i, hposition i hmem⟩) := by
      simp [calls, hk, htext]
    rw [hanswers hk, hall, List.getElem?_map] at hanswer
    obtain ⟨name, hname, rfl⟩ := Option.map_eq_some_iff.1 hanswer
    have hstored := NameTable.text?_withTexts_take (List.getElem?_eq_some_iff.1 hcall).1 hcall hname
    rw [List.take_length] at hstored
    refine ⟨name, _, rfl, htext, ?_⟩
    rw [hinterner, hall]
    exact hstored
  · exact (NameTable.mk _ hformed).nodup
  · rw [hinterner, hall]
    exact NameTable.texts_withTexts_eq_eraseDups ..
  · intro moment
    have hsplit := run_append (start table.interner texts) (schedule.take moment)
      (schedule.drop moment)
    rw [List.take_append_drop] at hsplit
    rw [hsplit]
    exact ⟨fun i answer h => answer?_run h _, fun name text h => text?_run h _⟩

/-- Three callers, of which two ask for one text.  Each looks its text up before a text is added; the
second of the two is answered last, by its second look-up. -/
theorem concurrent_calls_are_linearized_three :
    NameTable.new.Suffices ["x", "x", "y"] ∧
      Linearized new ["x", "x", "y"] [0, 1, 2, 0, 2, 1] ∧
      (start new ["x", "x", "y"]).order [0, 1, 2, 0, 2, 1] = [0, 2, 1] ∧
      ((start new ["x", "x", "y"]).run [0, 1, 2, 0, 2, 1]).interner.texts = ["", "x", "y"] ∧
      ((start new ["x", "x", "y"]).run [0, 1, 2, 0, 2, 1]).answer? 0 =
        ((start new ["x", "x", "y"]).run [0, 1, 2, 0, 2, 1]).answer? 1 := by
  have hroom : NameTable.new.Suffices ["x", "x", "y"] := by decide
  have horder : (start new ["x", "x", "y"]).order [0, 1, 2, 0, 2, 1] = [0, 2, 1] := by decide
  have hlinear : Linearized new ["x", "x", "y"] [0, 1, 2, 0, 2, 1] :=
    concurrent_calls_are_linearized .new _ [0, 1, 2, 0, 2, 1] hroom
  refine ⟨hroom, hlinear, horder, ?_, ?_⟩
  · rw [hlinear.stored_once.2, horder]
    decide
  · rw [hlinear.same_answer 0 0 (by rw [horder]; rfl), hlinear.same_answer 2 1 (by rw [horder]; rfl),
      horder]
    rfl

end Shared

end FlatScope.Interner
