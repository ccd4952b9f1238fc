import FlatScope.Eval.Depth
import FlatScope.Eval.Machine

/-!
# The machine and evaluation by depth agree

Main statements: the machine comes to an outcome exactly when some depth is enough for it, and the
outcome and the memory after it are the same (`exists_run_eq_some_iff` for nodes,
`exists_run_startCall_eq_some_iff` for calls).
-/

namespace FlatScope.Setting

variable {setting : Setting}

/-! ### Runs -/

/-- The machine comes from one state to another. -/
inductive Reaches (setting : Setting) : Machine → Machine → Prop where
  | refl (machine : Machine) : Reaches setting machine machine
  | step {first last : Machine} (rest : Reaches setting (setting.step first) last) :
    Reaches setting first last

theorem Reaches.trans {a b c : Machine} (hab : setting.Reaches a b) (hbc : setting.Reaches b c) :
    setting.Reaches a c := by
  induction hab with
  | refl => exact hbc
  | step _ ih => exact .step (ih hbc)

/-- A run makes a step, unless its state is final. -/
theorem run_succ (setting : Setting) (steps : Nat) (machine : Machine) :
    (∃ outcome memory, machine = ⟨.outcome outcome, [], memory⟩) ∨
      setting.run (steps + 1) machine = setting.run steps (setting.step machine) := by
  obtain ⟨focus, pending, memory⟩ := machine
  cases focus with
  | node id frame => exact .inr rfl
  | outcome outcome =>
    cases pending with
    | nil => exact .inl ⟨outcome, memory, rfl⟩
    | cons part pending => exact .inr rfl

theorem run_succ_of_run {steps : Nat} {machine : Machine} {result : Outcome × Memory}
    (h : setting.run steps machine = some result) :
    setting.run (steps + 1) machine = some result := by
  induction steps generalizing machine with
  | zero => cases h
  | succ steps ih =>
    rcases run_succ setting steps machine with ⟨outcome, memory, rfl⟩ | hstep
    · exact h
    · rcases run_succ setting (steps + 1) machine with ⟨outcome, memory, rfl⟩ | hstep'
      · exact h
      · rw [hstep']
        exact ih (hstep ▸ h)

theorem run_mono {steps more : Nat} {machine : Machine} {result : Outcome × Memory}
    (hle : steps ≤ more) (h : setting.run steps machine = some result) :
    setting.run more machine = some result := by
  induction hle with
  | refl => exact h
  | step _ ih => exact run_succ_of_run ih

theorem run_unique {steps steps' : Nat} {machine : Machine} {result result' : Outcome × Memory}
    (h : setting.run steps machine = some result)
    (h' : setting.run steps' machine = some result') : result = result' := by
  rcases Nat.le_total steps steps' with hle | hle
  · exact Option.some.inj ((run_mono hle h).symm.trans h')
  · exact Option.some.inj (h.symm.trans (run_mono hle h'))

theorem run_eq_none_of_step {steps : Nat} {machine : Machine}
    (h : setting.run steps (setting.step machine) = none) : setting.run steps machine = none := by
  cases steps with
  | zero => rfl
  | succ steps =>
    rcases run_succ setting steps machine with ⟨outcome, memory, rfl⟩ | hstep
    · exact h
    · rw [hstep]
      cases hrun : setting.run steps (setting.step machine) with
      | none => rfl
      | some result => rw [run_succ_of_run hrun] at h; cases h

theorem Reaches.run_eq_none {first last : Machine} {steps : Nat}
    (hreach : setting.Reaches first last) (h : setting.run steps last = none) :
    setting.run steps first = none := by
  induction hreach with
  | refl => exact h
  | step _ ih => exact run_eq_none_of_step (ih h)

theorem Reaches.exists_run {first : Machine} {outcome : Outcome} {memory : Memory}
    (hreach : setting.Reaches first ⟨.outcome outcome, [], memory⟩) :
    ∃ steps, setting.run steps first = some (outcome, memory) := by
  generalize hlast : (⟨.outcome outcome, [], memory⟩ : Machine) = last at hreach
  induction hreach with
  | refl => exact ⟨1, hlast ▸ rfl⟩
  | @step first last _ ih =>
    obtain ⟨steps, hsteps⟩ := ih hlast
    rcases run_succ setting steps first with ⟨outcome', memory', rfl⟩ | hstep
    · exact ⟨steps, hsteps⟩
    · exact ⟨steps + 1, hstep.trans hsteps⟩

/-! ### Outcomes by depth are reached -/

/-- The state in which an attempt's result is given to what is pending. -/
def finished (result : Outcome × Memory) (pending : List Pending) : Machine :=
  ⟨.outcome result.1, pending, result.2⟩

/-- Every outcome of an evaluator is reached by the machine, whatever is pending. -/
def Simulates (setting : Setting) (eval : Evaluator) : Prop :=
  ∀ id frame memory result pending, eval id frame memory = some result →
    setting.Reaches ⟨.node id frame, pending, memory⟩ (finished result pending)

/-- When an evaluator has no outcome, the machine is not done after the given number of steps. -/
def Outlasts (setting : Setting) (steps : Nat) (eval : Evaluator) : Prop :=
  ∀ id frame memory pending, eval id frame memory = none →
    setting.run steps ⟨.node id frame, pending, memory⟩ = none

variable {eval : Evaluator} {steps : Nat}

/-- Evaluating a node for a pending part that is no end of a call. -/
theorem Simulates.andThen (hsim : setting.Simulates eval) {id : NodeId} {frame : FrameId}
    {memory : Memory} {result : Outcome × Memory} {part : Pending} {pending : List Pending}
    {next : Value → Memory → Attempt} (hpart : part ≠ .leave)
    (hnext : ∀ value memory, next value memory = some result →
      setting.Reaches (setting.resume part value pending memory) (finished result pending))
    (h : (eval id frame memory).andThen next = some result) :
    setting.Reaches ⟨.node id frame, part :: pending, memory⟩ (finished result pending) := by
  rcases Attempt.andThen_eq_some.1 h with ⟨value, after, heval, hrest⟩ | ⟨halt, after, heval, rfl⟩
  · exact (hsim _ _ _ _ (part :: pending) heval).trans (.step (hnext value after hrest))
  · refine (hsim _ _ _ _ (part :: pending) heval).trans (.step ?_)
    have hunwind : setting.step (finished (.error halt, after) (part :: pending)) =
        finished (.error halt, after) pending := by
      cases part with
      | leave => exact absurd rfl hpart
      | _ => rfl
    rw [hunwind]
    exact .refl _

theorem Outlasts.andThen (hout : setting.Outlasts steps eval) (hsim : setting.Simulates eval)
    {id : NodeId} {frame : FrameId} {memory : Memory} {part : Pending} {pending : List Pending}
    {next : Value → Memory → Attempt}
    (hnext : ∀ value memory, next value memory = none →
      setting.run steps (setting.resume part value pending memory) = none)
    (h : (eval id frame memory).andThen next = none) :
    setting.run steps ⟨.node id frame, part :: pending, memory⟩ = none := by
  cases heval : eval id frame memory with
  | none => exact hout _ _ _ _ heval
  | some result =>
    obtain ⟨outcome, after⟩ := result
    cases outcome with
    | error halt => rw [heval] at h; cases h
    | ok value =>
      rw [heval] at h
      exact ((hsim _ _ _ _ (part :: pending) heval).trans (.step (.refl _))).run_eq_none
        (hnext value after h)

theorem Simulates.block (hsim : setting.Simulates eval) {items : List NodeId} {frame : FrameId}
    {memory : Memory} {result : Outcome × Memory} {pending : List Pending}
    (h : eval.block frame items memory = some result) :
    setting.Reaches (startBlock items frame pending memory) (finished result pending) := by
  induction items generalizing memory with
  | nil => cases h; exact .refl _
  | cons item rest ih =>
    cases rest with
    | nil => exact hsim _ _ _ _ _ h
    | cons next rest => exact hsim.andThen (by simp) (fun _ _ hrest => ih hrest) h

theorem Outlasts.block (hout : setting.Outlasts steps eval) (hsim : setting.Simulates eval)
    {items : List NodeId} {frame : FrameId} {memory : Memory} {pending : List Pending}
    (h : eval.block frame items memory = none) :
    setting.run steps (startBlock items frame pending memory) = none := by
  induction items generalizing memory with
  | nil => cases h
  | cons item rest ih =>
    cases rest with
    | nil => exact hout _ _ _ _ h
    | cons next rest => exact hout.andThen hsim (fun _ _ hrest => ih hrest) h

theorem Simulates.cond (hsim : setting.Simulates eval) {clauses : List Clause} {frame : FrameId}
    {memory : Memory} {result : Outcome × Memory} {pending : List Pending}
    (h : eval.cond frame clauses memory = some result) :
    setting.Reaches (startCond clauses frame pending memory) (finished result pending) := by
  induction clauses generalizing memory with
  | nil => cases h; exact .refl _
  | cons clause rest ih =>
    refine hsim.andThen (by simp) (fun value after hrest => ?_) h
    simp only [resume]
    cases htest : value.test with
    | error fault => simp only [htest] at hrest; cases hrest; exact .refl _
    | ok test =>
      simp only [htest] at hrest
      cases test with
      | true => exact hsim _ _ _ _ _ hrest
      | false => exact ih hrest

theorem Outlasts.cond (hout : setting.Outlasts steps eval) (hsim : setting.Simulates eval)
    {clauses : List Clause} {frame : FrameId} {memory : Memory} {pending : List Pending}
    (h : eval.cond frame clauses memory = none) :
    setting.run steps (startCond clauses frame pending memory) = none := by
  induction clauses generalizing memory with
  | nil => cases h
  | cons clause rest ih =>
    refine hout.andThen hsim (fun value after hrest => ?_) h
    simp only [resume]
    cases htest : value.test with
    | error fault => simp only [htest] at hrest; cases hrest
    | ok test =>
      simp only [htest] at hrest
      cases test with
      | true => exact hout _ _ _ _ hrest
      | false => exact ih hrest

theorem Simulates.call (hsim : setting.Simulates eval) {callee : Value} {args : List Value}
    {caller : FrameId} {label : Option Name} {memory : Memory} {result : Outcome × Memory}
    {pending : List Pending}
    (h : setting.evalCall eval callee args caller label memory = some result) :
    setting.Reaches (setting.startCall callee args caller label pending memory)
      (finished result pending) := by
  unfold evalCall at h
  unfold startCall
  cases henter : setting.enter callee args caller label memory with
  | mk entry entered =>
    rw [henter] at h
    cases entry with
    | done outcome =>
      cases h
      exact .refl _
    | body node frame =>
      obtain ⟨⟨outcome, after⟩, heval, rfl⟩ := Option.map_eq_some_iff.1 h
      refine (hsim _ _ _ _ (.leave :: pending) heval).trans (.step ?_)
      cases outcome <;> exact .refl _

theorem Outlasts.call (hout : setting.Outlasts steps eval) {callee : Value} {args : List Value}
    {caller : FrameId} {label : Option Name} {memory : Memory} {pending : List Pending}
    (h : setting.evalCall eval callee args caller label memory = none) :
    setting.run steps (setting.startCall callee args caller label pending memory) = none := by
  unfold evalCall at h
  unfold startCall
  cases henter : setting.enter callee args caller label memory with
  | mk entry entered =>
    rw [henter] at h
    cases entry with
    | done outcome => cases h
    | body node frame => exact hout _ _ _ _ (Option.map_eq_none_iff.1 h)

theorem Simulates.operands (hsim : setting.Simulates eval) {callee : Value}
    {label : Option Name} {done : List Value} {operands : List NodeId} {frame : FrameId}
    {memory : Memory} {result : Outcome × Memory} {pending : List Pending}
    (h : setting.evalOperands eval callee label frame done operands memory = some result) :
    setting.Reaches (setting.startOperands callee label done operands frame pending memory)
      (finished result pending) := by
  induction operands generalizing memory done with
  | nil => exact hsim.call h
  | cons operand rest ih => exact hsim.andThen (by simp) (fun _ _ hrest => ih hrest) h

theorem Outlasts.operands (hout : setting.Outlasts steps eval) (hsim : setting.Simulates eval)
    {callee : Value} {label : Option Name} {done : List Value} {operands : List NodeId}
    {frame : FrameId} {memory : Memory} {pending : List Pending}
    (h : setting.evalOperands eval callee label frame done operands memory = none) :
    setting.run steps (setting.startOperands callee label done operands frame pending memory) =
      none := by
  induction operands generalizing memory done with
  | nil => exact hout.call h
  | cons operand rest ih => exact hout.andThen hsim (fun _ _ hrest => ih hrest) h

theorem Simulates.apply (hsim : setting.Simulates eval) {operator : NodeId}
    {operands : Span NodeId} {frame : FrameId} {callee : Value} {memory : Memory}
    {result : Outcome × Memory} {pending : List Pending}
    (h : setting.evalApply eval operator operands frame callee memory = some result) :
    setting.Reaches
      (setting.resume (.operator operator operands frame) callee pending memory)
      (finished result pending) := by
  unfold evalApply at h
  simp only [resume]
  by_cases hc : callee.isCallable = true
  · rw [if_pos hc] at h ⊢
    cases hread : operands.read? setting.code.lists with
    | none => simp only [hread] at h ⊢; cases h; exact .refl _
    | some ids => simp only [hread] at h ⊢; exact hsim.operands h
  · rw [if_neg hc] at h ⊢
    cases h
    exact .refl _

theorem Outlasts.apply (hout : setting.Outlasts steps eval) (hsim : setting.Simulates eval)
    {operator : NodeId} {operands : Span NodeId} {frame : FrameId} {callee : Value}
    {memory : Memory} {pending : List Pending}
    (h : setting.evalApply eval operator operands frame callee memory = none) :
    setting.run steps
      (setting.resume (.operator operator operands frame) callee pending memory) = none := by
  unfold evalApply at h
  simp only [resume]
  by_cases hc : callee.isCallable = true
  · rw [if_pos hc] at h ⊢
    cases hread : operands.read? setting.code.lists with
    | none => simp only [hread] at h; cases h
    | some ids => simp only [hread] at h ⊢; exact hout.operands hsim h
  · rw [if_neg hc] at h
    cases h

/-- One level of evaluation is simulated when the level below it is. -/
theorem Simulates.node (hsim : setting.Simulates eval) :
    setting.Simulates (setting.evalNode eval) := by
  intro id frame memory result pending h
  refine .step ?_
  simp only [evalNode] at h
  simp only [Setting.step, startNode]
  cases hnode : setting.code.node? id with
  | none => simp only [hnode] at h; cases h; exact .refl _
  | some node =>
    simp only [hnode] at h
    cases node with
    | int | str | ident | lambda | unknown => cases h; exact .refl _
    | apply => exact hsim.andThen (by simp) (fun _ _ hrest => hsim.apply hrest) h
    | block items =>
      cases hread : items.read? setting.code.lists with
      | none => simp only [hread] at h ⊢; cases h; exact .refl _
      | some ids => simp only [hread] at h ⊢; exact hsim.block h
    | cond clauses =>
      cases hread : clauses.read? setting.code.clauses with
      | none => simp only [hread] at h ⊢; cases h; exact .refl _
      | some clauses => simp only [hread] at h ⊢; exact hsim.cond h
    | letIn => exact hsim.andThen (by simp) (fun _ _ hrest => hsim _ _ _ _ _ hrest) h
    | assign =>
      refine hsim.andThen (by simp) (fun _ _ hrest => ?_) h
      cases hrest
      exact .refl _

theorem Outlasts.node (hout : setting.Outlasts steps eval) (hsim : setting.Simulates eval) :
    setting.Outlasts (steps + 1) (setting.evalNode eval) := by
  intro id frame memory pending h
  show setting.run steps (setting.startNode id frame pending memory) = none
  simp only [evalNode] at h
  unfold startNode
  cases hnode : setting.code.node? id with
  | none => simp only [hnode] at h; cases h
  | some node =>
    simp only [hnode] at h
    cases node with
    | int | str | ident | lambda | unknown => cases h
    | apply => exact hout.andThen hsim (fun _ _ hrest => hout.apply hsim hrest) h
    | block items =>
      cases hread : items.read? setting.code.lists with
      | none => simp only [hread] at h; cases h
      | some ids => simp only [hread] at h ⊢; exact hout.block hsim h
    | cond clauses =>
      cases hread : clauses.read? setting.code.clauses with
      | none => simp only [hread] at h; cases h
      | some clauses => simp only [hread] at h ⊢; exact hout.cond hsim h
    | letIn => exact hout.andThen hsim (fun _ _ hrest => hout _ _ _ _ hrest) h
    | assign => exact hout.andThen hsim (fun _ _ hrest => by cases hrest) h

theorem simulates_eval (setting : Setting) (depth : Nat) :
    setting.Simulates (setting.eval depth) := by
  induction depth with
  | zero => intro id frame memory result pending h; cases h
  | succ depth ih => exact ih.node

theorem outlasts_eval (setting : Setting) (depth : Nat) :
    setting.Outlasts depth (setting.eval depth) := by
  induction depth with
  | zero => intro id frame memory pending _; rfl
  | succ depth ih => exact ih.node (simulates_eval setting depth)

/-! ### Agreement -/

/-- The machine comes to an outcome for a node exactly when some depth is enough. -/
theorem exists_run_eq_some_iff {id : NodeId} {frame : FrameId} {memory : Memory}
    {result : Outcome × Memory} :
    (∃ steps, setting.run steps ⟨.node id frame, [], memory⟩ = some result) ↔
      ∃ depth, setting.eval depth id frame memory = some result := by
  constructor
  · rintro ⟨steps, hrun⟩
    cases heval : setting.eval steps id frame memory with
    | none => rw [outlasts_eval setting steps _ _ _ _ heval] at hrun; cases hrun
    | some other =>
      obtain ⟨steps', hrun'⟩ := (simulates_eval setting steps _ _ _ _ [] heval).exists_run
      exact ⟨steps, by rw [heval, run_unique hrun hrun']⟩
  · rintro ⟨depth, heval⟩
    exact (simulates_eval setting depth _ _ _ _ [] heval).exists_run

/-- The machine comes to an outcome for a call exactly when some depth is enough. -/
theorem exists_run_startCall_eq_some_iff {callee : Value} {args : List Value} {caller : FrameId}
    {label : Option Name} {memory : Memory} {result : Outcome × Memory} :
    (∃ steps, setting.run steps (setting.startCall callee args caller label [] memory) =
        some result) ↔
      ∃ depth, setting.evalCall (setting.eval depth) callee args caller label memory =
        some result := by
  constructor
  · rintro ⟨steps, hrun⟩
    cases heval : setting.evalCall (setting.eval steps) callee args caller label memory with
    | none => rw [(outlasts_eval setting steps).call heval] at hrun; cases hrun
    | some other =>
      have hreach : setting.Reaches _ (finished other []) := (simulates_eval setting steps).call heval
      obtain ⟨steps', hrun'⟩ := hreach.exists_run
      exact ⟨steps, by rw [heval, run_unique hrun hrun']⟩
  · rintro ⟨depth, heval⟩
    have hreach : setting.Reaches _ (finished result []) := (simulates_eval setting depth).call heval
    exact hreach.exists_run

end FlatScope.Setting
