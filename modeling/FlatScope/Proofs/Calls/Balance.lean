import FlatScope.Eval.Agreement

/-!
# Every call that is opened is closed

The machine opens a call when it puts the end of that call among the pending parts, and closes it
when it takes that part off again.  So the calls that are open beyond those at the start are always
as many as the ends that are pending, and none is left when nothing is pending.
-/

namespace FlatScope

/-! ### Calls over a base -/

namespace CallStack

/-- No more calls are open than the limit admits. -/
def Within (calls : CallStack) : Prop := ∀ limit ∈ calls.limit, calls.depth ≤ limit

/-- Calls that were opened one after another over a base, each when the limit admitted it. -/
inductive Over (base : CallStack) : (opened : Nat) → CallStack → Prop where
  | base : Over base 0 base
  | enter {opened : Nat} {calls : CallStack} (label : Option Name) (below : Over base opened calls)
      (room : calls.overflow? = none) : Over base (opened + 1) (calls.enter label)

theorem Over.eq_base {base calls : CallStack} (h : Over base 0 calls) : calls = base := by
  cases h
  rfl

theorem Over.leave {base calls : CallStack} {opened : Nat} (h : Over base (opened + 1) calls) :
    Over base opened calls.leave := by
  cases h with
  | enter label below room =>
    rw [leave_enter]
    exact below

theorem Over.isEmpty_eq_false {base calls : CallStack} {opened : Nat}
    (h : Over base (opened + 1) calls) : calls.isEmpty = false := by
  cases h with
  | enter label below room => exact isEmpty_enter _ label

theorem Over.within {base calls : CallStack} {opened : Nat} (h : Over base opened calls)
    (hbase : base.Within) : calls.Within := by
  cases h with
  | base => exact hbase
  | @enter _ calls label below room =>
    intro limit hlimit
    have hlt : calls.depth < limit := overflow?_eq_none_iff.1 room limit hlimit
    rw [depth_enter]
    omega

end CallStack

/-! ### Pending ends of calls -/

/-- The number of ends of calls among pending parts. -/
def pendingEnds : List Pending → Nat
  | [] => 0
  | .leave :: rest => pendingEnds rest + 1
  | _ :: rest => pendingEnds rest

/-- The open calls of a machine are those of a base and one for every end that is pending. -/
def Machine.Balanced (base : CallStack) (machine : Machine) : Prop :=
  base.Over (pendingEnds machine.pending) machine.memory.calls

namespace Setting

variable {setting : Setting} {base : CallStack}

/-! ### What one step does to the open calls -/

theorem evalLambda_calls (params : Span Name) (body : NodeId) (frame : FrameId) (memory : Memory) :
    (setting.evalLambda params body frame memory).2.calls = memory.calls := by
  unfold evalLambda
  split <;> rfl

theorem assignName_calls (name : Name) (value : Value) (frame : FrameId) (memory : Memory) :
    (setting.assignName name value frame memory).2.calls = memory.calls := by
  unfold assignName
  split <;> rfl

/-- A call that is over at once opens no call; a call with a body to evaluate opens one. -/
theorem enter_calls (callee : Value) (args : List Value) (caller : FrameId) (label : Option Name)
    (memory : Memory) :
    (∃ outcome after, setting.enter callee args caller label memory = (.done outcome, after) ∧
        after.calls = memory.calls) ∨
      ∃ node frame after, setting.enter callee args caller label memory = (.body node frame, after) ∧
        memory.calls.overflow? = none ∧ after.calls = memory.calls.enter label := by
  cases callee with
  | closure closure =>
    simp only [enter, enterClosure]
    cases closure.checkCount setting.names args label with
    | error halt => exact .inl ⟨_, _, rfl, rfl⟩
    | ok =>
      cases closure.bindParams setting.names args with
      | error halt => exact .inl ⟨_, _, rfl, rfl⟩
      | ok bindings =>
        cases hroom : memory.calls.overflow? with
        | some fault => exact .inl ⟨_, _, rfl, rfl⟩
        | none => exact .inr ⟨_, _, _, rfl, rfl, rfl⟩
  | _ => exact .inl ⟨_, _, rfl, rfl⟩

theorem balanced_startBlock {items : List NodeId} {frame : FrameId} {pending : List Pending}
    {memory : Memory} (h : base.Over (pendingEnds pending) memory.calls) :
    (startBlock items frame pending memory).Balanced base := by
  unfold startBlock
  split <;> exact h

theorem balanced_startCond {clauses : List Clause} {frame : FrameId} {pending : List Pending}
    {memory : Memory} (h : base.Over (pendingEnds pending) memory.calls) :
    (startCond clauses frame pending memory).Balanced base := by
  unfold startCond
  split <;> exact h

theorem balanced_startCall {callee : Value} {args : List Value} {caller : FrameId}
    {label : Option Name} {pending : List Pending} {memory : Memory}
    (h : base.Over (pendingEnds pending) memory.calls) :
    (setting.startCall callee args caller label pending memory).Balanced base := by
  unfold startCall
  rcases setting.enter_calls callee args caller label memory with
    ⟨outcome, after, henter, hcalls⟩ | ⟨node, frame, after, henter, hroom, hcalls⟩
  · rw [henter]
    show base.Over (pendingEnds pending) after.calls
    rw [hcalls]
    exact h
  · -- The end of the call is put among the pending parts in the step that opens it.
    rw [henter]
    show base.Over (pendingEnds pending + 1) after.calls
    rw [hcalls]
    exact .enter label h hroom

theorem balanced_startOperands {callee : Value} {label : Option Name} {done : List Value}
    {operands : List NodeId} {frame : FrameId} {pending : List Pending} {memory : Memory}
    (h : base.Over (pendingEnds pending) memory.calls) :
    (setting.startOperands callee label done operands frame pending memory).Balanced base := by
  cases operands with
  | nil => exact balanced_startCall h
  | cons operand rest => exact h

theorem balanced_startNode {id : NodeId} {frame : FrameId} {pending : List Pending}
    {memory : Memory} (h : base.Over (pendingEnds pending) memory.calls) :
    (setting.startNode id frame pending memory).Balanced base := by
  unfold startNode
  cases setting.code.node? id with
  | none => exact h
  | some node =>
    cases node with
    | int | str | ident | apply | letIn | assign | unknown => exact h
    | lambda params body =>
      show base.Over (pendingEnds pending) (setting.evalLambda params body frame memory).2.calls
      rw [evalLambda_calls]
      exact h
    | block items =>
      simp only
      cases items.read? setting.code.lists with
      | none => exact h
      | some ids => exact balanced_startBlock h
    | cond clauses =>
      simp only
      cases clauses.read? setting.code.clauses with
      | none => exact h
      | some clauses => exact balanced_startCond h

theorem balanced_leave {outcome : Outcome} {pending : List Pending} {memory : Memory}
    (h : base.Over (pendingEnds pending + 1) memory.calls) :
    Machine.Balanced base ⟨.outcome (setting.leave outcome memory).1, pending,
      (setting.leave outcome memory).2⟩ := by
  unfold leave
  rw [h.isEmpty_eq_false]
  exact h.leave

theorem balanced_resume {part : Pending} {value : Value} {pending : List Pending}
    {memory : Memory} (h : base.Over (pendingEnds (part :: pending)) memory.calls) :
    (setting.resume part value pending memory).Balanced base := by
  cases part with
  | block rest frame => exact balanced_startBlock h
  | cond consequence rest frame =>
    simp only [resume]
    cases value.test with
    | error fault => exact h
    | ok test =>
      cases test with
      | true => exact h
      | false => exact balanced_startCond h
  | letIn name body frame => exact h
  | assign name frame =>
    show base.Over (pendingEnds pending) (setting.assignName name value frame memory).2.calls
    rw [assignName_calls]
    exact h
  | operator operator operands frame =>
    simp only [resume]
    by_cases hc : value.isCallable = true
    · rw [if_pos hc]
      cases operands.read? setting.code.lists with
      | none => exact h
      | some ids => exact balanced_startOperands h
    · rw [if_neg hc]
      exact h
  | operand callee label done rest frame => exact balanced_startOperands h
  | leave => exact balanced_leave h

theorem balanced_unwind {part : Pending} {halt : Halt} {pending : List Pending} {memory : Memory}
    (h : base.Over (pendingEnds (part :: pending)) memory.calls) :
    (setting.unwind part halt pending memory).Balanced base := by
  cases part with
  | leave => exact balanced_leave h
  | _ => exact h

theorem balanced_step {machine : Machine} (h : machine.Balanced base) :
    (setting.step machine).Balanced base := by
  obtain ⟨focus, pending, memory⟩ := machine
  cases focus with
  | node id frame => exact balanced_startNode h
  | outcome outcome =>
    cases pending with
    | nil => exact h
    | cons part pending =>
      cases outcome with
      | ok value => exact balanced_resume h
      | error halt => exact balanced_unwind h

/-! ### Whole runs -/

theorem Reaches.balanced {first last : Machine} (hreach : setting.Reaches first last)
    (h : first.Balanced base) : last.Balanced base := by
  induction hreach with
  | refl => exact h
  | step _ ih => exact ih (balanced_step h)

theorem reaches_of_run {steps : Nat} {machine : Machine} {outcome : Outcome} {memory : Memory}
    (h : setting.run steps machine = some (outcome, memory)) :
    setting.Reaches machine ⟨.outcome outcome, [], memory⟩ := by
  induction steps generalizing machine with
  | zero => cases h
  | succ steps ih =>
    rcases run_succ setting steps machine with ⟨outcome', memory', rfl⟩ | hstep
    · cases h
      exact .refl _
    · rw [hstep] at h
      exact .step (ih h)

/-- What a run is asked for: the outcome of a node, or of a call. -/
inductive Request where
  | eval (id : NodeId) (frame : FrameId)
  | call (callee : Value) (args : List Value) (caller : FrameId) (label : Option Name)

def start (setting : Setting) (request : Request) (memory : Memory) : Machine :=
  match request with
  | .eval id frame => ⟨.node id frame, [], memory⟩
  | .call callee args caller label => setting.startCall callee args caller label [] memory

theorem balanced_start (request : Request) (memory : Memory) :
    (setting.start request memory).Balanced memory.calls := by
  cases request with
  | eval id frame => exact .base
  | call callee args caller label => exact balanced_startCall .base

theorem run_start_calls {request : Request} {memory after : Memory} {steps : Nat}
    {outcome : Outcome} (h : setting.run steps (setting.start request memory) = some (outcome, after)) :
    after.calls = memory.calls := by
  have hlast := (reaches_of_run h).balanced (balanced_start request memory)
  exact hlast.eq_base

/-! ### Sessions -/

/-- The memories of an interpreter for given code, scoping and limit: as it is built, after requests
that came to an outcome, and after changes of the frames from outside.  The table of names can be
another one at every request. -/
inductive Session (code : Code) (scoping : Scoping) (limit : Option Nat) : Memory → Prop where
  | built (store : Store) : Session code scoping limit ⟨store, .new limit⟩
  | answered {memory after : Memory} {names : NameTable} {request : Request} {steps : Nat}
      {outcome : Outcome} (before : Session code scoping limit memory)
      (answer : run ⟨code, names, scoping⟩ steps (start ⟨code, names, scoping⟩ request memory) =
        some (outcome, after)) : Session code scoping limit after
  | changed {memory : Memory} (store : Store) (before : Session code scoping limit memory) :
      Session code scoping limit ⟨store, memory.calls⟩

theorem Session.calls_eq_new {code : Code} {scoping : Scoping} {limit : Option Nat}
    {memory : Memory} (h : Session code scoping limit memory) : memory.calls = .new limit := by
  induction h with
  | built => rfl
  | answered _ answer ih => exact (run_start_calls answer).trans ih
  | changed _ _ ih => exact ih

/-- The calls that are open at the end of a run are those at its start; at no moment of the run are
they more than the limit admits, and no call is closed when none is open.  So an interpreter that
has answered any requests answers the next one as a new interpreter does. -/
theorem open_calls_balanced_within_limit (setting : Setting) (request : Request) (memory : Memory)
    (hwithin : memory.calls.Within) :
    (∀ steps outcome after,
      setting.run steps (setting.start request memory) = some (outcome, after) →
        after.calls = memory.calls) ∧
    (∀ machine, setting.Reaches (setting.start request memory) machine →
      machine.memory.calls.Within ∧
        ∀ outcome pending, machine.focus = .outcome outcome → machine.pending = .leave :: pending →
          machine.memory.calls.isEmpty = false) ∧
    ∀ limit current, Session setting.code setting.scoping limit current →
      ∀ next steps, setting.run steps (setting.start next current) =
        setting.run steps (setting.start next ⟨current.store, .new limit⟩) := by
  refine ⟨fun steps outcome after hrun => run_start_calls hrun, ?_, ?_⟩
  · intro machine hreach
    have hbalanced := hreach.balanced (balanced_start request memory)
    refine ⟨hbalanced.within hwithin, ?_⟩
    intro outcome pending _ hpending
    unfold Machine.Balanced at hbalanced
    rw [hpending] at hbalanced
    exact hbalanced.isEmpty_eq_false
  · -- A session leaves no call open, so its memory is that of a new interpreter with its frames.
    intro limit current hsession next steps
    obtain ⟨store, calls⟩ := current
    have hcalls : calls = .new limit := hsession.calls_eq_new
    rw [hcalls]

/-- A lambda whose body calls it again, in code that refers to itself. -/
def endless : Setting :=
  ⟨⟨#[.lambda ⟨0, 0⟩ ⟨1⟩, .apply ⟨0⟩ ⟨0, 0⟩], #[], #[], #[]⟩, .new, .lexical⟩

/-- Endless recursion runs into a limit of three calls, of which one is open at the start. -/
theorem open_calls_balanced_endless :
    (⟨#[none], some 3⟩ : CallStack).Within ∧
      ∃ backtrace after,
        endless.run 12 (endless.start (.eval ⟨1⟩ ⟨0⟩) ⟨.empty, ⟨#[none], some 3⟩⟩) =
            some (.error (.raised ⟨.stackOverflow 3, backtrace⟩), after) ∧
          after.calls = ⟨#[none], some 3⟩ := by
  have hwithin : (⟨#[none], some 3⟩ : CallStack).Within := by
    intro limit hlimit
    cases hlimit
    decide
  have hrun : endless.run 12 (endless.start (.eval ⟨1⟩ ⟨0⟩) ⟨.empty, ⟨#[none], some 3⟩⟩) =
      some (.error (.raised ⟨.stackOverflow 3, some ⟨["<lambda>", "<lambda>", "<lambda>"]⟩⟩),
        ⟨⟨#[], 3⟩, ⟨#[none], some 3⟩⟩) := rfl
  have hall := open_calls_balanced_within_limit endless (.eval ⟨1⟩ ⟨0⟩)
    ⟨.empty, ⟨#[none], some 3⟩⟩ hwithin
  exact ⟨hwithin, _, _, hrun, hall.1 12 _ _ hrun⟩

end Setting

end FlatScope
