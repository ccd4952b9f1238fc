import FlatScope.Proofs.Calls.Balance

/-!
# Faults that are recorded where they arise

`Setting.recorded` evaluates with the open calls as an argument that is handed down and never
changed: a call hands its body one call more.  Every fault gets the backtrace of the calls that are
open at the place where it arises, and no call that it leaves on its way out does anything to it.
Evaluation attaches a backtrace later, when a fault leaves the innermost call it arose in, and the
calls further out leave it alone.  Since every evaluation gives back the open calls it was given, both
come to the same outcomes (`records_eval`).
-/

namespace FlatScope

/-- An outcome with the store after it, unless the depth was too small. -/
abbrev Progress : Type := Option (Outcome × Store)

/-- Goes on with a value; a halt stays as it is. -/
def Progress.andThen (progress : Progress) (next : Value → Store → Progress) : Progress :=
  match progress with
  | some (.ok value, store) => next value store
  | some (.error halt, store) => some (.error halt, store)
  | none => none

/-- The evaluation of nodes in frames under open calls, of which the innermost comes first. -/
abbrev Recorder : Type := (active : List (Option Name)) → NodeId → FrameId → Store → Progress

namespace Setting

/-! ### Evaluation under open calls -/

/-- The backtrace of open calls; there is none when no call is open. -/
def backtraceOf? (setting : Setting) : (active : List (Option Name)) → Option (Option Backtrace)
  | [] => some none
  | label :: rest =>
    (CallStack.labelTexts? setting.names (label :: rest)).map fun texts => some ⟨texts⟩

/-- An outcome that arises under open calls: a fault is recorded with their backtrace. -/
def raise (setting : Setting) (active : List (Option Name)) : Outcome → Outcome
  | .ok value => .ok value
  | .error (.breach breach) => .error (.breach breach)
  | .error (.raised raised) =>
    match setting.backtraceOf? active with
    | some backtrace => .error (.raised ⟨raised.fault, backtrace⟩)
    | none => .error (.breach .name)

def recordedBlock (eval : Recorder) (active : List (Option Name)) (frame : FrameId) :
    List NodeId → Store → Progress
  | [], store => some (.ok (.bool false), store)
  | [last], store => eval active last frame store
  | item :: rest, store => (eval active item frame store).andThen fun _ store =>
    recordedBlock eval active frame rest store

def recordedCond (setting : Setting) (eval : Recorder) (active : List (Option Name))
    (frame : FrameId) : List Clause → Store → Progress
  | [], store => some (.ok (.bool false), store)
  | clause :: rest, store => (eval active clause.test frame store).andThen fun value store =>
    match value.test with
    | .error fault => some (setting.raise active (.error (.fault fault)), store)
    | .ok true => eval active clause.consequence frame store
    | .ok false => setting.recordedCond eval active frame rest store

/-- A call.  A callee that is refused is not among the open calls yet. -/
def recordedCall (setting : Setting) (limit : Option Nat) (eval : Recorder)
    (active : List (Option Name)) (callee : Value) (args : List Value) (caller : FrameId)
    (label : Option Name) (store : Store) : Progress :=
  match callee with
  | .native native => some (setting.raise active (.ofFault (native.call args)), store)
  | .closure closure =>
    match closure.checkCount setting.names args label with
    | .error halt => some (setting.raise active (.error halt), store)
    | .ok () =>
      match closure.bindParams setting.names args with
      | .error halt => some (setting.raise active (.error halt), store)
      | .ok bindings =>
        let (frame, store) := store.extend (setting.baseFrame closure caller) bindings
        match limit.filter (· ≤ active.length) with
        | some bound => some (setting.raise active (.error (.fault (.stackOverflow bound))), store)
        | none => eval (label :: active) closure.body frame store
  | other => some (setting.raise active (.error (.fault (.notCallable other.typeName))), store)

/-- The operands of an application, then the call; `done` holds the arguments so far, the last one
first. -/
def recordedOperands (setting : Setting) (limit : Option Nat) (eval : Recorder)
    (active : List (Option Name)) (callee : Value) (label : Option Name) (frame : FrameId)
    (done : List Value) : List NodeId → Store → Progress
  | [], store => setting.recordedCall limit eval active callee done.reverse frame label store
  | operand :: rest, store => (eval active operand frame store).andThen fun value store =>
    setting.recordedOperands limit eval active callee label frame (value :: done) rest store

def recordedApply (setting : Setting) (limit : Option Nat) (eval : Recorder)
    (active : List (Option Name)) (operator : NodeId) (operands : Span NodeId) (frame : FrameId)
    (callee : Value) (store : Store) : Progress :=
  if callee.isCallable then
    match operands.read? setting.code.lists with
    | some operands =>
      setting.recordedOperands limit eval active callee (setting.code.callLabel operator) frame []
        operands store
    | none => some (.error (.breach .span), store)
  else some (setting.raise active (.error (.fault (.notCallable callee.typeName))), store)

def recordedNode (setting : Setting) (limit : Option Nat) (eval : Recorder) : Recorder :=
  fun active id frame store =>
    match setting.code.node? id with
    | none => some (setting.raise active (.error (.fault (.unknownForm id.describe))), store)
    | some (.int literal) => some (setting.raise active (evalInt literal), store)
    | some (.str text) => some (setting.raise active (setting.evalStr text), store)
    | some (.ident name) =>
      match store.lookup frame name with
      | some value => some (.ok value, store)
      | none =>
        some (setting.raise active (.error (setting.names.faultFor name .unboundIdentifier)), store)
    | some (.apply operator operands) =>
      (eval active operator frame store).andThen fun callee store =>
        setting.recordedApply limit eval active operator operands frame callee store
    | some (.lambda params body) =>
      match params.read? setting.code.params with
      | some params =>
        let (closure, store) := store.newClosure params body frame
        some (.ok (.closure closure), store)
      | none => some (.error (.breach .span), store)
    | some (.block items) =>
      match items.read? setting.code.lists with
      | some items => recordedBlock eval active frame items store
      | none => some (.error (.breach .span), store)
    | some (.cond clauses) =>
      match clauses.read? setting.code.clauses with
      | some clauses => setting.recordedCond eval active frame clauses store
      | none => some (.error (.breach .span), store)
    | some (.letIn name init body) =>
      (eval active init frame store).andThen fun value store =>
        let (scope, store) := store.extend frame [(name, value)]
        eval active body scope store
    | some (.assign name value) =>
      (eval active value frame store).andThen fun value store =>
        if store.contains frame name then some (.ok value, store.reassign frame name value)
        else
          some (setting.raise active (.error (setting.names.faultFor name .unassignedVariable)), store)
    | some (.unknown tag) => some (setting.raise active (setting.evalUnknown tag), store)

/-- Evaluation under open calls, with at most `depth` evaluations nested in each other. -/
def recorded (setting : Setting) (limit : Option Nat) : (depth : Nat) → Recorder
  | 0 => fun _ _ _ _ => none
  | depth + 1 => setting.recordedNode limit (setting.recorded limit depth)

end Setting

/-! ### Open calls as a list -/

namespace CallStack

/-- The open calls, the innermost first. -/
def active (calls : CallStack) : List (Option Name) := calls.frames.toList.reverse

theorem active_new (limit : Option Nat) : (new limit).active = [] := rfl

theorem active_enter (calls : CallStack) (label : Option Name) :
    (calls.enter label).active = label :: calls.active := by
  simp [enter, active]

theorem length_active (calls : CallStack) : calls.active.length = calls.depth := by
  simp [active, depth]

theorem isEmpty_eq_active (calls : CallStack) : calls.isEmpty = calls.active.isEmpty := by
  simp [isEmpty, active]

theorem overflow?_eq_map (calls : CallStack) :
    calls.overflow? = (calls.limit.filter (· ≤ calls.active.length)).map .stackOverflow := by
  unfold overflow?
  rw [length_active]
  cases calls.limit with
  | none => rfl
  | some bound => by_cases h : bound ≤ calls.depth <;> simp [Option.filter, h]

end CallStack

/-! ### Faults on their way out -/

/-- The outcome is no fault, or a fault that no backtrace was attached to. -/
def Outcome.Fresh (outcome : Outcome) : Prop :=
  ∀ raised, outcome = .error (.raised raised) → raised.backtrace = none

theorem Outcome.fresh_ofFault (result : Except Fault Value) : (Outcome.ofFault result).Fresh := by
  intro raised h
  cases result <;> cases h
  rfl

theorem Outcome.fresh_fault (fault : Fault) : Outcome.Fresh (.error (.fault fault)) := by
  intro raised h
  cases h
  rfl

theorem Outcome.fresh_faultFor (names : NameTable) (name : Name) (fault : String → Fault) :
    Outcome.Fresh (.error (names.faultFor name fault)) := by
  intro raised h
  unfold NameTable.faultFor at h
  split at h <;> cases h
  rfl

theorem Closure.fresh_checkCount {closure : Closure} {names : NameTable} {args : List Value}
    {label : Option Name} {halt : Halt} (h : closure.checkCount names args label = .error halt) :
    Outcome.Fresh (.error halt) := by
  unfold checkCount at h
  split at h
  · cases h
  · split at h <;> cases h
    · exact Outcome.fresh_fault _
    · intro raised hraised
      cases hraised

theorem Closure.fresh_pairUp {names : NameTable} {done : Bindings} {params : List Name}
    {args : List Value} {halt : Halt} (h : pairUp names done params args = .error halt) :
    Outcome.Fresh (.error halt) := by
  induction params generalizing done args with
  | nil => cases h
  | cons param params ih =>
    cases args with
    | nil => cases h
    | cons arg args =>
      unfold pairUp at h
      split at h
      · cases h
        exact Outcome.fresh_faultFor _ _ _
      · exact ih h

namespace Setting

variable {setting : Setting}

theorem attach?_of_isEmpty {calls : CallStack} (raised : Raised) (h : calls.active = []) :
    calls.attach? setting.names raised = some raised := by
  simp [CallStack.attach?, CallStack.isEmpty_eq_active, h]

theorem leaveOutcome_of_fresh {outcome : Outcome} (calls : CallStack) (h : outcome.Fresh) :
    setting.leaveOutcome calls outcome = setting.raise calls.active outcome := by
  rcases outcome with (raised | breach) | value
  · obtain ⟨fault, backtrace⟩ := raised
    have hnone : backtrace = none := h _ rfl
    subst hnone
    cases hactive : calls.active with
    | nil => simp [leaveOutcome, attach, attach?_of_isEmpty _ hactive, raise, backtraceOf?]
    | cons label rest =>
      have hempty : calls.isEmpty = false := by simp [CallStack.isEmpty_eq_active, hactive]
      have hcapture : calls.capture? setting.names =
          (CallStack.labelTexts? setting.names (label :: rest)).map Backtrace.mk := by
        rw [← hactive]
        rfl
      simp only [leaveOutcome, attach, CallStack.attach?, hempty, hcapture, raise, backtraceOf?]
      cases CallStack.labelTexts? setting.names (label :: rest) <;> rfl
  · rfl
  · rfl

theorem leaveOutcome_new (limit : Option Nat) (outcome : Outcome) :
    setting.leaveOutcome (.new limit) outcome = outcome := by
  rcases outcome with (raised | breach) | value
  · simp only [leaveOutcome, attach, attach?_of_isEmpty raised (CallStack.active_new limit)]
  · rfl
  · rfl

/-- A call further out leaves a fault alone that has left the call inside it. -/
theorem leaveOutcome_leaveOutcome_enter (calls inner : CallStack) (label : Option Name)
    (outcome : Outcome) :
    setting.leaveOutcome calls (setting.leaveOutcome (inner.enter label) outcome) =
      setting.leaveOutcome (inner.enter label) outcome := by
  rcases outcome with (raised | breach) | value
  · obtain ⟨fault, backtrace⟩ := raised
    cases backtrace with
    | some backtrace => simp [leaveOutcome, attach, CallStack.attach?]
    | none =>
      simp only [leaveOutcome, attach, CallStack.attach?, CallStack.isEmpty_enter]
      cases (inner.enter label).capture? setting.names with
      | none => rfl
      | some captured => simp
  · rfl
  · rfl

theorem leaveOutcome_leaveOutcome (calls : CallStack) (outcome : Outcome) :
    setting.leaveOutcome calls (setting.leaveOutcome calls outcome) =
      setting.leaveOutcome calls outcome := by
  rcases outcome with (raised | breach) | value
  · obtain ⟨fault, backtrace⟩ := raised
    simp only [leaveOutcome, attach]
    cases hattach : calls.attach? setting.names ⟨fault, backtrace⟩ with
    | none => rfl
    | some attached =>
      simp only
      have hagain : calls.attach? setting.names attached = some attached := by
        unfold CallStack.attach? at hattach ⊢
        split at hattach
        · rename_i hdone
          cases hattach
          rw [if_pos hdone]
        · obtain ⟨captured, _, rfl⟩ := Option.map_eq_some_iff.1 hattach
          simp
      rw [hagain]
  · rfl
  · rfl

/-! ### Recording and attaching come to the same -/

/-- What an attempt comes to when a fault in it leaves the innermost of the given calls. -/
def settle (setting : Setting) (calls : CallStack) (attempt : Attempt) : Progress :=
  attempt.map fun result => (setting.leaveOutcome calls result.1, result.2.store)

/-- An evaluator that gives back the open calls it was given. -/
def Restores (eval : Evaluator) : Prop :=
  ∀ id frame memory outcome after, eval id frame memory = some (outcome, after) →
    after.calls = memory.calls

theorem restores_eval (setting : Setting) (depth : Nat) : Restores (setting.eval depth) := by
  intro id frame memory outcome after h
  obtain ⟨steps, hrun⟩ := exists_run_eq_some_iff.2 ⟨depth, h⟩
  have hstart : setting.run steps (setting.start (.eval id frame) memory) = some (outcome, after) :=
    hrun
  exact run_start_calls hstart

/-- A recorder records where it arises what an evaluator attaches later. -/
def Records (setting : Setting) (limit : Option Nat) (eval : Evaluator) (recorder : Recorder) :
    Prop :=
  ∀ calls id frame store, calls.limit = limit →
    recorder calls.active id frame store = setting.settle calls (eval id frame ⟨store, calls⟩)

theorem settle_some (calls : CallStack) (outcome : Outcome) (memory : Memory) :
    setting.settle calls (some (outcome, memory)) =
      some (setting.leaveOutcome calls outcome, memory.store) := rfl

/-- A fresh outcome is recorded at once or attached later with the same result. -/
theorem raise_eq_settle {outcome : Outcome} (calls : CallStack) (store : Store)
    (h : outcome.Fresh) :
    some (setting.raise calls.active outcome, store) =
      setting.settle calls (some (outcome, ⟨store, calls⟩)) := by
  rw [settle_some, leaveOutcome_of_fresh calls h]

theorem settle_andThen {calls : CallStack} {attempt : Attempt} {next : Value → Memory → Attempt}
    (hcalls : ∀ outcome after, attempt = some (outcome, after) → after.calls = calls) :
    setting.settle calls (attempt.andThen next) =
      (setting.settle calls attempt).andThen fun value store =>
        setting.settle calls (next value ⟨store, calls⟩) := by
  -- Only a value goes on; a halt is settled under the same calls on either side.
  rcases attempt with _ | ⟨halt | value, memory⟩
  · rfl
  · rfl
  · have hmemory : memory = ⟨memory.store, calls⟩ := by
      rw [← hcalls _ _ rfl]
    show setting.settle calls (next value memory) =
      setting.settle calls (next value ⟨memory.store, calls⟩)
    rw [← hmemory]

variable {limit : Option Nat} {eval : Evaluator} {recorder : Recorder}

theorem Records.andThen (hrec : setting.Records limit eval recorder) (hrestores : Restores eval)
    {calls : CallStack} (hlimit : calls.limit = limit) {id : NodeId} {frame : FrameId}
    {store : Store} {next : Value → Store → Progress} {next' : Value → Memory → Attempt}
    (hnext : ∀ value store, next value store = setting.settle calls (next' value ⟨store, calls⟩)) :
    (recorder calls.active id frame store).andThen next =
      setting.settle calls ((eval id frame ⟨store, calls⟩).andThen next') := by
  have hcalls : ∀ outcome after, eval id frame ⟨store, calls⟩ = some (outcome, after) →
      after.calls = calls := fun outcome after h => hrestores _ _ _ _ _ h
  rw [settle_andThen hcalls, hrec calls id frame store hlimit]
  congr 1
  funext value store
  exact hnext value store

theorem Records.block (hrec : setting.Records limit eval recorder) (hrestores : Restores eval)
    {calls : CallStack} (hlimit : calls.limit = limit) (frame : FrameId) (items : List NodeId)
    (store : Store) :
    recordedBlock recorder calls.active frame items store =
      setting.settle calls (eval.block frame items ⟨store, calls⟩) := by
  induction items generalizing store with
  | nil => rfl
  | cons item rest ih =>
    cases rest with
    | nil => exact hrec calls item frame store hlimit
    | cons next rest => exact hrec.andThen hrestores hlimit fun _ store => ih store

theorem Records.cond (hrec : setting.Records limit eval recorder) (hrestores : Restores eval)
    {calls : CallStack} (hlimit : calls.limit = limit) (frame : FrameId) (clauses : List Clause)
    (store : Store) :
    setting.recordedCond recorder calls.active frame clauses store =
      setting.settle calls (eval.cond frame clauses ⟨store, calls⟩) := by
  induction clauses generalizing store with
  | nil => rfl
  | cons clause rest ih =>
    refine hrec.andThen hrestores hlimit fun value store => ?_
    cases value.test with
    | error fault => exact raise_eq_settle calls _ (Outcome.fresh_fault fault)
    | ok test =>
      cases test with
      | true => exact hrec calls clause.consequence frame store hlimit
      | false => exact ih store

/-- The body of a call: what leaving it attaches, no call further out attaches again. -/
theorem Records.body (hrec : setting.Records limit eval recorder) (hrestores : Restores eval)
    {calls : CallStack} (hlimit : calls.limit = limit) (label : Option Name) (body : NodeId)
    (frame : FrameId) (store : Store) :
    recorder (label :: calls.active) body frame store =
      setting.settle calls ((eval body frame ⟨store, calls.enter label⟩).map fun (outcome, memory) =>
        setting.leave outcome memory) := by
  have henter : (calls.enter label).limit = limit := hlimit
  rw [← CallStack.active_enter, hrec (calls.enter label) body frame store henter]
  cases heval : eval body frame ⟨store, calls.enter label⟩ with
  | none => rfl
  | some result =>
    obtain ⟨outcome, after⟩ := result
    have hcalls : after.calls = calls.enter label := hrestores _ _ _ _ _ heval
    have hleave : setting.leave outcome after =
        (setting.leaveOutcome (calls.enter label) outcome, ⟨after.store, calls⟩) := by
      simp [leave, hcalls]
    simp only [Option.map_some, hleave, settle_some, leaveOutcome_leaveOutcome_enter]

theorem Records.call (hrec : setting.Records limit eval recorder) (hrestores : Restores eval)
    {calls : CallStack} (hlimit : calls.limit = limit) (callee : Value) (args : List Value)
    (caller : FrameId) (label : Option Name) (store : Store) :
    setting.recordedCall limit recorder calls.active callee args caller label store =
      setting.settle calls (setting.evalCall eval callee args caller label ⟨store, calls⟩) := by
  cases callee with
  | native native => exact raise_eq_settle calls _ (Outcome.fresh_ofFault _)
  | int | str | bool => exact raise_eq_settle calls _ (Outcome.fresh_fault _)
  | closure closure =>
    simp only [recordedCall, evalCall, enter, enterClosure]
    cases hcount : closure.checkCount setting.names args label with
    | error halt => exact raise_eq_settle calls _ (Closure.fresh_checkCount hcount)
    | ok =>
      simp only
      cases hpairs : closure.bindParams setting.names args with
      | error halt => exact raise_eq_settle calls _ (Closure.fresh_pairUp hpairs)
      | ok bindings =>
        simp only [CallStack.overflow?_eq_map, hlimit]
        cases hfull : limit.filter (· ≤ calls.active.length) with
        | none => exact hrec.body hrestores hlimit label closure.body _ _
        | some bound =>
          -- A refused call gets its backtrace where it is refused, from the same calls.
          have hfresh := Outcome.fresh_fault (.stackOverflow bound)
          simp only [Option.map_some, settle_some]
          rw [← leaveOutcome_of_fresh calls hfresh]
          exact congrArg (fun outcome => some (outcome, _))
            (leaveOutcome_leaveOutcome calls (.error (.fault (.stackOverflow bound)))).symm

theorem Records.operands (hrec : setting.Records limit eval recorder) (hrestores : Restores eval)
    {calls : CallStack} (hlimit : calls.limit = limit) (callee : Value) (label : Option Name)
    (frame : FrameId) (done : List Value) (operands : List NodeId) (store : Store) :
    setting.recordedOperands limit recorder calls.active callee label frame done operands store =
      setting.settle calls
        (setting.evalOperands eval callee label frame done operands ⟨store, calls⟩) := by
  induction operands generalizing done store with
  | nil => exact hrec.call hrestores hlimit callee done.reverse frame label store
  | cons operand rest ih => exact hrec.andThen hrestores hlimit fun value store => ih _ store

theorem Records.apply (hrec : setting.Records limit eval recorder) (hrestores : Restores eval)
    {calls : CallStack} (hlimit : calls.limit = limit) (operator : NodeId)
    (operands : Span NodeId) (frame : FrameId) (callee : Value) (store : Store) :
    setting.recordedApply limit recorder calls.active operator operands frame callee store =
      setting.settle calls
        (setting.evalApply eval operator operands frame callee ⟨store, calls⟩) := by
  unfold recordedApply evalApply
  by_cases hcallable : callee.isCallable = true
  · rw [if_pos hcallable, if_pos hcallable]
    cases operands.read? setting.code.lists with
    | none => rfl
    | some ids => exact hrec.operands hrestores hlimit callee _ frame [] ids store
  · rw [if_neg hcallable, if_neg hcallable]
    exact raise_eq_settle calls _ (Outcome.fresh_fault _)

theorem Records.node (hrec : setting.Records limit eval recorder) (hrestores : Restores eval) :
    setting.Records limit (setting.evalNode eval) (setting.recordedNode limit recorder) := by
  intro calls id frame store hlimit
  simp only [recordedNode, evalNode]
  cases setting.code.node? id with
  | none => exact raise_eq_settle calls _ (Outcome.fresh_fault _)
  | some node =>
    cases node with
    | int literal => exact raise_eq_settle calls _ (Outcome.fresh_ofFault _)
    | str text =>
      refine raise_eq_settle calls _ ?_
      intro raised h
      unfold evalStr at h
      split at h <;> cases h
    | ident name =>
      simp only [evalIdent]
      cases store.lookup frame name with
      | some value => rfl
      | none => exact raise_eq_settle calls _ (Outcome.fresh_faultFor _ _ _)
    | apply operator operands =>
      exact hrec.andThen hrestores hlimit fun callee store =>
        hrec.apply hrestores hlimit operator operands frame callee store
    | lambda params body =>
      simp only [evalLambda]
      cases params.read? setting.code.params <;> rfl
    | block items =>
      simp only
      cases items.read? setting.code.lists with
      | none => rfl
      | some ids => exact hrec.block hrestores hlimit frame ids store
    | cond clauses =>
      simp only
      cases clauses.read? setting.code.clauses with
      | none => rfl
      | some clauses => exact hrec.cond hrestores hlimit frame clauses store
    | letIn name init body =>
      exact hrec.andThen hrestores hlimit fun value store => hrec calls body _ _ hlimit
    | assign name value =>
      refine hrec.andThen hrestores hlimit fun value store => ?_
      simp only [assignName]
      by_cases hbound : store.contains frame name = true
      · rw [if_pos hbound, if_pos hbound]
        rfl
      · rw [if_neg hbound, if_neg hbound]
        exact raise_eq_settle calls _ (Outcome.fresh_faultFor _ _ _)
    | unknown tag => exact raise_eq_settle calls _ (Outcome.fresh_faultFor _ _ _)

theorem records_eval (setting : Setting) (limit : Option Nat) (depth : Nat) :
    setting.Records limit (setting.eval depth) (setting.recorded limit depth) := by
  induction depth with
  | zero =>
    intro calls id frame store _
    rfl
  | succ depth ih => exact ih.node (restores_eval setting depth)

end Setting

end FlatScope
