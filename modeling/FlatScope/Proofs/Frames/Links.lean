import FlatScope.Eval.Machine

/-!
# Links that nothing consults

Every frame keeps a link to the frame that was made from it last.  Nothing but `Store.latest?` reads
the links: operations and evaluation do the same from two stores that differ in links alone, and lead
to stores that again differ in links alone (`EqualButLinks.interchangeable`).
-/

namespace FlatScope

/-! ### Stores without links -/

namespace Store

/-- A store with all its links taken away. -/
def unlinked (store : Store) : Store :=
  { store with frames := store.frames.map fun frame => { frame with next := none } }

/-- Two stores differ in their links alone. -/
def EqualButLinks (first second : Store) : Prop := first.unlinked = second.unlinked

@[simp] theorem unlinked_unlinked (store : Store) : store.unlinked.unlinked = store.unlinked := by
  simp [unlinked]

@[simp] theorem bindings_unlinked (store : Store) (id : FrameId) :
    store.unlinked.bindings id = store.bindings id := by
  unfold bindings frame? unlinked
  cases h : store.frames[id.index]? <;> simp [h]

@[simp] theorem lookup_unlinked (store : Store) (id : FrameId) (name : Name) :
    store.unlinked.lookup id name = store.lookup id name := by
  rw [lookup, bindings_unlinked, lookup]

@[simp] theorem contains_unlinked (store : Store) (id : FrameId) (name : Name) :
    store.unlinked.contains id name = store.contains id name := by
  rw [contains, bindings_unlinked, contains]

@[simp] theorem unlinked_newClosure (store : Store) (params : List Name) (body : NodeId)
    (frame : FrameId) :
    store.unlinked.newClosure params body frame =
      ((store.newClosure params body frame).1, (store.newClosure params body frame).2.unlinked) :=
  rfl

@[simp] theorem unlinked_newFrame (store : Store) (bindings : Bindings) :
    store.unlinked.newFrame bindings =
      ((store.newFrame bindings).1, (store.newFrame bindings).2.unlinked) := by
  simp [newFrame, unlinked]

@[simp] theorem unlinked_update (store : Store) (id : FrameId) (change : Bindings → Bindings) :
    store.unlinked.update id change = (store.update id change).unlinked := by
  unfold update unlinked
  congr 1
  refine Array.ext_getElem? fun i => ?_
  by_cases h : id.index = i <;> cases hi : store.frames[i]? <;> simp [Array.getElem?_modify, h, hi]

@[simp] theorem unlinked_link (store : Store) (id next : FrameId) :
    (store.link id next).unlinked = store.unlinked := by
  unfold link unlinked
  congr 1
  refine Array.ext_getElem? fun i => ?_
  by_cases h : id.index = i <;> cases hi : store.frames[i]? <;> simp [Array.getElem?_modify, h, hi]

@[simp] theorem unlinked_reassign (store : Store) (id : FrameId) (name : Name) (value : Value) :
    store.unlinked.reassign id name value = (store.reassign id name value).unlinked :=
  unlinked_update store id _

/-- The frame for a scope is the same without links; but a link to it is made. -/
theorem extend_unlinked (store : Store) (base : FrameId) (added : Bindings) :
    (store.unlinked.extend base added).1 = (store.extend base added).1 ∧
      (store.unlinked.extend base added).2.unlinked = (store.extend base added).2.unlinked := by
  cases added with
  | nil => exact ⟨rfl, unlinked_unlinked store⟩
  | cons entry rest => simp [extend]

end Store

/-! ### Steps without links -/

def Memory.unlinked (memory : Memory) : Memory := { memory with store := memory.store.unlinked }

@[simp] theorem Memory.unlinked_unlinked (memory : Memory) :
    memory.unlinked.unlinked = memory.unlinked := by
  simp [unlinked]

def Machine.unlinked (machine : Machine) : Machine :=
  { machine with memory := machine.memory.unlinked }

namespace Setting

theorem unlinked_enterClosure (setting : Setting) (closure : Closure) (args : List Value)
    (caller : FrameId) (label : Option Name) (memory : Memory) :
    (setting.enterClosure closure args caller label memory.unlinked).1 =
        (setting.enterClosure closure args caller label memory).1 ∧
      (setting.enterClosure closure args caller label memory.unlinked).2.unlinked =
        (setting.enterClosure closure args caller label memory).2.unlinked := by
  unfold enterClosure
  cases closure.checkCount setting.names args label with
  | error halt => simp [Memory.unlinked]
  | ok =>
    cases closure.bindParams setting.names args with
    | error halt => simp [Memory.unlinked]
    | ok bindings =>
      obtain ⟨hframe, hstore⟩ :=
        memory.store.extend_unlinked (setting.baseFrame closure caller) bindings
      simp only [Memory.unlinked]
      cases memory.calls.overflow? <;> simp [hframe, hstore]

theorem unlinked_enter (setting : Setting) (callee : Value) (args : List Value)
    (caller : FrameId) (label : Option Name) (memory : Memory) :
    (setting.enter callee args caller label memory.unlinked).1 =
        (setting.enter callee args caller label memory).1 ∧
      (setting.enter callee args caller label memory.unlinked).2.unlinked =
        (setting.enter callee args caller label memory).2.unlinked := by
  cases callee with
  | closure closure => exact setting.unlinked_enterClosure closure args caller label memory
  | _ => simp [enter]

theorem unlinked_startCall (setting : Setting) (callee : Value) (args : List Value)
    (caller : FrameId) (label : Option Name) (pending : List Pending) (memory : Memory) :
    (setting.startCall callee args caller label pending memory.unlinked).unlinked =
      (setting.startCall callee args caller label pending memory).unlinked := by
  obtain ⟨hentry, hmemory⟩ := setting.unlinked_enter callee args caller label memory
  unfold startCall
  generalize setting.enter callee args caller label memory.unlinked = unlinked at hentry hmemory
  generalize setting.enter callee args caller label memory = entered at hentry hmemory
  obtain ⟨entry, after⟩ := unlinked
  obtain ⟨entry', after'⟩ := entered
  obtain rfl : entry = entry' := hentry
  cases entry <;> simp [Machine.unlinked, hmemory]

theorem unlinked_startOperands (setting : Setting) (callee : Value) (label : Option Name)
    (done : List Value) (operands : List NodeId) (frame : FrameId) (pending : List Pending)
    (memory : Memory) :
    (setting.startOperands callee label done operands frame pending memory.unlinked).unlinked =
      (setting.startOperands callee label done operands frame pending memory).unlinked := by
  cases operands with
  | nil => exact setting.unlinked_startCall callee done.reverse frame label pending memory
  | cons => simp [startOperands, Machine.unlinked]

theorem unlinked_startBlock (items : List NodeId) (frame : FrameId) (pending : List Pending)
    (memory : Memory) :
    (startBlock items frame pending memory.unlinked).unlinked =
      (startBlock items frame pending memory).unlinked := by
  unfold startBlock
  split <;> simp [Machine.unlinked]

theorem unlinked_startCond (clauses : List Clause) (frame : FrameId) (pending : List Pending)
    (memory : Memory) :
    (startCond clauses frame pending memory.unlinked).unlinked =
      (startCond clauses frame pending memory).unlinked := by
  cases clauses <;> simp [startCond, Machine.unlinked]

theorem unlinked_startNode (setting : Setting) (id : NodeId) (frame : FrameId)
    (pending : List Pending) (memory : Memory) :
    (setting.startNode id frame pending memory.unlinked).unlinked =
      (setting.startNode id frame pending memory).unlinked := by
  unfold startNode
  cases setting.code.node? id with
  | none => simp [Machine.unlinked]
  | some node =>
    cases node with
    | int | str | apply | letIn | assign | unknown => simp [Machine.unlinked]
    | ident name => simp [Machine.unlinked, evalIdent, Memory.unlinked]
    | lambda params body =>
      cases hread : params.read? setting.code.params <;>
        simp [Machine.unlinked, evalLambda, hread, Memory.unlinked]
    | block items =>
      cases hread : items.read? setting.code.lists with
      | none => simp [Machine.unlinked, hread]
      | some ids => simp only [hread, unlinked_startBlock]
    | cond clauses =>
      cases hread : clauses.read? setting.code.clauses with
      | none => simp [Machine.unlinked, hread]
      | some clauses => simp only [hread, unlinked_startCond]

theorem unlinked_leave (setting : Setting) (outcome : Outcome) (memory : Memory) :
    setting.leave outcome memory.unlinked =
      ((setting.leave outcome memory).1, (setting.leave outcome memory).2.unlinked) := by
  unfold leave
  cases h : memory.calls.isEmpty <;> simp [Memory.unlinked, h]

theorem unlinked_assignName (setting : Setting) (name : Name) (value : Value) (frame : FrameId)
    (memory : Memory) :
    setting.assignName name value frame memory.unlinked =
      ((setting.assignName name value frame memory).1,
        (setting.assignName name value frame memory).2.unlinked) := by
  unfold assignName
  cases h : memory.store.contains frame name <;> simp [Memory.unlinked, h]

theorem unlinked_resume (setting : Setting) (part : Pending) (value : Value)
    (pending : List Pending) (memory : Memory) :
    (setting.resume part value pending memory.unlinked).unlinked =
      (setting.resume part value pending memory).unlinked := by
  unfold resume
  cases part with
  | block rest frame => exact unlinked_startBlock rest frame pending memory
  | cond consequence rest frame =>
    cases value.test with
    | error fault => simp [Machine.unlinked]
    | ok test =>
      cases test with
      | true => simp [Machine.unlinked]
      | false => simp only [unlinked_startCond]
  | letIn name body frame =>
    obtain ⟨hframe, hstore⟩ := memory.store.extend_unlinked frame [(name, value)]
    simp [Machine.unlinked, Memory.unlinked, hframe, hstore]
  | assign name frame => simp [Machine.unlinked, unlinked_assignName]
  | operator operator operands frame =>
    cases value.isCallable with
    | false => simp [Machine.unlinked]
    | true =>
      cases hread : operands.read? setting.code.lists with
      | none => simp [Machine.unlinked, hread]
      | some ids => simp only [hread, if_true, unlinked_startOperands]
  | operand callee label done rest frame =>
    exact setting.unlinked_startOperands callee label (value :: done) rest frame pending memory
  | leave => simp [Machine.unlinked, unlinked_leave]

theorem unlinked_unwind (setting : Setting) (part : Pending) (halt : Halt)
    (pending : List Pending) (memory : Memory) :
    (setting.unwind part halt pending memory.unlinked).unlinked =
      (setting.unwind part halt pending memory).unlinked := by
  cases part with
  | leave => simp [unwind, Machine.unlinked, unlinked_leave]
  | _ => simp [unwind, Machine.unlinked]

/-- A step does the same without links. -/
theorem unlinked_step (setting : Setting) (machine : Machine) :
    (setting.step machine.unlinked).unlinked = (setting.step machine).unlinked := by
  obtain ⟨focus, pending, memory⟩ := machine
  cases focus with
  | node id frame => exact setting.unlinked_startNode id frame pending memory
  | outcome outcome =>
    cases pending with
    | nil => simp [step, Machine.unlinked]
    | cons part pending =>
      cases outcome with
      | ok value => exact setting.unlinked_resume part value pending memory
      | error halt => exact setting.unlinked_unwind part halt pending memory

/-! ### Runs without links -/

/-- What a run comes to, with all links taken away. -/
def forgetLinks (result : Option (Outcome × Memory)) : Option (Outcome × Memory) :=
  result.map fun (outcome, memory) => (outcome, memory.unlinked)

theorem run_eq_of_unlinked_eq (setting : Setting) (steps : Nat) {first second : Machine}
    (h : first.unlinked = second.unlinked) :
    forgetLinks (setting.run steps first) = forgetLinks (setting.run steps second) := by
  induction steps generalizing first second with
  | zero => rfl
  | succ steps ih =>
    have hstep : (setting.step first).unlinked = (setting.step second).unlinked := by
      rw [← unlinked_step, h, unlinked_step]
    obtain ⟨focus, pending, memory⟩ := first
    obtain ⟨focus', pending', memory'⟩ := second
    simp only [Machine.unlinked, Machine.mk.injEq] at h
    obtain ⟨rfl, rfl, hmemory⟩ := h
    -- Both are final or neither is, since links are no part of what is final.
    cases focus with
    | node => exact ih hstep
    | outcome outcome =>
      cases pending with
      | nil => simp [run, forgetLinks, hmemory]
      | cons => exact ih hstep

end Setting

/-! ### Stores that differ in links alone -/

namespace Store

/-- Two stores give the same results, up to links. -/
structure Interchangeable (first second : Store) : Prop where
  lookup : ∀ id name, first.lookup id name = second.lookup id name
  assign : ∀ id name value, (first.assign id name value).map unlinked =
    (second.assign id name value).map unlinked
  define : ∀ id name value,
    (first.define id name value).EqualButLinks (second.define id name value)
  extend : ∀ base added, (first.extend base added).1 = (second.extend base added).1 ∧
    (first.extend base added).2.EqualButLinks (second.extend base added).2
  evaluate : ∀ (setting : Setting) (id : NodeId) (frame : FrameId) (calls : CallStack),
    Setting.forgetLinks (setting.evaluate id frame ⟨first, calls⟩) =
      Setting.forgetLinks (setting.evaluate id frame ⟨second, calls⟩)
  call : ∀ (setting : Setting) (callee : Value) (args : List Value) (caller : FrameId)
    (label : Option Name) (calls : CallStack),
    Setting.forgetLinks (setting.call callee args caller label ⟨first, calls⟩) =
      Setting.forgetLinks (setting.call callee args caller label ⟨second, calls⟩)
  /-- Also after any number of steps, from any state. -/
  run : ∀ (setting : Setting) (steps : Nat) (focus : Focus) (pending : List Pending)
    (calls : CallStack),
    Setting.forgetLinks (setting.run steps ⟨focus, pending, ⟨first, calls⟩⟩) =
      Setting.forgetLinks (setting.run steps ⟨focus, pending, ⟨second, calls⟩⟩)

theorem EqualButLinks.interchangeable {first second : Store} (h : first.EqualButLinks second) :
    first.Interchangeable second := by
  have hlookup (id : FrameId) (name : Name) : first.lookup id name = second.lookup id name := by
    rw [← lookup_unlinked, h, lookup_unlinked]
  have hcontains (id : FrameId) (name : Name) :
      first.contains id name = second.contains id name := by
    rw [← contains_unlinked, h, contains_unlinked]
  have hupdate (id : FrameId) (change : Bindings → Bindings) :
      (first.update id change).EqualButLinks (second.update id change) := by
    unfold EqualButLinks
    rw [← unlinked_update, h, unlinked_update]
  have hrun (setting : Setting) (steps : Nat) (focus : Focus) (pending : List Pending)
      (calls : CallStack) :
      Setting.forgetLinks (setting.run steps ⟨focus, pending, ⟨first, calls⟩⟩) =
        Setting.forgetLinks (setting.run steps ⟨focus, pending, ⟨second, calls⟩⟩) := by
    refine setting.run_eq_of_unlinked_eq steps ?_
    simp only [Machine.unlinked, Memory.unlinked]
    rw [h]
  refine ⟨hlookup, ?_, fun id name value => hupdate id _, ?_, ?_, ?_, hrun⟩
  · intro id name value
    unfold Store.assign
    rw [hcontains]
    split
    · exact congrArg some (hupdate id _)
    · rfl
  · intro base added
    obtain ⟨hframe, hstore⟩ := first.extend_unlinked base added
    obtain ⟨hframe', hstore'⟩ := second.extend_unlinked base added
    rw [h] at hframe hstore
    exact ⟨hframe.symm.trans hframe', hstore.symm.trans hstore'⟩
  · exact fun setting id frame calls => hrun setting _ _ _ calls
  · intro setting callee args caller label calls
    refine setting.run_eq_of_unlinked_eq _ ?_
    have hmemory : Memory.unlinked ⟨first, calls⟩ = Memory.unlinked ⟨second, calls⟩ := by
      simp only [Memory.unlinked]
      rw [h]
    rw [← Setting.unlinked_startCall, hmemory, Setting.unlinked_startCall]

end Store

end FlatScope
