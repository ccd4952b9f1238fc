import FlatScope.Proofs.Calls.Balance
import FlatScope.Proofs.Frames.Confinement
import FlatScope.Proofs.Scope.Start
import FlatScope.Proofs.Tree.WellFormed
import Mathlib.Control.Monad.Basic

/-!
# Nothing outside the tables is looked at

A machine holds ids of nodes, spans and names: in its focus, in what is pending, in the closures that
frames bind and in the open calls.  In well-formed code every step finds in the tables what it looks
for there, and hands on to the next state only what can be found again.
-/

namespace FlatScope

/-! ### What can be found -/

def Setting.HasNode (setting : Setting) (id : NodeId) : Prop := id.raw < setting.code.size

def Setting.HasText (setting : Setting) (name : Name) : Prop := (setting.names.text? name).isSome

/-- The body of a closure lies inside the code, and its parameters have texts. -/
def Value.InBounds (setting : Setting) : Value → Prop
  | .closure function =>
    setting.HasNode function.body ∧ ∀ param ∈ function.params, setting.HasText param
  | _ => True

/-- A value that is in bounds, or a fault. -/
def Outcome.InBounds (setting : Setting) : Outcome → Prop
  | .ok value => value.InBounds setting
  | .error (.raised _) => True
  | .error (.breach _) => False

/-- What a pending part will look for can be found. -/
def Pending.InBounds (setting : Setting) : Pending → Prop
  | .block rest _ => ∀ id ∈ rest, setting.HasNode id
  | .cond consequence rest _ => setting.HasNode consequence ∧
    ∀ clause ∈ rest, setting.HasNode clause.test ∧ setting.HasNode clause.consequence
  | .letIn name body _ => setting.HasText name ∧ setting.HasNode body
  | .assign name _ => setting.HasText name
  | .operator callee operands _ => setting.HasNode callee ∧
    ∃ ids, operands.read? setting.code.lists = some ids ∧ ∀ id ∈ ids, setting.HasNode id
  | .operand callee label done rest _ => callee.InBounds setting ∧ setting.Labelled label ∧
    (∀ value ∈ done, value.InBounds setting) ∧ ∀ id ∈ rest, setting.HasNode id
  | .leave => True

def Focus.InBounds (setting : Setting) : Focus → Prop
  | .node id _ => setting.HasNode id
  | .outcome result => result.InBounds setting

/-- Every value that a frame binds is in bounds, and every open call has a label with a text. -/
structure Memory.InBounds (setting : Setting) (memory : Memory) : Prop where
  values : ∀ frame name value, memory.store.lookup frame name = some value → value.InBounds setting
  labels : setting.AllLabelled memory.calls

structure Machine.InBounds (setting : Setting) (machine : Machine) : Prop where
  focus : machine.focus.InBounds setting
  pending : ∀ part ∈ machine.pending, part.InBounds setting
  memory : machine.memory.InBounds setting

variable {setting : Setting} {memory : Memory} {frame : FrameId} {name : Name} {value : Value}

/-! ### Memories -/

namespace Memory.InBounds

theorem reassign (h : memory.InBounds setting) (hvalue : value.InBounds setting)
    (hbound : memory.store.contains frame name = true) :
    InBounds setting { memory with store := memory.store.reassign frame name value } := by
  refine ⟨fun other key found hfound => ?_, h.labels⟩
  rw [Store.lookup_reassign value other key hbound] at hfound
  split at hfound
  · cases hfound
    exact hvalue
  · exact h.values other key found hfound

theorem extend (h : memory.InBounds setting) (base : FrameId) {added : Bindings}
    (hnodup : added.keys.Nodup) (hadded : ∀ entry ∈ added, entry.2.InBounds setting) :
    InBounds setting { memory with store := (memory.store.extend base added).2 } := by
  by_cases hnil : added = []
  · rw [hnil]
    exact h
  refine ⟨fun other key found hfound => ?_, h.labels⟩
  rw [Setting.lookup_extend base other hnil hnodup] at hfound
  split at hfound
  · rcases Option.or_eq_some_iff.1 hfound with hnew | ⟨-, hold⟩
    · exact hadded _ (Bindings.mem_of_find? hnew)
    · exact h.values base key found hold
  · exact h.values other key found hfound

theorem enter (h : memory.InBounds setting) {label : Option Name}
    (hlabel : setting.Labelled label) :
    InBounds setting ⟨memory.store, memory.calls.enter label⟩ :=
  ⟨h.values, Setting.allLabelled_enter h.labels hlabel⟩

theorem leave (h : memory.InBounds setting) :
    InBounds setting { memory with calls := memory.calls.leave } := by
  refine ⟨h.values, fun label hlabel => h.labels label ?_⟩
  rw [CallStack.leave, Array.toList_pop] at hlabel
  exact List.dropLast_subset _ hlabel

end Memory.InBounds

/-! ### Outcomes -/

theorem Value.inBounds_toValue (primitive : Primitive) : primitive.toValue.InBounds setting := by
  cases primitive <;> trivial

namespace Outcome

theorem inBounds_ofFault {result : Except Fault Value}
    (h : ∀ value, result = .ok value → value.InBounds setting) :
    (ofFault result).InBounds setting := by
  cases result with
  | error fault => trivial
  | ok value => exact h value rfl

theorem inBounds_faultFor (hname : setting.HasText name) (fault : String → Fault) :
    InBounds setting (.error (setting.names.faultFor name fault)) := by
  obtain ⟨text, htext⟩ := Option.isSome_iff_exists.1 hname
  rw [NameTable.faultFor, htext]
  trivial

theorem InBounds.leaveOutcome {outcome : Outcome} {calls : CallStack}
    (h : outcome.InBounds setting) (hcalls : setting.AllLabelled calls) :
    (setting.leaveOutcome calls outcome).InBounds setting := by
  cases outcome with
  | ok value => exact h
  | error halt =>
    cases halt with
    | breach breach => cases h
    | raised raised =>
      have hagrees := @Setting.agrees_attach setting (fun _ => True) calls hcalls raised
      rw [Setting.leaveOutcome]
      generalize setting.attach calls (.raised raised) = halt, raised.fault = fault at hagrees
      cases hagrees
      trivial

end Outcome

namespace Setting

theorem inBounds_evalInt (literal : Int) : (evalInt literal).InBounds setting := by
  unfold evalInt
  cases literalWord literal <;> trivial

theorem inBounds_evalStr (hname : setting.HasText name) :
    (setting.evalStr name).InBounds setting := by
  obtain ⟨text, htext⟩ := Option.isSome_iff_exists.1 hname
  rw [evalStr, htext]
  trivial

theorem inBounds_evalIdent (h : memory.InBounds setting) (hname : setting.HasText name)
    (frame : FrameId) : (setting.evalIdent name frame memory).InBounds setting := by
  unfold evalIdent
  cases hlookup : memory.store.lookup frame name with
  | some value => exact h.values frame name value hlookup
  | none => exact Outcome.inBounds_faultFor hname _

/-! ### One step -/

variable {pending : List Pending}

theorem inBounds_startBlock {items : List NodeId} (hitems : ∀ id ∈ items, setting.HasNode id)
    (hpending : ∀ part ∈ pending, part.InBounds setting) (hmemory : memory.InBounds setting) :
    (startBlock items frame pending memory).InBounds setting := by
  cases items with
  | nil => exact ⟨trivial, hpending, hmemory⟩
  | cons item rest =>
    obtain ⟨hitem, hrest⟩ := List.forall_mem_cons.1 hitems
    cases rest with
    | nil => exact ⟨hitem, hpending, hmemory⟩
    | cons next rest => exact ⟨hitem, List.forall_mem_cons.2 ⟨hrest, hpending⟩, hmemory⟩

theorem inBounds_startCond {clauses : List Clause}
    (hclauses : ∀ clause ∈ clauses,
      setting.HasNode clause.test ∧ setting.HasNode clause.consequence)
    (hpending : ∀ part ∈ pending, part.InBounds setting) (hmemory : memory.InBounds setting) :
    (startCond clauses frame pending memory).InBounds setting := by
  cases clauses with
  | nil => exact ⟨trivial, hpending, hmemory⟩
  | cons clause rest =>
    obtain ⟨hclause, hrest⟩ := List.forall_mem_cons.1 hclauses
    exact ⟨hclause.1, List.forall_mem_cons.2 ⟨⟨hclause.2, hrest⟩, hpending⟩, hmemory⟩

section Calls

variable {callee : Value} {args : List Value} {label : Option Name}

theorem inBounds_callFrame {closure : Closure} (hmemory : memory.InBounds setting)
    (hargs : ∀ arg ∈ args, arg.InBounds setting) (hcount : closure.params.length = args.length)
    (hnodup : closure.params.Nodup) (caller : FrameId) :
    Memory.InBounds setting
      { memory with store := (setting.callFrame closure args caller memory.store).2 } := by
  have hkeys : (Bindings.keys (closure.params.zip args)).Nodup := by
    rw [Bindings.keys_zip hcount]
    exact hnodup
  refine hmemory.extend _ (Bindings.nodup_keys_reverse hkeys) fun entry hentry => ?_
  exact hargs entry.2 (List.of_mem_zip (List.mem_reverse.1 hentry)).2

theorem inBounds_startCall (hcallee : callee.InBounds setting)
    (hargs : ∀ arg ∈ args, arg.InBounds setting) (hlabel : setting.Labelled label)
    (hpending : ∀ part ∈ pending, part.InBounds setting) (hmemory : memory.InBounds setting) :
    (setting.startCall callee args frame label pending memory).InBounds setting := by
  unfold startCall
  cases callee with
  | int _ | str _ | bool _ => exact ⟨trivial, hpending, hmemory⟩
  | native native =>
    refine ⟨Outcome.inBounds_ofFault fun value hvalue => ?_, hpending, hmemory⟩
    obtain ⟨primitive, rfl⟩ := Native.exists_primitive_of_call hvalue
    exact Value.inBounds_toValue primitive
  | closure closure =>
    obtain ⟨hbody, hparams⟩ := hcallee
    rw [enter]
    by_cases hcount : closure.params.length = args.length
    · rcases nodup_or_exists_duplicate (closure.params.map setting.textOf) List.nodup_nil with
        hnodup | ⟨before, text, after, hsplit, hbefore, hmem⟩
      · have hparams := nodup_of_nodup_map_textOf hnodup
        have hframe := inBounds_callFrame hmemory hargs hcount hparams frame
        cases hover : memory.calls.overflow? with
        | some fault =>
          rw [enterClosure_of_overflow hcount hparams hover]
          have hfault : Outcome.InBounds setting (.error (.fault fault)) := trivial
          exact ⟨hfault.leaveOutcome hmemory.labels, hpending, hframe⟩
        | none =>
          rw [enterClosure_of_room hcount hparams hover]
          exact ⟨hbody, List.forall_mem_cons.2 ⟨trivial, hpending⟩, hframe.enter hlabel⟩
      · rw [enterClosure_of_duplicate hparams hcount hsplit hbefore hmem]
        exact ⟨trivial, hpending, hmemory⟩
    · rw [enterClosure_of_count_ne hlabel hcount]
      exact ⟨trivial, hpending, hmemory⟩

theorem inBounds_startOperands {done : List Value} {operands : List NodeId}
    (hcallee : callee.InBounds setting) (hlabel : setting.Labelled label)
    (hdone : ∀ value ∈ done, value.InBounds setting)
    (hoperands : ∀ id ∈ operands, setting.HasNode id)
    (hpending : ∀ part ∈ pending, part.InBounds setting) (hmemory : memory.InBounds setting) :
    (setting.startOperands callee label done operands frame pending memory).InBounds setting := by
  cases operands with
  | nil =>
    have hargs : ∀ arg ∈ done.reverse, arg.InBounds setting :=
      fun arg harg => hdone arg (List.mem_reverse.1 harg)
    exact inBounds_startCall hcallee hargs hlabel hpending hmemory
  | cons operand rest =>
    obtain ⟨hoperand, hrest⟩ := List.forall_mem_cons.1 hoperands
    exact ⟨hoperand, List.forall_mem_cons.2 ⟨⟨hcallee, hlabel, hdone, hrest⟩, hpending⟩, hmemory⟩

end Calls

variable (hcode : setting.code.WellFormed setting.names)
include hcode

theorem inBounds_startNode {id : NodeId} (hid : setting.HasNode id)
    (hpending : ∀ part ∈ pending, part.InBounds setting) (hmemory : memory.InBounds setting) :
    (setting.startNode id frame pending memory).InBounds setting := by
  have hnode : setting.code.node? id = some setting.code.nodes[id.raw] :=
    Array.getElem?_eq_getElem hid
  have hplaced := hcode id _ hnode
  -- The nodes that a node refers to stand before it.
  have hbefore {child : NodeId} (hchild : child.raw < id.raw) : setting.HasNode child :=
    Nat.lt_trans hchild hid
  unfold startNode
  rw [hnode]
  generalize setting.code.nodes[id.raw] = node at hplaced
  cases node with
  | int literal => exact ⟨inBounds_evalInt literal, hpending, hmemory⟩
  | str text => exact ⟨inBounds_evalStr hplaced, hpending, hmemory⟩
  | ident name => exact ⟨inBounds_evalIdent hmemory hplaced frame, hpending, hmemory⟩
  | unknown tag => exact ⟨Outcome.inBounds_faultFor hplaced _, hpending, hmemory⟩
  | apply operator operands =>
    obtain ⟨hoperator, ids, hread, hids⟩ := hplaced
    have hpart : Pending.InBounds setting (.operator operator operands frame) :=
      ⟨hbefore hoperator, ids, hread, fun child hchild => hbefore (hids child hchild)⟩
    exact ⟨hbefore hoperator, List.forall_mem_cons.2 ⟨hpart, hpending⟩, hmemory⟩
  | lambda params body =>
    obtain ⟨hbody, found, hread, hfound⟩ := hplaced
    simp only [evalLambda, hread]
    exact ⟨⟨hbefore hbody, hfound⟩, hpending, ⟨hmemory.values, hmemory.labels⟩⟩
  | block items =>
    obtain ⟨ids, hread, hids⟩ := hplaced
    simp only [hread]
    exact inBounds_startBlock (fun child hchild => hbefore (hids child hchild)) hpending hmemory
  | cond clauses =>
    obtain ⟨found, hread, hfound⟩ := hplaced
    simp only [hread]
    refine inBounds_startCond (fun clause hclause => ?_) hpending hmemory
    exact ⟨hbefore (hfound clause hclause).1, hbefore (hfound clause hclause).2⟩
  | letIn name init body =>
    obtain ⟨hname, hinit, hbody⟩ := hplaced
    exact ⟨hbefore hinit, List.forall_mem_cons.2 ⟨⟨hname, hbefore hbody⟩, hpending⟩, hmemory⟩
  | assign name value =>
    obtain ⟨hname, hvalue⟩ := hplaced
    exact ⟨hbefore hvalue, List.forall_mem_cons.2 ⟨hname, hpending⟩, hmemory⟩

omit hcode in
/-- The end of a call finds a call that is open. -/
theorem inBounds_leave {outcome : Outcome} (houtcome : outcome.InBounds setting)
    (hopen : memory.calls.isEmpty = false) (hpending : ∀ part ∈ pending, part.InBounds setting)
    (hmemory : memory.InBounds setting) :
    Machine.InBounds setting ⟨.outcome (setting.leave outcome memory).1, pending,
      (setting.leave outcome memory).2⟩ := by
  unfold leave
  rw [hopen]
  exact ⟨houtcome.leaveOutcome hmemory.labels, hpending, hmemory.leave⟩

theorem inBounds_resume {part : Pending} (hvalue : value.InBounds setting)
    (hpart : part.InBounds setting) (hopen : part = .leave → memory.calls.isEmpty = false)
    (hpending : ∀ part ∈ pending, part.InBounds setting) (hmemory : memory.InBounds setting) :
    (setting.resume part value pending memory).InBounds setting := by
  cases part with
  | block rest frame => exact inBounds_startBlock hpart hpending hmemory
  | cond consequence rest frame =>
    simp only [resume]
    cases value.test with
    | error fault => exact ⟨trivial, hpending, hmemory⟩
    | ok test =>
      cases test with
      | true => exact ⟨hpart.1, hpending, hmemory⟩
      | false => exact inBounds_startCond hpart.2 hpending hmemory
  | letIn name body frame =>
    have hscope : Memory.InBounds setting
        { memory with store := (memory.store.extend frame [(name, value)]).2 } := by
      refine hmemory.extend frame (by simp [Bindings.keys]) fun entry hentry => ?_
      rw [List.mem_singleton.1 hentry]
      exact hvalue
    exact ⟨hpart.2, hpending, hscope⟩
  | assign name frame =>
    simp only [resume, assignName]
    by_cases hbound : memory.store.contains frame name = true
    · rw [if_pos hbound]
      exact ⟨hvalue, hpending, hmemory.reassign hvalue hbound⟩
    · rw [if_neg hbound]
      exact ⟨Outcome.inBounds_faultFor hpart _, hpending, hmemory⟩
  | operator operator operands frame =>
    obtain ⟨-, ids, hread, hids⟩ := hpart
    simp only [resume, hread]
    by_cases hcallable : value.isCallable = true
    · rw [if_pos hcallable]
      have hlabel := (callLabel_spec (Code.readable_iff_wellFormed.2 hcode) operator).1
      exact inBounds_startOperands hvalue hlabel (by simp) hids hpending hmemory
    · rw [if_neg hcallable]
      exact ⟨trivial, hpending, hmemory⟩
  | operand callee label done rest frame =>
    obtain ⟨hcallee, hlabel, hdone, hrest⟩ := hpart
    exact inBounds_startOperands hcallee hlabel (List.forall_mem_cons.2 ⟨hvalue, hdone⟩) hrest
      hpending hmemory
  | leave => exact inBounds_leave hvalue (hopen rfl) hpending hmemory

omit hcode in
theorem inBounds_unwind {part : Pending} {halt : Halt}
    (hhalt : Outcome.InBounds setting (.error halt))
    (hopen : part = .leave → memory.calls.isEmpty = false)
    (hpending : ∀ part ∈ pending, part.InBounds setting) (hmemory : memory.InBounds setting) :
    (setting.unwind part halt pending memory).InBounds setting := by
  cases part with
  | leave => exact inBounds_leave hhalt (hopen rfl) hpending hmemory
  | _ => exact ⟨hhalt, hpending, hmemory⟩

omit hcode in
theorem isEmpty_of_balanced {base : CallStack} {machine : Machine} {rest : List Pending}
    (hbalanced : machine.Balanced base) (hpending : machine.pending = .leave :: rest) :
    machine.memory.calls.isEmpty = false := by
  unfold Machine.Balanced at hbalanced
  rw [hpending] at hbalanced
  exact hbalanced.isEmpty_eq_false

theorem inBounds_step {base : CallStack} {machine : Machine} (hbalanced : machine.Balanced base)
    (h : machine.InBounds setting) : (setting.step machine).InBounds setting := by
  obtain ⟨focus, pending, memory⟩ := machine
  obtain ⟨hfocus, hpending, hmemory⟩ := h
  cases focus with
  | node id frame => exact inBounds_startNode hcode hfocus hpending hmemory
  | outcome outcome =>
    cases pending with
    | nil => exact ⟨hfocus, hpending, hmemory⟩
    | cons part rest =>
      obtain ⟨hpart, hrest⟩ := List.forall_mem_cons.1 hpending
      have hopen : part = .leave → memory.calls.isEmpty = false := by
        rintro rfl
        exact isEmpty_of_balanced hbalanced rfl
      cases outcome with
      | ok value => exact inBounds_resume hcode hfocus hpart hopen hrest hmemory
      | error halt => exact inBounds_unwind hfocus hopen hrest hmemory

/-! ### Whole runs -/

theorem Reaches.inBounds {base : CallStack} {first last : Machine}
    (hreach : setting.Reaches first last) (hbalanced : first.Balanced base)
    (h : first.InBounds setting) : last.InBounds setting := by
  induction hreach with
  | refl => exact h
  | step _ ih => exact ih (balanced_step hbalanced) (inBounds_step hcode hbalanced h)

end Setting

/-! ### Decoded programs -/

namespace Program

theorem inBounds_start (setting : Setting) (names : NameTable) (config : Config)
    (defines : List (String × Word)) :
    Memory.InBounds setting ⟨(start names defines).2, .new config.maxDepth⟩ := by
  refine ⟨fun frame name value hlookup => ?_, fun label hlabel => ?_⟩
  · cases value with
    | closure function => exact absurd rfl (not_closure_of_lookup_start hlookup function)
    | _ => trivial
  · cases hlabel

/-- The machine that starts on the root of a program in the first frame. -/
def startMachine (program : Program) (names : NameTable) (config : Config)
    (defines : List (String × Word)) : Machine :=
  ⟨.node program.root startFrame, [], ⟨(start names defines).2, .new config.maxDepth⟩⟩

theorem Decoded.wellFormed_start {program : Program} {names : NameTable} {expr : Expr}
    (h : Decoded program names expr) (defines : List (String × Word)) :
    program.code.WellFormed (start names defines).1 := by
  have hkept := keptBy_start names defines
  exact Code.readable_iff_wellFormed.1 (h.readable.keptBy (.refl program.code) hkept rfl)

theorem Decoded.inBounds_of_reaches {program : Program} {names : NameTable} {expr : Expr}
    (h : Decoded program names expr) {config : Config} {defines : List (String × Word)}
    {machine : Machine} (hreach : (startSetting program names config defines).Reaches
      (startMachine program names config defines) machine) :
    machine.InBounds (startSetting program names config defines) ∧
      machine.Balanced (.new config.maxDepth) := by
  have hcode := h.wellFormed_start defines
  have hroot : program.root.raw < program.code.size := Code.lt_size_of_expr? h.root
  have hfirst : (startMachine program names config defines).InBounds
      (startSetting program names config defines) :=
    ⟨hroot, fun part hpart => absurd hpart List.not_mem_nil, inBounds_start _ names config defines⟩
  have hbalanced : (startMachine program names config defines).Balanced (.new config.maxDepth) :=
    .base
  exact ⟨hreach.inBounds hcode hbalanced hfirst, hreach.balanced hbalanced⟩

/-- A program that was decoded never looks outside its tables and closes every call that it opens,
whatever is defined and however it is configured.  What the nodes refer to is inside the tables; so
is, at every moment of the run, what the machine still has to look for; a call is open whenever the
end of one is due; and no call is open after the run, which does not end in a breach. -/
theorem decoded_program_stays_in_bounds {numbers : Json.NumberReader} {text : String}
    {before names : NameTable} {program : Program}
    (h : ofText numbers text before = (.ok program, names)) (config : Config)
    (defines : List (String × Word)) :
    program.code.WellFormed (start names defines).1 ∧
    (∀ machine, (startSetting program names config defines).Reaches
        (startMachine program names config defines) machine →
      machine.InBounds (startSetting program names config defines) ∧
        ∀ rest, machine.pending = .leave :: rest → machine.memory.calls.isEmpty = false) ∧
    (∀ steps outcome after, (startSetting program names config defines).run steps
        (startMachine program names config defines) = some (outcome, after) →
      outcome.InBounds (startSetting program names config defines) ∧ after.calls.depth = 0) ∧
    ∀ steps breach,
      runProgram steps program names config defines ≠ .error (.halt (.breach breach)) := by
  obtain ⟨expr, -, hdecoded⟩ := exists_decoded_of_ofText h
  have hrun : ∀ steps outcome after, (startSetting program names config defines).run steps
        (startMachine program names config defines) = some (outcome, after) →
      outcome.InBounds (startSetting program names config defines) ∧ after.calls.depth = 0 := by
    intro steps outcome after hrun
    obtain ⟨hlast, hbalanced⟩ := hdecoded.inBounds_of_reaches (Setting.reaches_of_run hrun)
    have hnew : after.calls = .new config.maxDepth := hbalanced.eq_base
    exact ⟨hlast.focus, by rw [hnew]; rfl⟩
  refine ⟨hdecoded.wellFormed_start defines, fun machine hreach => ?_, hrun, ?_⟩
  · obtain ⟨hbounds, hbalanced⟩ := hdecoded.inBounds_of_reaches hreach
    exact ⟨hbounds, fun rest hpending => Setting.isEmpty_of_balanced hbalanced hpending⟩
  · intro steps breach hbreach
    rw [runProgram_eq_start] at hbreach
    split at hbreach
    · cases hbreach
    · rename_i heval
      cases hbreach
      exact (hrun _ _ _ heval).1
    · cases hbreach

/-- The text of a call whose body refers to its parameter, which is given what `y` is bound to, and
then to `z`. -/
def callForZ : String :=
  "\x7b\"Application\":[\x7b\"Lambda\":[\x7b\"Parameters\":[\x7b\"Identifier\":\"x\"\x7d]\x7d," ++
    "\x7b\"Block\":[\x7b\"Identifier\":\"x\"\x7d,\x7b\"Identifier\":\"z\"\x7d]\x7d]\x7d," ++
    "\x7b\"Identifier\":\"y\"\x7d]\x7d"

/-- The call fails over `z` inside the lambda, with everything in bounds. -/
theorem decoded_program_stays_in_bounds_callForZ :
    ∃ program names, ofText Json.Numeral.number? callForZ .new = (.ok program, names) ∧
      runProgram Setting.maxSteps program names ⟨.lexical, some 1⟩ [("y", ⟨3, by decide⟩)] =
        .error (.halt (.raised ⟨.unboundIdentifier "z", some ⟨["<lambda>"]⟩⟩)) ∧
      ∀ machine, (startSetting program names ⟨.lexical, some 1⟩ [("y", ⟨3, by decide⟩)]).Reaches
          (startMachine program names ⟨.lexical, some 1⟩ [("y", ⟨3, by decide⟩)]) machine →
        machine.InBounds
          (startSetting program names ⟨.lexical, some 1⟩ [("y", ⟨3, by decide⟩)]) := by
  have hfails : (match ofText Json.Numeral.number? callForZ .new with
      | (.ok program, names) =>
        runProgram Setting.maxSteps program names ⟨.lexical, some 1⟩ [("y", ⟨3, by decide⟩)]
      | (.error error, _) => .error (.decode error) : Except Failure Value) =
        .error (.halt (.raised ⟨.unboundIdentifier "z", some ⟨["<lambda>"]⟩⟩)) := by
    decide +kernel
  split at hfails
  · rename_i program names hprogram
    obtain ⟨-, hbounds, -⟩ := decoded_program_stays_in_bounds hprogram ⟨.lexical, some 1⟩
      [("y", ⟨3, by decide⟩)]
    exact ⟨program, names, hprogram, hfails, fun machine hreach => (hbounds machine hreach).1⟩
  · cases hfails

end Program

end FlatScope
