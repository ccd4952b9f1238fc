import FlatScope.Proofs.Lockstep.Coupling

/-!
# Coupled runs make the same steps

If two runs of a program are coupled and their machines are in the same state up to what is related,
then they stay so with every step (`InStep.step`).  Both come to an end after the same number of steps
and in the same way (`InStep.run`, `runProgram_cases`).
-/

namespace FlatScope.Relating

variable {program : Program} {names : NameTable} {expr : Expr}

/-! ### Related machines -/

section Machines

variable (relating : Relating program names expr)

/-- Both runs can evaluate the expression at a node, each in its frame. -/
def Fits (stores : Stores) (id : NodeId) (frame frame' : FrameId) : Prop :=
  (program.reading names).exprAt id ∈ expr.parts ∧
    relating.fits stores ((program.reading names).exprAt id) frame frame'

inductive Parts (stores : Stores) : Pending → Pending → Prop where
  | block {rest : List NodeId} {frame frame' : FrameId}
      (hrest : ∀ id ∈ rest, relating.Fits stores id frame frame') :
      Parts stores (.block rest frame) (.block rest frame')
  | cond {consequence : NodeId} {rest : List Clause} {frame frame' : FrameId}
      (hconsequence : relating.Fits stores consequence frame frame')
      (hrest : ∀ clause ∈ rest, relating.Fits stores clause.test frame frame' ∧
        relating.Fits stores clause.consequence frame frame') :
      Parts stores (.cond consequence rest frame) (.cond consequence rest frame')
  | letIn {name : Name} {text : String} {init : Expr} {body : NodeId} {frame frame' : FrameId}
      (htext : names.text? name = some text)
      (hpart : .letIn text init ((program.reading names).exprAt body) ∈ expr.parts)
      (hfits : relating.fits stores (.letIn text init ((program.reading names).exprAt body))
        frame frame') :
      Parts stores (.letIn name body frame) (.letIn name body frame')
  | assign {name : Name} {text : String} {init : Expr} {frame frame' : FrameId}
      (htext : names.text? name = some text) (hpart : .assign text init ∈ expr.parts)
      (hfits : relating.fits stores (.assign text init) frame frame') :
      Parts stores (.assign name frame) (.assign name frame')
  | operator {operator : NodeId} {operands : Span NodeId} {ids : List NodeId}
      {frame frame' : FrameId} (hread : operands.read? program.code.lists = some ids)
      (hoperator : relating.Fits stores operator frame frame')
      (hoperands : ∀ id ∈ ids, relating.Fits stores id frame frame') :
      Parts stores (.operator operator operands frame) (.operator operator operands frame')
  | operand {callee callee' : Value} {label : Option Name} {done done' : List Value}
      {rest : List NodeId} {caller : Expr} {frame frame' : FrameId}
      (hcallee : relating.values stores callee callee')
      (hlabel : (program.reading names).Labelled label)
      (hdone : List.Forall₂ (relating.values stores) done done')
      (hcaller : relating.fits stores caller frame frame')
      (hrest : ∀ id ∈ rest, relating.Fits stores id frame frame') :
      Parts stores (.operand callee label done rest frame) (.operand callee' label done' rest frame')
  | leave : Parts stores .leave .leave

inductive Focuses (stores : Stores) : Focus → Focus → Prop where
  | node {id : NodeId} {frame frame' : FrameId} (h : relating.Fits stores id frame frame') :
      Focuses stores (.node id frame) (.node id frame')
  | value {value value' : Value} (h : relating.values stores value value') :
      Focuses stores (.outcome (.ok value)) (.outcome (.ok value'))
  | halt (halt : Halt) : Focuses stores (.outcome (.error halt)) (.outcome (.error halt))

/-- What both machines keep besides what they attend to: the same calls are open, and stores and
pending parts are related. -/
structure Waiting (stores : Stores) (calls : CallStack) (pending pending' : List Pending) :
    Prop where
  valid : relating.valid stores
  labelled : ∀ label ∈ calls.frames.toList, (program.reading names).Labelled label
  parts : List.Forall₂ (relating.Parts stores) pending pending'

inductive InStep : Machine → Machine → Prop where
  | intro {stores : Stores} {calls : CallStack} {focus focus' : Focus}
      {pending pending' : List Pending} (hwaiting : relating.Waiting stores calls pending pending')
      (hfocus : relating.Focuses stores focus focus') :
      InStep ⟨focus, pending, ⟨stores.left, calls⟩⟩ ⟨focus', pending', ⟨stores.right, calls⟩⟩

end Machines

variable {relating : Relating program names expr} {left right : Setting}
  {stores before after : Stores} {calls : CallStack}
  {pending pending' : List Pending} {frame frame' : FrameId} {id : NodeId} {label : Option Name}
  {args args' : List Value} {caller : Expr}

theorem Fits.leads (h : relating.Fits before id frame frame') (hleads : relating.Leads before after) :
    relating.Fits after id frame frame' :=
  ⟨h.1, hleads.fits _ _ _ h.2⟩

theorem Fits.direct {child : NodeId} (coupling : relating.Coupling left right)
    (h : relating.Fits stores id frame frame')
    (hchild : (program.reading names).exprAt child ∈ ((program.reading names).exprAt id).direct) :
    relating.Fits stores child frame frame' :=
  ⟨Expr.part_trans h.1 (Expr.inside_of_direct hchild), coupling.direct h.2 hchild⟩

theorem Parts.leads {part part' : Pending} (h : relating.Parts before part part')
    (hleads : relating.Leads before after) : relating.Parts after part part' := by
  cases h with
  | block hrest => exact .block fun id hid => (hrest id hid).leads hleads
  | cond hconsequence hrest =>
    refine .cond (hconsequence.leads hleads) fun clause hclause => ?_
    exact ⟨(hrest clause hclause).1.leads hleads, (hrest clause hclause).2.leads hleads⟩
  | letIn htext hpart hfits => exact .letIn htext hpart (hleads.fits _ _ _ hfits)
  | assign htext hpart hfits => exact .assign htext hpart (hleads.fits _ _ _ hfits)
  | operator hread hoperator hoperands =>
    exact .operator hread (hoperator.leads hleads) fun id hid => (hoperands id hid).leads hleads
  | operand hcallee hlabel hdone hcaller hrest =>
    exact .operand (hcallee.mono hleads.closures) hlabel
      (hdone.imp fun _ _ hvalue => hvalue.mono hleads.closures) (hleads.fits _ _ _ hcaller)
      fun id hid => (hrest id hid).leads hleads
  | leave => exact .leave

namespace Waiting

theorem leads (h : relating.Waiting before calls pending pending')
    (hleads : relating.Leads before after) : relating.Waiting after calls pending pending' :=
  ⟨hleads.valid, h.labelled, h.parts.imp fun _ _ hpart => hpart.leads hleads⟩

theorem push {part part' : Pending} (h : relating.Waiting stores calls pending pending')
    (hpart : relating.Parts stores part part') :
    relating.Waiting stores calls (part :: pending) (part' :: pending') :=
  ⟨h.valid, h.labelled, .cons hpart h.parts⟩

theorem enter (h : relating.Waiting stores calls pending pending')
    (hlabel : (program.reading names).Labelled label) :
    relating.Waiting stores (calls.enter label) pending pending' := by
  refine ⟨h.valid, fun other hother => ?_, h.parts⟩
  rw [CallStack.enter, Array.toList_push] at hother
  rcases List.mem_append.1 hother with hold | hnew
  · exact h.labelled other hold
  · rw [List.mem_singleton.1 hnew]
    exact hlabel

theorem leave (h : relating.Waiting stores calls pending pending') :
    relating.Waiting stores calls.leave pending pending' := by
  refine ⟨h.valid, fun other hother => h.labelled other ?_, h.parts⟩
  rw [CallStack.leave, Array.toList_pop] at hother
  exact List.dropLast_subset _ hother

/-! ### Starting forms -/

variable (hwaiting : relating.Waiting stores calls pending pending')
include hwaiting

theorem node (h : relating.Fits stores id frame frame') :
    relating.InStep ⟨.node id frame, pending, ⟨stores.left, calls⟩⟩
      ⟨.node id frame', pending', ⟨stores.right, calls⟩⟩ :=
  .intro hwaiting (.node h)

theorem value {value value' : Value} (h : relating.values stores value value') :
    relating.InStep ⟨.outcome (.ok value), pending, ⟨stores.left, calls⟩⟩
      ⟨.outcome (.ok value'), pending', ⟨stores.right, calls⟩⟩ :=
  .intro hwaiting (.value h)

theorem halt {halt halt' : Halt} (h : halt' = halt) :
    relating.InStep ⟨.outcome (.error halt), pending, ⟨stores.left, calls⟩⟩
      ⟨.outcome (.error halt'), pending', ⟨stores.right, calls⟩⟩ := by
  subst h
  exact .intro hwaiting (.halt halt')

theorem bool (value : Bool) :
    relating.InStep ⟨.outcome (.ok (.bool value)), pending, ⟨stores.left, calls⟩⟩
      ⟨.outcome (.ok (.bool value)), pending', ⟨stores.right, calls⟩⟩ :=
  hwaiting.value (.primitive (.bool value))

theorem startBlock {items : List NodeId}
    (hitems : ∀ id ∈ items, relating.Fits stores id frame frame') :
    relating.InStep (Setting.startBlock items frame pending ⟨stores.left, calls⟩)
      (Setting.startBlock items frame' pending' ⟨stores.right, calls⟩) := by
  obtain _ | ⟨item, _ | ⟨next, rest⟩⟩ := items
  · exact hwaiting.bool false
  · exact hwaiting.node (hitems item (List.mem_cons_self ..))
  · obtain ⟨hitem, hrest⟩ := List.forall_mem_cons.1 hitems
    exact (hwaiting.push (.block hrest)).node hitem

theorem startCond {clauses : List Clause}
    (hclauses : ∀ clause ∈ clauses, relating.Fits stores clause.test frame frame' ∧
      relating.Fits stores clause.consequence frame frame') :
    relating.InStep (Setting.startCond clauses frame pending ⟨stores.left, calls⟩)
      (Setting.startCond clauses frame' pending' ⟨stores.right, calls⟩) := by
  cases clauses with
  | nil => exact hwaiting.bool false
  | cons clause rest =>
    obtain ⟨hclause, hrest⟩ := List.forall_mem_cons.1 hclauses
    exact (hwaiting.push (.cond hclause.2 hrest)).node hclause.1

theorem startInt (literal : Int) :
    relating.InStep ⟨.outcome (evalInt literal), pending, ⟨stores.left, calls⟩⟩
      ⟨.outcome (evalInt literal), pending', ⟨stores.right, calls⟩⟩ := by
  unfold evalInt
  cases literalWord literal with
  | error fault => exact hwaiting.halt rfl
  | ok word => exact hwaiting.value (.primitive (.int word))

end Waiting

/-! ### Calls -/

section Calls

variable {first second : Closure}

variable (coupling : relating.Coupling left right)
  (hwaiting : relating.Waiting stores calls pending pending')
include coupling hwaiting

theorem Waiting.startClosure (hcaller : relating.fits stores caller frame frame')
    (hclosures : relating.closures stores first second)
    (hargs : List.Forall₂ (relating.values stores) args args')
    (hlabel : (program.reading names).Labelled label) :
    relating.InStep
      (left.startCall (.closure first) args frame label pending ⟨stores.left, calls⟩)
      (right.startCall (.closure second) args' frame' label pending' ⟨stores.right, calls⟩) := by
  have hsame := coupling.sameLambda hclosures
  simp only [Setting.startCall, Setting.enter]
  -- Both runs refuse the call for the same reason, or both make a frame for it.
  rcases coupling.count_eq_or_checkCount_eq hclosures hargs hlabel with
    hcount | ⟨halt, hleft, hright⟩
  · have hcount' : second.params.length = args'.length := by
      rw [hsame.params, hcount, hargs.length_eq]
    rcases coupling.nodup_or_bindParams_eq hclosures hargs hcount with hnodup | ⟨halt, hleft, hright⟩
    · have hnodup' : second.params.Nodup := hsame.params ▸ hnodup
      obtain ⟨hleads, hbody⟩ := coupling.call hwaiting.valid hcaller hclosures hargs hcount hnodup
      cases hover : calls.overflow? with
      | some fault =>
        rw [Setting.enterClosure_of_overflow hcount hnodup hover,
          Setting.enterClosure_of_overflow hcount' hnodup' hover, coupling.callFrame_eq hclosures]
        exact (hwaiting.leads hleads).halt (coupling.attach_eq _ hwaiting.labelled)
      | none =>
        rw [Setting.enterClosure_of_room hcount hnodup hover,
          Setting.enterClosure_of_room hcount' hnodup' hover, coupling.callFrame_eq hclosures,
          hsame.body]
        exact (((hwaiting.leads hleads).enter hlabel).push .leave).node
          ⟨hsame.body_mem_parts, hbody⟩
    · simp only [Setting.enterClosure, Setting.checkCount_of_eq hcount,
        Setting.checkCount_of_eq hcount', hleft, hright]
      exact hwaiting.halt rfl
  · simp only [Setting.enterClosure, hleft, hright]
    exact hwaiting.halt rfl

theorem Waiting.startCall {callee callee' : Value}
    (hcaller : relating.fits stores caller frame frame')
    (hcallee : relating.values stores callee callee')
    (hargs : List.Forall₂ (relating.values stores) args args')
    (hlabel : (program.reading names).Labelled label) :
    relating.InStep (left.startCall callee args frame label pending ⟨stores.left, calls⟩)
      (right.startCall callee' args' frame' label pending' ⟨stores.right, calls⟩) := by
  cases hcallee with
  | closure hclosures => exact hwaiting.startClosure coupling hcaller hclosures hargs hlabel
  | plain hplain =>
    cases callee with
    | closure closure => exact absurd rfl (hplain closure)
    | int | str | bool => exact hwaiting.halt rfl
    | native native =>
      simp only [Setting.startCall, Setting.enter]
      rcases Value.Coupled.call native hargs with
        ⟨fault, hleft, hright⟩ | ⟨primitive, hleft, hright⟩
      · rw [hleft, hright]
        exact hwaiting.halt rfl
      · rw [hleft, hright]
        exact hwaiting.value (.primitive primitive)

theorem Waiting.startOperands {callee callee' : Value} {done done' : List Value}
    {operands : List NodeId} (hcaller : relating.fits stores caller frame frame')
    (hcallee : relating.values stores callee callee')
    (hlabel : (program.reading names).Labelled label)
    (hdone : List.Forall₂ (relating.values stores) done done')
    (hoperands : ∀ id ∈ operands, relating.Fits stores id frame frame') :
    relating.InStep
      (left.startOperands callee label done operands frame pending ⟨stores.left, calls⟩)
      (right.startOperands callee' label done' operands frame' pending' ⟨stores.right, calls⟩) := by
  cases operands with
  | nil => exact hwaiting.startCall coupling hcaller hcallee (List.forall₂_reverse_iff.2 hdone) hlabel
  | cons operand rest =>
    obtain ⟨hoperand, hrest⟩ := List.forall_mem_cons.1 hoperands
    exact (hwaiting.push (.operand hcallee hlabel hdone hcaller hrest)).node hoperand

end Calls

/-! ### Steps -/

section Steps

variable (coupling : relating.Coupling left right)
  (hwaiting : relating.Waiting stores calls pending pending')
include coupling hwaiting

theorem Waiting.startLambda {params : Span Name} {found : List Name} {body : NodeId}
    (hread : params.read? program.code.params = some found)
    (hnamed : ∀ param ∈ found, (names.text? param).isSome)
    (hpart : .lambda (found.map (program.reading names).textOf)
      ((program.reading names).exprAt body) ∈ expr.parts)
    (hfits : relating.fits stores (.lambda (found.map (program.reading names).textOf)
      ((program.reading names).exprAt body)) frame frame') :
    relating.InStep
      ⟨.outcome (left.evalLambda params body frame ⟨stores.left, calls⟩).1, pending,
        (left.evalLambda params body frame ⟨stores.left, calls⟩).2⟩
      ⟨.outcome (right.evalLambda params body frame' ⟨stores.right, calls⟩).1, pending',
        (right.evalLambda params body frame' ⟨stores.right, calls⟩).2⟩ := by
  simp only [Setting.evalLambda, coupling.code_left, coupling.code_right, hread]
  obtain ⟨hleads, hclosures⟩ := coupling.lambda hwaiting.valid ⟨rfl, rfl, hnamed, hpart⟩ hfits
  exact (hwaiting.leads hleads).value (.closure hclosures)

theorem Waiting.startIdent {name : Name} {text : String} (htext : names.text? name = some text)
    (hpart : .ident text ∈ expr.parts) (hfits : relating.fits stores (.ident text) frame frame') :
    relating.InStep
      ⟨.outcome (left.evalIdent name frame ⟨stores.left, calls⟩), pending, ⟨stores.left, calls⟩⟩
      ⟨.outcome (right.evalIdent name frame' ⟨stores.right, calls⟩), pending',
        ⟨stores.right, calls⟩⟩ := by
  have hnamed : (names.text? name).isSome := Option.isSome_iff_exists.2 ⟨text, htext⟩
  have hlookup := coupling.ident hwaiting.valid htext hpart hfits
  unfold Setting.evalIdent
  generalize stores.left.lookup frame name = found at hlookup
  generalize stores.right.lookup frame' name = found' at hlookup
  cases hlookup with
  | some hvalue => exact hwaiting.value hvalue
  | none => exact hwaiting.halt (coupling.faultFor_eq _ hnamed)

/-- Both machines start the same node in the same way; `Stands` says what node it is. -/
theorem Waiting.startNode (hfits : relating.Fits stores id frame frame') :
    relating.InStep (left.startNode id frame pending ⟨stores.left, calls⟩)
      (right.startNode id frame' pending' ⟨stores.right, calls⟩) := by
  have hstands := Setting.stands coupling.decoded.readable_reading id
  simp only [Setting.startNode, coupling.code_left, coupling.code_right]
  generalize hexpr : (program.reading names).exprAt id = tree at hstands
  have hchild {child : NodeId} (hchild : (program.reading names).exprAt child ∈ tree.direct) :
      relating.Fits stores child frame frame' := hfits.direct coupling (hexpr ▸ hchild)
  obtain ⟨hpart, hfits⟩ := hfits
  rw [hexpr] at hpart hfits
  cases hstands with
  | outside hnode =>
    simp only [show program.code.node? id = none from hnode]
    exact hwaiting.halt rfl
  | @int literal hnode =>
    simp only [show program.code.node? id = some (.int literal) from hnode]
    exact hwaiting.startInt literal
  | @str name text hnode htext =>
    simp only [show program.code.node? id = some (.str name) from hnode, Setting.evalStr,
      coupling.names_left name text htext, coupling.names_right name text htext]
    exact hwaiting.value (.primitive (.str text))
  | @ident name text hnode htext =>
    simp only [show program.code.node? id = some (.ident name) from hnode]
    exact hwaiting.startIdent coupling htext hpart hfits
  | @apply operator operands ids _ _ hnode hread hfirst hrest =>
    subst hfirst hrest
    have hoperator := hchild (List.mem_cons_self ..)
    have hoperands : ∀ id ∈ ids, relating.Fits stores id frame frame' :=
      fun id hid => hchild (List.mem_cons_of_mem _ (List.mem_map_of_mem hid))
    simp only [show program.code.node? id = some (.apply operator operands) from hnode]
    exact (hwaiting.push (.operator hread hoperator hoperands)).node hoperator
  | @lambda params body _ _ _ hnode hread hnamed htexts hbody =>
    subst htexts hbody
    simp only [show program.code.node? id = some (.lambda params body) from hnode]
    exact hwaiting.startLambda coupling hread hnamed hpart hfits
  | @block items ids _ hnode hread hexprs =>
    subst hexprs
    simp only [show program.code.node? id = some (.block items) from hnode,
      show items.read? program.code.lists = some ids from hread]
    exact hwaiting.startBlock fun id hid => hchild (List.mem_map_of_mem hid)
  | @cond clauses found _ hnode hread hpairs =>
    subst hpairs
    simp only [show program.code.node? id = some (.cond clauses) from hnode,
      show clauses.read? program.code.clauses = some found from hread]
    refine hwaiting.startCond fun clause hclause => ⟨hchild ?_, hchild ?_⟩
    · exact Expr.mem_direct_cond_iff.2 ⟨_, List.mem_map_of_mem hclause, .inl rfl⟩
    · exact Expr.mem_direct_cond_iff.2 ⟨_, List.mem_map_of_mem hclause, .inr rfl⟩
  | @letIn name text init body _ _ hnode htext hinit hbody =>
    subst hinit hbody
    simp only [show program.code.node? id = some (.letIn name init body) from hnode]
    exact (hwaiting.push (.letIn htext hpart hfits)).node (hchild (List.mem_cons_self ..))
  | @assign name text value _ hnode htext hvalue =>
    subst hvalue
    simp only [show program.code.node? id = some (.assign name value) from hnode]
    exact (hwaiting.push (.assign htext hpart hfits)).node (hchild (List.mem_cons_self ..))
  | @unknown tag text hnode htext =>
    simp only [show program.code.node? id = some (.unknown tag) from hnode]
    exact hwaiting.halt (coupling.faultFor_eq _ (Option.isSome_iff_exists.2 ⟨text, htext⟩))

theorem Waiting.leaveCall {outcome outcome' : Outcome}
    (houtcome : relating.Focuses stores (.outcome outcome) (.outcome outcome')) :
    relating.InStep
      ⟨.outcome (left.leave outcome ⟨stores.left, calls⟩).1, pending,
        (left.leave outcome ⟨stores.left, calls⟩).2⟩
      ⟨.outcome (right.leave outcome' ⟨stores.right, calls⟩).1, pending',
        (right.leave outcome' ⟨stores.right, calls⟩).2⟩ := by
  by_cases hempty : calls.isEmpty = true
  · simp only [Setting.leave, hempty, if_true]
    exact hwaiting.halt rfl
  · simp only [Setting.leave, hempty, Bool.false_eq_true, if_false]
    cases houtcome with
    | value hvalue => exact hwaiting.leave.value hvalue
    | halt halt => exact hwaiting.leave.halt (coupling.attach_eq halt hwaiting.labelled)

theorem Waiting.resumeAssign {name : Name} {text : String} {init : Expr} {value value' : Value}
    (htext : names.text? name = some text) (hpart : .assign text init ∈ expr.parts)
    (hfits : relating.fits stores (.assign text init) frame frame')
    (hvalue : relating.values stores value value') :
    relating.InStep (left.resume (.assign name frame) value pending ⟨stores.left, calls⟩)
      (right.resume (.assign name frame') value' pending' ⟨stores.right, calls⟩) := by
  obtain ⟨hbound, hleads⟩ := coupling.assign hwaiting.valid htext hpart hfits hvalue
  simp only [Setting.resume, Setting.assignName, hbound]
  by_cases hcontains : stores.left.contains frame name = true
  · simp only [hcontains, if_true]
    have hafter := hleads hcontains
    exact (hwaiting.leads hafter).value (hvalue.mono hafter.closures)
  · simp only [hcontains]
    exact hwaiting.halt (coupling.faultFor_eq _ (Option.isSome_iff_exists.2 ⟨text, htext⟩))

theorem Waiting.resumeOperator {operator : NodeId} {operands : Span NodeId} {ids : List NodeId}
    {value value' : Value} (hread : operands.read? program.code.lists = some ids)
    (hoperator : relating.Fits stores operator frame frame')
    (hoperands : ∀ id ∈ ids, relating.Fits stores id frame frame')
    (hvalue : relating.values stores value value') :
    relating.InStep
      (left.resume (.operator operator operands frame) value pending ⟨stores.left, calls⟩)
      (right.resume (.operator operator operands frame') value' pending'
        ⟨stores.right, calls⟩) := by
  simp only [Setting.resume, hvalue.isCallable_eq, hvalue.typeName_eq, coupling.code_left,
    coupling.code_right, hread]
  by_cases hcallable : value.isCallable = true
  · simp only [hcallable, if_true]
    have hlabel := (Setting.callLabel_spec coupling.decoded.readable_reading operator).1
    exact hwaiting.startOperands coupling hoperator.2 hvalue hlabel .nil hoperands
  · simp only [hcallable]
    exact hwaiting.halt rfl

theorem Waiting.resume {part part' : Pending} {value value' : Value}
    (hpart : relating.Parts stores part part') (hvalue : relating.values stores value value') :
    relating.InStep (left.resume part value pending ⟨stores.left, calls⟩)
      (right.resume part' value' pending' ⟨stores.right, calls⟩) := by
  cases hpart with
  | block hrest => exact hwaiting.startBlock hrest
  | cond hconsequence hrest =>
    simp only [Setting.resume, hvalue.test_eq]
    cases value.test with
    | error fault => exact hwaiting.halt rfl
    | ok test =>
      cases test with
      | true => exact hwaiting.node hconsequence
      | false => exact hwaiting.startCond hrest
  | @letIn name text init body _ _ htext hpart hfits =>
    obtain ⟨hleads, hbody⟩ := coupling.letIn hwaiting.valid htext hpart hfits hvalue
    have hinside : (program.reading names).exprAt body ∈ expr.parts :=
      Expr.part_trans hpart (by simp [Expr.inside])
    exact (hwaiting.leads hleads).node ⟨hinside, hbody⟩
  | assign htext hpart hfits => exact hwaiting.resumeAssign coupling htext hpart hfits hvalue
  | operator hread hoperator hoperands =>
    exact hwaiting.resumeOperator coupling hread hoperator hoperands hvalue
  | operand hcallee hlabel hdone hcaller hrest =>
    exact hwaiting.startOperands coupling hcaller hcallee hlabel (.cons hvalue hdone) hrest
  | leave => exact hwaiting.leaveCall coupling (.value hvalue)

theorem Waiting.unwind {part part' : Pending} (hpart : relating.Parts stores part part')
    (halt : Halt) : relating.InStep (left.unwind part halt pending ⟨stores.left, calls⟩)
      (right.unwind part' halt pending' ⟨stores.right, calls⟩) := by
  cases hpart with
  | leave => exact hwaiting.leaveCall coupling (.halt halt)
  | block | cond | letIn | assign | operator | operand => exact hwaiting.halt rfl

end Steps

/-- Machines in step stay in step. -/
theorem InStep.step (coupling : relating.Coupling left right) {machine machine' : Machine}
    (h : relating.InStep machine machine') :
    relating.InStep (left.step machine) (right.step machine') := by
  obtain ⟨hwaiting, hfocus⟩ := h
  cases hfocus with
  | node hfits => exact hwaiting.startNode coupling hfits
  | value hvalue =>
    obtain ⟨hvalid, hlabelled, hparts⟩ := hwaiting
    cases hparts with
    | nil => exact .intro ⟨hvalid, hlabelled, .nil⟩ (.value hvalue)
    | cons hpart hrest =>
      have hwaiting : relating.Waiting _ _ _ _ := ⟨hvalid, hlabelled, hrest⟩
      exact hwaiting.resume coupling hpart hvalue
  | halt halt =>
    obtain ⟨hvalid, hlabelled, hparts⟩ := hwaiting
    cases hparts with
    | nil => exact .intro ⟨hvalid, hlabelled, .nil⟩ (.halt halt)
    | cons hpart hrest =>
      have hwaiting : relating.Waiting _ _ _ _ := ⟨hvalid, hlabelled, hrest⟩
      exact hwaiting.unwind coupling hpart halt

/-- Machines in step make the same number of steps and end in step. -/
theorem InStep.run (coupling : relating.Coupling left right) {machine machine' : Machine}
    (h : relating.InStep machine machine') (steps : Nat) :
    Option.Rel (fun result result' => relating.InStep ⟨.outcome result.1, [], result.2⟩
        ⟨.outcome result'.1, [], result'.2⟩)
      (left.run steps machine) (right.run steps machine') := by
  induction steps generalizing machine machine' with
  | zero => exact .none
  | succ steps ih =>
    have hstep := ih (h.step coupling)
    obtain ⟨⟨hvalid, hlabelled, hparts⟩, hfocus⟩ := h
    cases hparts with
    | cons hpart hrest => cases hfocus <;> exact hstep
    | nil =>
      cases hfocus with
      | node hfits => exact hstep
      | value hvalue => exact .some (.intro ⟨hvalid, hlabelled, .nil⟩ (.value hvalue))
      | halt halt => exact .some (.intro ⟨hvalid, hlabelled, .nil⟩ (.halt halt))

/-! ### Programs -/

/-- Two runs of a program that are related when they start fail in the same way or give related
values. -/
theorem runProgram_cases (steps : Nat) {config config' : Config} {defines defines' : List (String × Word)}
    (coupling : relating.Coupling (program.startSetting names config defines)
      (program.startSetting names config' defines'))
    (hdepth : config'.maxDepth = config.maxDepth)
    (hvalid : relating.valid ⟨(Program.start names defines).2, (Program.start names defines').2⟩)
    (hfits : relating.fits ⟨(Program.start names defines).2, (Program.start names defines').2⟩ expr
      Program.startFrame Program.startFrame) :
    (∃ failure, runProgram steps program names config defines = .error failure ∧
        runProgram steps program names config' defines' = .error failure) ∨
      ∃ stores value value', runProgram steps program names config defines = .ok value ∧
        runProgram steps program names config' defines' = .ok value' ∧
        relating.values stores value value' := by
  have hroot : (program.reading names).exprAt program.root = expr :=
    Setting.exprAt_of_expr? coupling.decoded.root
  have hwaiting : relating.Waiting
      ⟨(Program.start names defines).2, (Program.start names defines').2⟩ (.new config.maxDepth)
      [] [] := ⟨hvalid, fun label hlabel => (List.not_mem_nil hlabel).elim, .nil⟩
  have hfirst : relating.Fits
      ⟨(Program.start names defines).2, (Program.start names defines').2⟩ program.root
      Program.startFrame Program.startFrame := by
    rw [Fits, hroot]
    exact ⟨expr.self_mem_parts, hfits⟩
  have hrun := (hwaiting.node hfirst).run coupling steps
  rw [Program.runProgram_eq_start, Program.runProgram_eq_start, hdepth]
  unfold Setting.evaluateWithin
  generalize (program.startSetting names config defines).run _ _ = result at hrun
  generalize (program.startSetting names config' defines').run _ _ = result' at hrun
  cases hrun with
  | none => exact .inl ⟨.unfinished, rfl, rfl⟩
  | @some result result' hlast =>
    obtain ⟨outcome, memory⟩ := result
    obtain ⟨outcome', memory'⟩ := result'
    obtain ⟨-, hfocus⟩ := hlast
    cases hfocus with
    | value hvalue => exact .inr ⟨_, _, _, rfl, rfl, hvalue⟩
    | halt halt => exact .inl ⟨.halt halt, rfl, rfl⟩

end FlatScope.Relating
