import FlatScope.Eval.Agreement

/-!
# Code that is not visited

An unknown form fails when it is evaluated, and nothing looks at it before.  A run that does not fail
over it has not come to it, so the run is the same whatever stands in its place.
-/

namespace FlatScope

/-- Two codes that differ at most in the nodes with the given ids. -/
structure Code.SameOutside (replaced : NodeId → Prop) (code other : Code) : Prop where
  lists : other.lists = code.lists
  clauses : other.clauses = code.clauses
  params : other.params = code.params
  node? : ∀ id, ¬ replaced id → other.node? id = code.node? id

theorem Code.SameOutside.callLabel {replaced : NodeId → Prop} {code other : Code}
    (h : code.SameOutside replaced other) {id : NodeId} (hid : ¬ replaced id) :
    other.callLabel id = code.callLabel id := by
  simp only [Code.callLabel, h.node? id hid]

namespace Setting

variable {setting : Setting} {tag : Name} {halt : Halt} {memory after : Memory}
  {pending : List Pending} {outcome : Outcome} {steps : Nat} {id : NodeId} {frame : FrameId}

/-! ### Halts over an unknown form -/

/-- What a run can end with once it has come to a form with an unknown tag. -/
def Blames (setting : Setting) (tag : Name) : Halt → Prop
  | .raised raised =>
    ∃ text, setting.names.text? tag = some text ∧ raised.fault = .unknownForm text
  | .breach _ => True

theorem blames_faultFor (setting : Setting) (tag : Name) :
    setting.Blames tag (setting.names.faultFor tag .unknownForm) := by
  unfold NameTable.faultFor
  cases htext : setting.names.text? tag with
  | none => trivial
  | some text => exact ⟨text, htext, rfl⟩

theorem Blames.attach (h : setting.Blames tag halt) (calls : CallStack) :
    setting.Blames tag (setting.attach calls halt) := by
  cases halt with
  | breach breach => trivial
  | raised raised =>
    simp only [Setting.attach, CallStack.attach?]
    split
    · rename_i found hfound
      split at hfound
      · cases hfound
        exact h
      · obtain ⟨backtrace, -, rfl⟩ := Option.map_eq_some_iff.1 hfound
        exact h
    · trivial

theorem Blames.leave (h : setting.Blames tag halt) (memory : Memory) :
    ∃ last, (setting.leave (.error halt) memory).1 = .error last ∧ setting.Blames tag last := by
  unfold Setting.leave
  by_cases hempty : memory.calls.isEmpty = true
  · rw [if_pos hempty]
    exact ⟨.breach .calls, rfl, trivial⟩
  · rw [if_neg hempty]
    exact ⟨_, rfl, h.attach memory.calls⟩

theorem Blames.unwind (h : setting.Blames tag halt) (part : Pending) (pending : List Pending)
    (memory : Memory) : ∃ last memory',
      setting.unwind part halt pending memory = ⟨.outcome (.error last), pending, memory'⟩ ∧
        setting.Blames tag last := by
  cases part with
  | leave =>
    obtain ⟨last, hlast, hblames⟩ := h.leave memory
    refine ⟨last, (setting.leave (.error halt) memory).2, ?_, hblames⟩
    simp only [Setting.unwind, hlast]
  | block | cond | letIn | assign | operator | operand => exact ⟨halt, memory, rfl, h⟩

/-- No pending part makes up for a form with an unknown tag. -/
theorem Blames.run (h : setting.Blames tag halt)
    (hrun : setting.run steps ⟨.outcome (.error halt), pending, memory⟩ = some (outcome, after)) :
    ∃ last, outcome = .error last ∧ setting.Blames tag last := by
  induction pending generalizing halt memory steps with
  | nil =>
    cases steps with
    | zero => cases hrun
    | succ steps =>
      cases hrun
      exact ⟨halt, rfl, h⟩
  | cons part rest ih =>
    cases steps with
    | zero => cases hrun
    | succ steps =>
      obtain ⟨last, memory', hunwind, hblames⟩ := h.unwind part rest memory
      simp only [Setting.run, Setting.step, hunwind] at hrun
      exact ih hblames hrun

theorem blames_of_run_unknown (hnode : setting.code.node? id = some (.unknown tag))
    (hrun : setting.run steps ⟨.node id frame, pending, memory⟩ = some (outcome, after)) :
    ∃ last, outcome = .error last ∧ setting.Blames tag last := by
  cases steps with
  | zero => cases hrun
  | succ steps =>
    simp only [Setting.run, Setting.step, startNode, hnode, evalUnknown] at hrun
    exact (setting.blames_faultFor tag).run hrun

end Setting

/-! ### Two codes in step -/

/-- A pending application looks at its operator again, for the label of the call. -/
def Pending.Avoids (replaced : NodeId → Prop) : Pending → Prop
  | .operator id _ _ => ¬ replaced id
  | _ => True

def Machine.Avoids (replaced : NodeId → Prop) (machine : Machine) : Prop :=
  ∀ part ∈ machine.pending, part.Avoids replaced

namespace Setting

variable {setting : Setting} {tag : Name} {memory after : Memory} {pending : List Pending}
  {outcome : Outcome} {steps : Nat} {id : NodeId} {frame : FrameId} {replaced : NodeId → Prop}
  {code : Code}

theorem avoids_startBlock (items : List NodeId) (h : ∀ part ∈ pending, part.Avoids replaced) :
    (startBlock items frame pending memory).Avoids replaced := by
  unfold startBlock
  split
  · exact h
  · exact h
  · exact List.forall_mem_cons.2 ⟨trivial, h⟩

theorem avoids_startCond (clauses : List Clause) (h : ∀ part ∈ pending, part.Avoids replaced) :
    (startCond clauses frame pending memory).Avoids replaced := by
  unfold startCond
  split
  · exact h
  · exact List.forall_mem_cons.2 ⟨trivial, h⟩

theorem avoids_startCall (callee : Value) (args : List Value) (label : Option Name)
    (h : ∀ part ∈ pending, part.Avoids replaced) :
    (setting.startCall callee args frame label pending memory).Avoids replaced := by
  unfold startCall
  split
  · exact h
  · exact List.forall_mem_cons.2 ⟨trivial, h⟩

theorem avoids_startOperands (callee : Value) (label : Option Name) (done : List Value)
    (operands : List NodeId) (h : ∀ part ∈ pending, part.Avoids replaced) :
    (setting.startOperands callee label done operands frame pending memory).Avoids replaced := by
  unfold startOperands
  split
  · exact avoids_startCall _ _ _ h
  · exact List.forall_mem_cons.2 ⟨trivial, h⟩

theorem avoids_resume (part : Pending) (value : Value)
    (h : ∀ part ∈ pending, part.Avoids replaced) :
    (setting.resume part value pending memory).Avoids replaced := by
  cases part with
  | block rest frame => exact avoids_startBlock rest h
  | cond consequence rest frame =>
    simp only [resume]
    split
    · exact h
    · exact h
    · exact avoids_startCond rest h
  | letIn | assign | leave => exact h
  | operator operator operands frame =>
    simp only [resume]
    split
    · split
      · exact avoids_startOperands _ _ _ _ h
      · exact h
    · exact h
  | operand callee label done rest frame => exact avoids_startOperands _ _ _ _ h

theorem avoids_unwind (part : Pending) (halt : Halt)
    (h : ∀ part ∈ pending, part.Avoids replaced) :
    (setting.unwind part halt pending memory).Avoids replaced := by
  cases part <;> exact h

/-- What starting a node leaves pending avoids the replaced nodes, unless the node is an application
and its operator is the next node in focus. -/
theorem avoids_startNode (h : ∀ part ∈ pending, part.Avoids replaced) :
    (setting.startNode id frame pending memory).Avoids replaced ∨
      ∃ next parts, replaced next ∧
        setting.startNode id frame pending memory = ⟨.node next frame, parts, memory⟩ := by
  unfold startNode
  cases hnode : setting.code.node? id with
  | none => exact .inl h
  | some node =>
    cases node with
    | int | str | ident | lambda | unknown => exact .inl h
    | apply operator operands =>
      by_cases hoperator : replaced operator
      · exact .inr ⟨operator, _, hoperator, rfl⟩
      · exact .inl (List.forall_mem_cons.2 ⟨hoperator, h⟩)
    | block items =>
      cases hread : items.read? setting.code.lists with
      | none => simp only [hread]; exact .inl h
      | some ids => simp only [hread]; exact .inl (avoids_startBlock ids h)
    | cond clauses =>
      cases hread : clauses.read? setting.code.clauses with
      | none => simp only [hread]; exact .inl h
      | some found => simp only [hread]; exact .inl (avoids_startCond found h)
    | letIn | assign => exact .inl (List.forall_mem_cons.2 ⟨trivial, h⟩)

theorem startNode_sameOutside (hsame : setting.code.SameOutside replaced code)
    (hid : ¬ replaced id) :
    { setting with code := code }.startNode id frame pending memory =
      setting.startNode id frame pending memory := by
  simp only [startNode, hsame.node? id hid, hsame.lists, hsame.clauses, evalLambda, hsame.params]
  rfl

theorem resume_sameOutside (hsame : setting.code.SameOutside replaced code) {part : Pending}
    (hpart : part.Avoids replaced) (value : Value) :
    { setting with code := code }.resume part value pending memory =
      setting.resume part value pending memory := by
  cases part with
  | operator operator operands frame =>
    simp only [resume, hsame.lists, hsame.callLabel hpart]
    rfl
  | block | cond | letIn | assign | operand | leave => rfl

/-- The machine that attends to no replaced node makes the same step with either code. -/
theorem step_sameOutside (hsame : setting.code.SameOutside replaced code) {machine : Machine}
    (havoids : machine.Avoids replaced)
    (hfocus : ∀ id frame, machine.focus = .node id frame → ¬ replaced id) :
    { setting with code := code }.step machine = setting.step machine := by
  obtain ⟨focus, pending, memory⟩ := machine
  cases focus with
  | node id frame => exact startNode_sameOutside hsame (hfocus id frame rfl)
  | outcome outcome =>
    cases pending with
    | nil => rfl
    | cons part rest =>
      cases outcome with
      | ok value => exact resume_sameOutside hsame (havoids part (List.mem_cons_self ..)) value
      | error halt => cases part <;> rfl

theorem avoids_step {machine : Machine} (havoids : machine.Avoids replaced) :
    (setting.step machine).Avoids replaced ∨
      ∃ next frame parts memory, replaced next ∧
        setting.step machine = ⟨.node next frame, parts, memory⟩ := by
  obtain ⟨focus, pending, memory⟩ := machine
  cases focus with
  | node id frame =>
    rcases avoids_startNode havoids with havoids' | ⟨next, parts, hnext, hstart⟩
    · exact .inl havoids'
    · exact .inr ⟨next, frame, parts, memory, hnext, hstart⟩
  | outcome outcome =>
    cases pending with
    | nil => exact .inl havoids
    | cons part rest =>
      have hrest := (List.forall_mem_cons.1 havoids).2
      cases outcome with
      | ok value => exact .inl (avoids_resume part value hrest)
      | error halt => exact .inl (avoids_unwind part halt hrest)

/-- A run that does not end over the unknown tag is the same with either code. -/
theorem run_sameOutside (hsame : setting.code.SameOutside replaced code)
    (hunknown : ∀ id, replaced id → setting.code.node? id = some (.unknown tag))
    (houtcome : ∀ halt, outcome = .error halt → ¬ setting.Blames tag halt) {machine : Machine}
    (havoids : machine.Avoids replaced)
    (hrun : setting.run steps machine = some (outcome, after)) :
    { setting with code := code }.run steps machine = some (outcome, after) := by
  have hcomes {next : NodeId} {frame : FrameId} {parts : List Pending} {memory : Memory}
      {steps : Nat} (hnext : replaced next) :
      setting.run steps ⟨.node next frame, parts, memory⟩ ≠ some (outcome, after) := by
    intro hnode
    obtain ⟨halt, hhalt, hblames⟩ := blames_of_run_unknown (hunknown next hnext) hnode
    exact houtcome halt hhalt hblames
  induction steps generalizing machine with
  | zero => cases hrun
  | succ steps ih =>
    have hfocus : ∀ id frame, machine.focus = .node id frame → ¬ replaced id := by
      intro id frame heq hid
      obtain ⟨focus, pending, memory⟩ := machine
      cases heq
      exact hcomes hid hrun
    rcases run_succ { setting with code := code } steps machine with ⟨last, memory, rfl⟩ | hother
    · exact hrun
    rcases run_succ setting steps machine with ⟨last, memory, rfl⟩ | hstep
    · exact hrun
    · rw [hstep] at hrun
      rw [hother, step_sameOutside hsame havoids hfocus]
      rcases avoids_step havoids with hnext | ⟨next, frame, parts, memory, hnext, heq⟩
      · exact ih hnext hrun
      · rw [heq] at hrun
        exact absurd hrun (hcomes hnext)

/-- Let some nodes be of unknown forms with one tag.  A run that comes to a value, or to a fault other
than the one over that tag, comes to it again and leaves the same frames and calls, whatever stands
in the place of these nodes. -/
theorem unvisited_code_is_irrelevant (setting : Setting) (tag : Name) (replaced : NodeId → Prop)
    (hunknown : ∀ id, replaced id → setting.code.node? id = some (.unknown tag))
    (root : NodeId) (frame : FrameId) (memory after : Memory) (outcome : Outcome) (steps : Nat)
    (hrun : setting.run steps ⟨.node root frame, [], memory⟩ = some (outcome, after))
    (hreturns : ∀ breach, outcome ≠ .error (.breach breach))
    (hfault : ∀ text backtrace, setting.names.text? tag = some text →
      outcome ≠ .error (.raised ⟨.unknownForm text, backtrace⟩))
    (code : Code) (hsame : setting.code.SameOutside replaced code) :
    { setting with code := code }.run steps ⟨.node root frame, [], memory⟩ =
      some (outcome, after) := by
  refine run_sameOutside hsame hunknown ?_ (fun part hpart => nomatch hpart) hrun
  rintro (⟨fault, backtrace⟩ | breach) rfl hblames
  · obtain ⟨text, htext, rfl⟩ := hblames
    exact hfault text backtrace htext rfl
  · exact hreturns breach rfl

/-- A conditional whose first test is `true`, and whose second clause leads to a given node. -/
def skipping (node : Node) : Setting :=
  ⟨⟨#[.ident ⟨1⟩, .int 7, node, .cond ⟨0, 2⟩], #[], #[⟨⟨0⟩, ⟨1⟩⟩, ⟨⟨2⟩, ⟨2⟩⟩], #[]⟩,
    (NameTable.new.internAll ["true", "mystery"]).2, .lexical⟩

/-- A frame that binds `true`. -/
def onlyTrue : Memory := ⟨⟨#[⟨[(⟨1⟩, .bool true)], none⟩], 0⟩, .new none⟩

theorem sameOutside_skipping (first second : Node) :
    (skipping first).code.SameOutside (· = ⟨2⟩) (skipping second).code := by
  refine ⟨rfl, rfl, rfl, fun id hid => ?_⟩
  obtain ⟨raw⟩ := id
  match raw with
  | 0 | 1 | 3 => rfl
  | 2 => exact absurd rfl hid
  | _ + 4 => rfl

/-- The second clause is not visited, so it may call a node outside the code with operands outside
the table. -/
theorem unvisited_code_is_irrelevant_skipping :
    (skipping (.unknown ⟨2⟩)).run 5 ⟨.node ⟨3⟩ ⟨0⟩, [], onlyTrue⟩ =
        some (.ok (.int ⟨7, by decide⟩), onlyTrue) ∧
      (skipping (.apply ⟨99⟩ ⟨50, 3⟩)).run 5 ⟨.node ⟨3⟩ ⟨0⟩, [], onlyTrue⟩ =
        some (.ok (.int ⟨7, by decide⟩), onlyTrue) := by
  have hunknown : ∀ id : NodeId, id = ⟨2⟩ →
      (skipping (.unknown ⟨2⟩)).code.node? id = some (.unknown ⟨2⟩) := by
    rintro id rfl
    rfl
  refine ⟨rfl, ?_⟩
  exact unvisited_code_is_irrelevant (skipping (.unknown ⟨2⟩)) ⟨2⟩ (· = ⟨2⟩) hunknown ⟨3⟩ ⟨0⟩ _ _ _
    5 rfl (by simp) (by simp) _ (sameOutside_skipping _ _)

end Setting

end FlatScope
