import FlatScope.Proofs.Calls.Balance
import FlatScope.Proofs.Tree.Refinement
import FlatScope.Proofs.Tree.WellFormed

/-!
# Evaluation under a limit of calls ends

In well-formed code the nodes below a node have smaller ids, and the body of a closure, which can be
any node at all, is evaluated with one call more open.  So the evaluations that are nested in each
other are bounded by the ids of the nodes and the calls that the limit still admits
(`Code.nesting`), however often a closure calls itself.
-/

namespace FlatScope

/-! ### How deep evaluations nest -/

/-- A bound on the evaluations that are nested in each other when a node is evaluated and some
number of calls can still be opened. -/
def Code.nesting (code : Code) (room : Nat) (id : NodeId) : Nat :=
  room * (code.size + 1) + min id.raw code.size + 1

namespace Code

variable {code : Code} {room : Nat} {id : NodeId}

theorem nesting_lt_of_child {child : NodeId} (hchild : child.raw < id.raw)
    (hid : id.raw < code.size) : code.nesting room child < code.nesting room id := by
  unfold nesting
  omega

/-- The body of a call can be any node. -/
theorem nesting_lt_of_body (body : NodeId) :
    code.nesting room body < code.nesting (room + 1) id := by
  have hmul : (room + 1) * (code.size + 1) = room * (code.size + 1) + (code.size + 1) :=
    Nat.succ_mul room (code.size + 1)
  have hbody : min body.raw code.size ≤ code.size := Nat.min_le_right _ _
  unfold nesting
  omega

end Code

/-- An attempt that comes to an outcome, with the given calls open after it. -/
def Attempt.Settles (attempt : Attempt) (calls : CallStack) : Prop :=
  ∃ outcome store, attempt = some (outcome, ⟨store, calls⟩)

theorem Attempt.Settles.andThen {attempt : Attempt} {calls : CallStack}
    {next : Value → Memory → Attempt} (hfirst : attempt.Settles calls)
    (hnext : ∀ value store, (next value ⟨store, calls⟩).Settles calls) :
    (attempt.andThen next).Settles calls := by
  obtain ⟨outcome, store, rfl⟩ := hfirst
  cases outcome with
  | ok value => exact hnext value store
  | error halt => exact ⟨.error halt, store, rfl⟩

namespace Setting

variable {setting : Setting} {eval : Evaluator} {calls : CallStack} {id : NodeId}

/-! ### One level of evaluation -/

/-- An evaluator that comes to an outcome for the nodes before a node, and for every node when one
call more is open. -/
structure Answers (eval : Evaluator) (calls : CallStack) (id : NodeId) : Prop where
  below : ∀ child frame store, child.raw < id.raw → (eval child frame ⟨store, calls⟩).Settles calls
  inside : calls.overflow? = none → ∀ body frame store label,
    (eval body frame ⟨store, calls.enter label⟩).Settles (calls.enter label)

theorem Answers.block (h : Answers eval calls id) (frame : FrameId) {items : List NodeId}
    (hitems : ∀ item ∈ items, item.raw < id.raw) (store : Store) :
    (eval.block frame items ⟨store, calls⟩).Settles calls := by
  induction items generalizing store with
  | nil => exact ⟨_, store, rfl⟩
  | cons item rest ih =>
    have hitem := h.below item frame store (hitems item (List.mem_cons_self ..))
    have hrest := ih fun other hother => hitems other (List.mem_cons_of_mem _ hother)
    cases rest with
    | nil => exact hitem
    | cons next rest => exact hitem.andThen fun _ store => hrest store

theorem Answers.cond (h : Answers eval calls id) (frame : FrameId) {clauses : List Clause}
    (hclauses : ∀ clause ∈ clauses, clause.test.raw < id.raw ∧ clause.consequence.raw < id.raw)
    (store : Store) : (eval.cond frame clauses ⟨store, calls⟩).Settles calls := by
  induction clauses generalizing store with
  | nil => exact ⟨_, store, rfl⟩
  | cons clause rest ih =>
    obtain ⟨htest, hconsequence⟩ := hclauses clause (List.mem_cons_self ..)
    have hrest := ih fun other hother => hclauses other (List.mem_cons_of_mem _ hother)
    refine (h.below clause.test frame store htest).andThen fun value store => ?_
    cases value.test with
    | error fault => exact ⟨_, store, rfl⟩
    | ok test =>
      cases test with
      | true => exact h.below clause.consequence frame store hconsequence
      | false => exact hrest store

theorem Answers.call (h : Answers eval calls id) (callee : Value) (args : List Value)
    (caller : FrameId) (label : Option Name) (store : Store) :
    (setting.evalCall eval callee args caller label ⟨store, calls⟩).Settles calls := by
  unfold evalCall
  rcases setting.enter_calls callee args caller label ⟨store, calls⟩ with
    ⟨outcome, ⟨after, _⟩, henter, rfl⟩ | ⟨node, frame, ⟨entered, _⟩, henter, hroom, rfl⟩
  · rw [henter]
    exact ⟨outcome, after, rfl⟩
  · obtain ⟨outcome, after, hbody⟩ := h.inside hroom node frame entered label
    rw [henter]
    simp only [hbody, Option.map_some, leave_enter]
    exact ⟨_, after, rfl⟩

theorem Answers.operands (h : Answers eval calls id) (callee : Value) (label : Option Name)
    (frame : FrameId) (done : List Value) {operands : List NodeId}
    (hoperands : ∀ operand ∈ operands, operand.raw < id.raw) (store : Store) :
    (setting.evalOperands eval callee label frame done operands ⟨store, calls⟩).Settles calls := by
  induction operands generalizing done store with
  | nil => exact h.call callee done.reverse frame label store
  | cons operand rest ih =>
    have hfirst := h.below operand frame store (hoperands operand (List.mem_cons_self ..))
    have hrest (done : List Value) :=
      ih done fun other hother => hoperands other (List.mem_cons_of_mem _ hother)
    exact hfirst.andThen fun value store => hrest (value :: done) store

theorem Answers.apply (h : Answers eval calls id) (operator : NodeId) {operands : Span NodeId}
    {ids : List NodeId} (hread : operands.read? setting.code.lists = some ids)
    (hids : ∀ operand ∈ ids, operand.raw < id.raw) (frame : FrameId) (callee : Value)
    (store : Store) :
    (setting.evalApply eval operator operands frame callee ⟨store, calls⟩).Settles calls := by
  unfold evalApply
  by_cases hcallable : callee.isCallable = true
  · rw [if_pos hcallable]
    simp only [hread]
    exact h.operands callee _ frame [] hids store
  · rw [if_neg hcallable]
    exact ⟨_, store, rfl⟩

theorem Answers.node (h : Answers eval calls id) {node : Node}
    (hnode : setting.code.node? id = some node)
    (hplaced : node.WellPlaced setting.code setting.names id) (frame : FrameId) (store : Store) :
    (setting.evalNode eval id frame ⟨store, calls⟩).Settles calls := by
  unfold evalNode
  simp only [hnode]
  cases node with
  | int | str | ident | unknown => exact ⟨_, store, rfl⟩
  | apply operator operands =>
    obtain ⟨hoperator, ids, hread, hids⟩ := hplaced
    exact (h.below operator frame store hoperator).andThen fun callee store =>
      h.apply operator hread hids frame callee store
  | lambda params body =>
    obtain ⟨-, found, hread, -⟩ := hplaced
    simp only [evalLambda, hread]
    exact ⟨_, _, rfl⟩
  | block items =>
    obtain ⟨ids, hread, hids⟩ := hplaced
    simp only [hread]
    exact h.block frame hids store
  | cond clauses =>
    obtain ⟨found, hread, hfound⟩ := hplaced
    simp only [hread]
    exact h.cond frame hfound store
  | letIn name init body =>
    obtain ⟨-, hinit, hbody⟩ := hplaced
    exact (h.below init frame store hinit).andThen fun value store => h.below body _ _ hbody
  | assign name value =>
    obtain ⟨-, hvalue⟩ := hplaced
    refine (h.below value frame store hvalue).andThen fun value store => ?_
    unfold assignName
    split
    · exact ⟨_, _, rfl⟩
    · exact ⟨_, store, rfl⟩

/-! ### Whole evaluations -/

/-- A depth as great as the bound on nesting is enough for every node. -/
theorem settles_eval (hcode : setting.code.WellFormed setting.names) {limit depth : Nat}
    (hlimit : calls.limit = some limit)
    (hdepth : setting.code.nesting (limit - calls.depth) id ≤ depth) (frame : FrameId)
    (store : Store) : (setting.eval depth id frame ⟨store, calls⟩).Settles calls := by
  induction depth generalizing id frame store calls with
  | zero =>
    unfold Code.nesting at hdepth
    omega
  | succ depth ih =>
    show (setting.evalNode (setting.eval depth) id frame ⟨store, calls⟩).Settles calls
    cases hnode : setting.code.node? id with
    | none =>
      unfold evalNode
      simp only [hnode]
      exact ⟨_, store, rfl⟩
    | some node =>
      have hid : id.raw < setting.code.size := Code.node?_eq_some_lt hnode
      have hanswers : Answers (setting.eval depth) calls id := by
        constructor
        · intro child frame store hchild
          have hless : setting.code.nesting (limit - calls.depth) child <
              setting.code.nesting (limit - calls.depth) id := Code.nesting_lt_of_child hchild hid
          exact ih hlimit (by omega) frame store
        · -- The call that is opened uses up room, which pays for starting over at the body.
          intro hroom body frame store label
          have hlt : calls.depth < limit := CallStack.overflow?_eq_none_iff.1 hroom limit hlimit
          have hused : limit - calls.depth = limit - (calls.enter label).depth + 1 := by
            rw [CallStack.depth_enter]
            omega
          have hless : setting.code.nesting (limit - (calls.enter label).depth) body <
              setting.code.nesting (limit - calls.depth) id := by
            rw [hused]
            exact Code.nesting_lt_of_body body
          have hlimit' : (calls.enter label).limit = some limit := hlimit
          exact ih hlimit' (by omega) frame store
      exact hanswers.node hnode (hcode id node hnode) frame store

/-- Evaluation of any node of well-formed code, under a finite limit of calls and in frames with any
bindings, comes to an end.  It ends with a value or a fault if the parameters of the closures that the
current frame can reach have texts.  The code of every decoded program is well formed. -/
theorem evaluation_ends_under_limit (setting : Setting)
    (hcode : setting.code.WellFormed setting.names) (limit : Nat) (id : NodeId) (frame : FrameId)
    (store : Store) :
    (∃ steps outcome memory,
      setting.run steps ⟨.node id frame, [], ⟨store, .new (some limit)⟩⟩ = some (outcome, memory) ∧
        (setting.NamesParams store frame →
          (∃ value, outcome = .ok value) ∨ ∃ raised, outcome = .error (.raised raised))) ∧
    ∀ json names program after, Program.ofJson json names = (.ok program, after) →
      program.code.WellFormed after := by
  refine ⟨?_, fun json names program after => Program.wellFormed_of_ofJson⟩
  have hlimit : (CallStack.new (some limit)).limit = some limit := rfl
  obtain ⟨outcome, after, heval⟩ := settles_eval hcode hlimit (Nat.le_refl _) frame store
  obtain ⟨steps, hrun⟩ := exists_run_eq_some_iff.2 ⟨_, heval⟩
  refine ⟨steps, outcome, _, hrun, fun hparams => ?_⟩
  have hread : setting.Readable := Code.readable_iff_wellFormed.2 hcode
  have hresult := (setting.computes_exprAt hread id (some limit) store frame hparams).2 _ _ _ hrun
  rcases outcome with (raised | breach) | value
  · exact .inr ⟨raised, rfl⟩
  · cases hresult
  · exact .inl ⟨value, rfl⟩

/-- The call of a closure that the current frame binds to the empty text. -/
def callsItself : Setting :=
  ⟨⟨#[.ident ⟨0⟩, .apply ⟨0⟩ ⟨0, 0⟩], #[], #[], #[]⟩, .new, .lexical⟩

/-- A frame that binds the empty text to a closure of the same frame, the body of which is the
second node. -/
def knot : Store := (Store.empty.newFrame [(⟨0⟩, .closure ⟨[], ⟨1⟩, ⟨0⟩, 0⟩)]).2

theorem wellFormed_callsItself : callsItself.code.WellFormed callsItself.names := by
  intro id node hnode
  rcases id with ⟨_ | _ | raw⟩
  · cases hnode
    rfl
  · cases hnode
    exact ⟨Nat.zero_lt_one, [], rfl, fun child hchild => nomatch hchild⟩
  · cases hnode

theorem namesParams_knot : callsItself.NamesParams knot ⟨0⟩ := by
  intro id name closure _ hlookup
  have hmem := Bindings.mem_of_find? hlookup
  rcases id with ⟨_ | index⟩ <;>
    simp [knot, Store.newFrame, Store.bindings, Store.frame?, Store.empty] at hmem
  simp [hmem.2]

/-- A closure that does nothing but call itself comes to an end under a limit of two calls. -/
theorem evaluation_ends_under_limit_knot :
    callsItself.code.WellFormed callsItself.names ∧
      ∃ steps outcome memory,
        callsItself.run steps ⟨.node ⟨1⟩ ⟨0⟩, [], ⟨knot, .new (some 2)⟩⟩ = some (outcome, memory) ∧
          ((∃ value, outcome = .ok value) ∨ ∃ raised, outcome = .error (.raised raised)) := by
  refine ⟨wellFormed_callsItself, ?_⟩
  obtain ⟨⟨steps, outcome, memory, hrun, hends⟩, -⟩ :=
    evaluation_ends_under_limit callsItself wellFormed_callsItself 2 ⟨1⟩ ⟨0⟩ knot
  exact ⟨steps, outcome, memory, hrun, hends namesParams_knot⟩

/-- The application of what the empty text is bound to, to the same thing twice. -/
def appliesTwice : Setting :=
  ⟨⟨#[.ident ⟨0⟩, .apply ⟨0⟩ ⟨0, 2⟩], #[⟨0⟩, ⟨0⟩], #[], #[]⟩, .new, .lexical⟩

/-- A frame that binds the empty text to a closure which repeats a parameter that has no text. -/
def unnamedRepeat : Store := (Store.empty.newFrame [(⟨0⟩, .closure ⟨[⟨7⟩, ⟨7⟩], ⟨0⟩, ⟨0⟩, 0⟩)]).2

theorem wellFormed_appliesTwice : appliesTwice.code.WellFormed appliesTwice.names := by
  intro id node hnode
  rcases id with ⟨_ | _ | raw⟩
  · cases hnode
    rfl
  · cases hnode
    refine ⟨Nat.zero_lt_one, [⟨0⟩, ⟨0⟩], rfl, fun child hchild => ?_⟩
    simp only [List.mem_cons, List.not_mem_nil, or_false, or_self] at hchild
    rw [hchild]
    exact Nat.zero_lt_one
  · cases hnode

/-- Without a text for a parameter that a closure of the frame repeats, evaluation ends in a breach,
under every limit: the fault over the repeated parameter would name it. -/
theorem unnamed_repeated_parameter_breaches :
    appliesTwice.code.WellFormed appliesTwice.names ∧
      ∀ limit, ¬ ∃ steps outcome memory,
        appliesTwice.run steps ⟨.node ⟨1⟩ ⟨0⟩, [], ⟨unnamedRepeat, .new (some limit)⟩⟩ =
            some (outcome, memory) ∧
          ((∃ value, outcome = .ok value) ∨ ∃ raised, outcome = .error (.raised raised)) := by
  refine ⟨wellFormed_appliesTwice, ?_⟩
  rintro limit ⟨steps, outcome, memory, hrun, hends⟩
  have hbreach : appliesTwice.run 8 ⟨.node ⟨1⟩ ⟨0⟩, [], ⟨unnamedRepeat, .new (some limit)⟩⟩ =
      some (.error (.breach .name), ⟨unnamedRepeat, .new (some limit)⟩) := rfl
  cases run_unique hrun hbreach
  rcases hends with ⟨value, hvalue⟩ | ⟨raised, hraised⟩
  · cases hvalue
  · cases hraised

end Setting

end FlatScope
