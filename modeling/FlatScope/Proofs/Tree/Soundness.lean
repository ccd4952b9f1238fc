import FlatScope.Proofs.Tree.Entry

/-!
# Flat evaluation follows the rules of trees

Whatever evaluating a node gives is derived by the rules for the tree that stands at the node
(`follows_eval`).  The store stays legal, the open calls are given back, and no evaluation ends in a
breach.
-/

namespace FlatScope.Setting

variable {setting : Setting} {known : FrameId → Prop}

/-! ### Outcomes that the rules derive -/

def rules (setting : Setting) (calls : CallStack) : Config := ⟨setting.scoping, calls.limit⟩

/-- A result that agrees with an outcome is derivable, and the memory is as it should be. -/
def Matches (setting : Setting) (known : FrameId → Prop) (calls : CallStack)
    (ended : Outcome × Memory) (derives : Tree.Result → Tree.Heap → Prop) : Prop :=
  ∃ result, setting.Agrees known ended.1 result ∧ setting.Legal known ended.2.store ∧
    ended.2.calls = calls ∧ derives result (setting.heap ended.2.store)

variable {calls : CallStack} {ended : Outcome × Memory}
  {derives derives' : Tree.Result → Tree.Heap → Prop}

theorem Matches.imp (h : setting.Matches known calls ended derives)
    (himp : ∀ result heap, derives result heap → derives' result heap) :
    setting.Matches known calls ended derives' := by
  obtain ⟨result, hagrees, hlegal, hcalls, hderives⟩ := h
  exact ⟨result, hagrees, hlegal, hcalls, himp _ _ hderives⟩

theorem matches_fault {store : Store} {fault : Fault} (hlegal : setting.Legal known store)
    (h : derives (.error fault) (setting.heap store)) :
    setting.Matches known calls (.error (.fault fault), ⟨store, calls⟩) derives :=
  ⟨.error fault, agrees_fault fault, hlegal, rfl, h⟩

theorem matches_value {store : Store} {value : Value} (hlegal : setting.Legal known store)
    (hvalue : setting.Legible known value)
    (h : derives (.ok (setting.value value)) (setting.heap store)) :
    setting.Matches known calls (.ok value, ⟨store, calls⟩) derives :=
  ⟨.ok (setting.value value), .value hvalue, hlegal, rfl, h⟩

/-- An evaluator that gives only what the rules derive. -/
def Follows (setting : Setting) (known : FrameId → Prop) (eval : Evaluator) : Prop :=
  ∀ id frame store calls ended, known frame → setting.Legal known store →
    setting.AllLabelled calls → eval id frame ⟨store, calls⟩ = some ended →
    setting.Matches known calls ended
      (Tree.Eval (setting.rules calls) calls.depth frame (setting.exprAt id) (setting.heap store))

variable {eval : Evaluator} {frame : FrameId} {store : Store}

/-- A fault is the end of what follows it; a value is given to it. -/
theorem Follows.andThen (hfollows : setting.Follows known eval) {id : NodeId}
    {next : Value → Memory → Attempt} (hframe : known frame) (hlegal : setting.Legal known store)
    (hcalls : setting.AllLabelled calls)
    (hfault : ∀ fault heap, Tree.Eval (setting.rules calls) calls.depth frame (setting.exprAt id)
      (setting.heap store) (.error fault) heap → derives (.error fault) heap)
    (hnext : ∀ value mid, setting.Legible known value → setting.Legal known mid →
      Tree.Eval (setting.rules calls) calls.depth frame (setting.exprAt id) (setting.heap store)
        (.ok (setting.value value)) (setting.heap mid) →
      next value ⟨mid, calls⟩ = some ended → setting.Matches known calls ended derives)
    (h : (eval id frame ⟨store, calls⟩).andThen next = some ended) :
    setting.Matches known calls ended derives := by
  -- Only an end of the first part leads to an end of the whole.
  cases hfirst : eval id frame ⟨store, calls⟩ with
  | none =>
    rw [hfirst] at h
    cases h
  | some first =>
    obtain ⟨result, hagrees, hmid, hback, hderives⟩ :=
      hfollows id frame store calls first hframe hlegal hcalls hfirst
    obtain ⟨outcome, mid, calls'⟩ := first
    obtain rfl : calls' = calls := hback
    rw [hfirst] at h
    cases hagrees with
    | value hvalue => exact hnext _ mid hvalue hmid hderives h
    | fault raised =>
      cases h
      exact ⟨.error raised.fault, .fault raised, hmid, rfl, hfault _ _ hderives⟩

/-! ### Forms with several parts -/

theorem Follows.block (hfollows : setting.Follows known eval) {ids : List NodeId}
    (hframe : known frame) (hlegal : setting.Legal known store)
    (hcalls : setting.AllLabelled calls) (h : eval.block frame ids ⟨store, calls⟩ = some ended) :
    setting.Matches known calls ended (Tree.EvalBlock (setting.rules calls) calls.depth frame
      (ids.map setting.exprAt) (setting.heap store)) := by
  induction ids generalizing store with
  | nil =>
    cases h
    exact matches_value hlegal trivial .nil
  | cons id rest ih =>
    cases rest with
    | nil =>
      exact (hfollows id frame store calls ended hframe hlegal hcalls h).imp fun _ _ => .last
    | cons second others =>
      refine hfollows.andThen hframe hlegal hcalls (fun _ _ => .fault) ?_ h
      intro value mid _ hmid hitem hrest
      exact (ih hmid hrest).imp fun _ _ => .cons hitem

theorem Follows.cond (hfollows : setting.Follows known eval) {clauses : List Clause}
    (hframe : known frame) (hlegal : setting.Legal known store)
    (hcalls : setting.AllLabelled calls)
    (h : eval.cond frame clauses ⟨store, calls⟩ = some ended) :
    setting.Matches known calls ended (Tree.EvalCond (setting.rules calls) calls.depth frame
      (clauses.map setting.pairAt) (setting.heap store)) := by
  induction clauses generalizing store with
  | nil =>
    cases h
    exact matches_value hlegal trivial .nil
  | cons clause rest ih =>
    refine hfollows.andThen hframe hlegal hcalls (fun _ _ => .fault) ?_ h
    intro value mid hvalue hmid htest hnext
    cases value with
    | bool b =>
      cases b with
      | true =>
        have hselected := hfollows clause.consequence frame mid calls ended hframe hmid hcalls hnext
        exact hselected.imp fun _ _ => .selected htest
      | false => exact (ih hmid hnext).imp fun _ _ => .skipped htest
    | int _ | str _ | native _ | closure _ =>
      cases hnext
      exact matches_fault hmid (.notBoolean htest fun b hb => nomatch hb)

/-! ### Calls -/

theorem overflow?_eq_some {fault : Fault} (h : calls.overflow? = some fault) :
    ∃ limit, calls.limit = some limit ∧ limit ≤ calls.depth ∧ fault = .stackOverflow limit := by
  unfold CallStack.overflow? at h
  split at h
  · rename_i limit hlimit
    split at h
    · rename_i hdepth
      cases h
      exact ⟨limit, hlimit, hdepth, rfl⟩
    · cases h
  · cases h

theorem overflow?_of_le {limit : Nat} (hlimit : calls.limit = some limit)
    (hdepth : limit ≤ calls.depth) : calls.overflow? = some (.stackOverflow limit) := by
  simp only [CallStack.overflow?, hlimit, hdepth, if_true]

theorem map_value_map_toValue (prims : List Primitive) :
    (prims.map Primitive.toValue).map setting.value = prims.map Tree.Value.ofPrimitive := by
  rw [List.map_map]
  exact List.map_congr_left fun primitive _ => value_toValue primitive

variable {args : List Value} {caller : FrameId} {label : Option Name}

theorem Follows.callNative {native : Native} (hlegal : setting.Legal known store)
    (h : setting.evalCall eval (.native native) args caller label ⟨store, calls⟩ = some ended) :
    setting.Matches known calls ended (Tree.Call (setting.rules calls) calls.depth caller
      (label.map setting.textOf) (.native native) (args.map setting.value)
      (setting.heap store)) := by
  have hended : ended = (.ofFault (native.call args), ⟨store, calls⟩) := (Option.some.inj h).symm
  subst hended
  rcases Native.args_cases args with ⟨prims, rfl⟩ | ⟨prims, arg, rest, rfl, harg⟩
  · rw [Native.call_map_toValue, map_value_map_toValue]
    exact ⟨_, agrees_ofFault_map _, hlegal, rfl, .native rfl⟩
  · rw [Native.call_of_callable native prims rest harg, List.map_append, List.map_cons,
      map_value_map_toValue]
    refine matches_fault hlegal ?_
    rw [← setting.typeName_value arg]
    exact .nativeMismatch rfl (callable_value_iff.2 harg)

/-- A call for which a scope can be made runs into the limit, or has a body to evaluate. -/
theorem Follows.callScope (hfollows : setting.Follows known eval) {closure : Closure}
    (hclosure : setting.Legible known (.closure closure))
    (hargs : ∀ arg ∈ args, setting.Legible known arg) (hlabel : setting.Labelled label)
    (hcaller : known caller) (hlegal : setting.Legal known store)
    (hcalls : setting.AllLabelled calls) (hcount : closure.params.length = args.length)
    (htexts : (closure.params.map setting.textOf).Nodup)
    (h : setting.evalCall eval (.closure closure) args caller label ⟨store, calls⟩ = some ended) :
    setting.Matches known calls ended (Tree.Call (setting.rules calls) calls.depth caller
      (label.map setting.textOf) (setting.value (.closure closure)) (args.map setting.value)
      (setting.heap store)) := by
  have hcount' : (closure.params.map setting.textOf).length = (args.map setting.value).length := by
    rw [List.length_map, List.length_map]
    exact hcount
  have hnodup : closure.params.Nodup := nodup_of_nodup_map_textOf htexts
  have hscope := setting.enter_eq_callFrame store caller hclosure.2 hcount hnodup
  obtain ⟨hlegal', hknown⟩ := hlegal.callFrame hclosure hcaller hargs hcount hnodup
  simp only [evalCall, enter] at h
  cases hover : calls.overflow? with
  | some fault =>
    -- The scope stays in the store although no body runs in it.
    rw [enterClosure_of_overflow hcount hnodup hover] at h
    cases h
    obtain ⟨limit, hlimit, hdepth, rfl⟩ := overflow?_eq_some hover
    exact ⟨_, agrees_attach hcalls _, hlegal', rfl, .overflow hcount' htexts hscope hlimit hdepth⟩
  | none =>
    rw [enterClosure_of_room hcount hnodup hover] at h
    obtain ⟨inner, hinner, hleave⟩ := Option.map_eq_some_iff.1 h
    have hcalls' := allLabelled_enter hcalls hlabel
    obtain ⟨result, hagrees, hlegal'', hback, hbody⟩ :=
      hfollows _ _ _ _ inner hknown hlegal' hcalls' hinner
    obtain ⟨outcome, store', calls'⟩ := inner
    -- The body gives back the calls it was given, so leaving it gives back those of the caller.
    obtain rfl : calls' = calls.enter label := hback
    rw [leave_enter] at hleave
    rw [CallStack.depth_enter] at hbody
    subst hleave
    exact ⟨result, hagrees.leaveOutcome hcalls', hlegal'', rfl,
      .body hcount' htexts hscope (CallStack.overflow?_eq_none_iff.1 hover) hbody⟩

theorem Follows.callClosure (hfollows : setting.Follows known eval) {closure : Closure}
    (hclosure : setting.Legible known (.closure closure))
    (hargs : ∀ arg ∈ args, setting.Legible known arg) (hlabel : setting.Labelled label)
    (hcaller : known caller) (hlegal : setting.Legal known store)
    (hcalls : setting.AllLabelled calls)
    (h : setting.evalCall eval (.closure closure) args caller label ⟨store, calls⟩ = some ended) :
    setting.Matches known calls ended (Tree.Call (setting.rules calls) calls.depth caller
      (label.map setting.textOf) (setting.value (.closure closure)) (args.map setting.value)
      (setting.heap store)) := by
  have hparams : (closure.params.map setting.textOf).length = closure.params.length :=
    List.length_map _
  have hvalues : (args.map setting.value).length = args.length := List.length_map _
  by_cases hcount : closure.params.length = args.length
  · rcases nodup_or_exists_duplicate (closure.params.map setting.textOf) List.nodup_nil with
      htexts | ⟨before, text, after, hsplit, hbefore, hmem⟩
    · exact hfollows.callScope hclosure hargs hlabel hcaller hlegal hcalls hcount htexts h
    · simp only [evalCall, enter] at h
      rw [enterClosure_of_duplicate hclosure.2 hcount hsplit hbefore hmem] at h
      cases h
      have hcount' := hparams.trans (hcount.trans hvalues.symm)
      exact matches_fault hlegal (.duplicate hcount' hsplit hbefore hmem)
  · simp only [evalCall, enter] at h
    rw [enterClosure_of_count_ne hlabel hcount] at h
    cases h
    have hcount' : (closure.params.map setting.textOf).length ≠ (args.map setting.value).length := by
      omega
    refine matches_fault hlegal ?_
    rw [← hparams, ← hvalues]
    exact .arity hcount'

theorem Follows.call (hfollows : setting.Follows known eval) {callee : Value}
    (hcallable : callee.isCallable = true) (hcallee : setting.Legible known callee)
    (hargs : ∀ arg ∈ args, setting.Legible known arg) (hlabel : setting.Labelled label)
    (hcaller : known caller) (hlegal : setting.Legal known store)
    (hcalls : setting.AllLabelled calls)
    (h : setting.evalCall eval callee args caller label ⟨store, calls⟩ = some ended) :
    setting.Matches known calls ended (Tree.Call (setting.rules calls) calls.depth caller
      (label.map setting.textOf) (setting.value callee) (args.map setting.value)
      (setting.heap store)) := by
  cases callee with
  | native native => exact Follows.callNative hlegal h
  | closure closure => exact hfollows.callClosure hcallee hargs hlabel hcaller hlegal hcalls h
  | int _ | str _ | bool _ => cases hcallable

/-- The operands that are left have a fault, or values with which the call is made. -/
inductive Finishes (config : Config) (depth : Nat) (frame : FrameId) (label : Option String)
    (callee : Tree.Value) (done : List Tree.Value) (operands : List Expr) (heap : Tree.Heap) :
    Tree.Result → Tree.Heap → Prop where
  | fault {fault : Fault} {heap' : Tree.Heap}
      (h : Tree.EvalList config depth frame operands heap (.error fault) heap') :
      Finishes config depth frame label callee done operands heap (.error fault) heap'
  | call {args : List Tree.Value} {result : Tree.Result} {mid heap' : Tree.Heap}
      (h : Tree.EvalList config depth frame operands heap (.ok args) mid)
      (hcall : Tree.Call config depth frame label callee (done ++ args) mid result heap') :
      Finishes config depth frame label callee done operands heap result heap'

theorem Follows.operands (hfollows : setting.Follows known eval) {callee : Value}
    {done : List Value} {ids : List NodeId} (hcallable : callee.isCallable = true)
    (hcallee : setting.Legible known callee) (hdone : ∀ arg ∈ done, setting.Legible known arg)
    (hlabel : setting.Labelled label) (hframe : known frame) (hlegal : setting.Legal known store)
    (hcalls : setting.AllLabelled calls)
    (h : setting.evalOperands eval callee label frame done ids ⟨store, calls⟩ = some ended) :
    setting.Matches known calls ended (Finishes (setting.rules calls) calls.depth frame
      (label.map setting.textOf) (setting.value callee) (done.reverse.map setting.value)
      (ids.map setting.exprAt) (setting.heap store)) := by
  induction ids generalizing store done with
  | nil =>
    have hargs : ∀ arg ∈ done.reverse, setting.Legible known arg :=
      fun arg harg => hdone arg (List.mem_reverse.1 harg)
    refine (hfollows.call hcallable hcallee hargs hlabel hframe hlegal hcalls h).imp ?_
    intro result heap hcall
    refine .call .nil ?_
    rw [List.append_nil]
    exact hcall
  | cons id rest ih =>
    refine hfollows.andThen hframe hlegal hcalls (fun _ _ hfault => .fault (.fault hfault)) ?_ h
    intro value mid hvalue hmid hitem hnext
    -- `done` holds the values so far with the last one first; the rules have them in order.
    have hdone' : ∀ arg ∈ value :: done, setting.Legible known arg := by
      intro arg harg
      rcases List.mem_cons.1 harg with rfl | hold
      · exact hvalue
      · exact hdone arg hold
    refine (ih hdone' hmid hnext).imp ?_
    intro result heap hrest
    cases hrest with
    | fault hrest => exact .fault (.restFault hitem hrest)
    | call hrest hcall =>
      refine .call (.cons hitem hrest) ?_
      simpa using hcall

/-! ### Nodes -/

/-- A call is labelled by its operator, if that is an identifier. -/
theorem callLabel_spec (hread : setting.Readable) (operator : NodeId) :
    setting.Labelled (setting.code.callLabel operator) ∧
      (setting.code.callLabel operator).map setting.textOf =
        Tree.label (setting.exprAt operator) := by
  have hstands := stands hread operator
  generalize setting.exprAt operator = expr at hstands
  unfold Code.callLabel
  cases hstands with
  | ident hnode htext =>
    rw [hnode]
    refine ⟨fun name hname => ?_, congrArg some (textOf_of_text? htext)⟩
    cases hname
    rw [htext]
    rfl
  | outside hnode | int hnode | str hnode | apply hnode | lambda hnode | block hnode | cond hnode
  | letIn hnode | assign hnode | unknown hnode =>
    rw [hnode]
    exact ⟨(fun name hname => nomatch hname), rfl⟩

theorem matches_evalInt (literal : Int) (hlegal : setting.Legal known store) :
    setting.Matches known calls (evalInt literal, ⟨store, calls⟩)
      (Tree.Eval (setting.rules calls) calls.depth frame (.int literal) (setting.heap store)) := by
  by_cases hrange : literal ≤ -9223372036854775808 ∨ 9223372036854775807 ≤ literal
  · rw [evalInt_of_range hrange]
    exact matches_fault hlegal (.intRange hrange)
  · have hword := evalInt_of_between ⟨literal, by omega⟩ (by simp only; omega) (by simp only; omega)
    rw [hword]
    exact matches_value hlegal trivial (.int ⟨literal, by omega⟩ (by simp only; omega) (by simp only; omega))

variable {name : Name} {text : String} {heap : Tree.Heap}

theorem matches_evalIdent (htext : setting.names.text? name = some text) (hframe : known frame)
    (hlegal : setting.Legal known store) :
    setting.Matches known calls (setting.evalIdent name frame ⟨store, calls⟩, ⟨store, calls⟩)
      (Tree.Eval (setting.rules calls) calls.depth frame (.ident text) (setting.heap store)) := by
  have hscope := setting.scopes_heap store frame htext
  unfold evalIdent
  cases hlookup : store.lookup frame name with
  | none =>
    simp only [NameTable.faultFor, htext]
    exact matches_fault hlegal (.unbound (by rw [hscope, hlookup]; rfl))
  | some value =>
    exact matches_value hlegal (hlegal.values _ _ _ hframe hlookup)
      (.ident (by rw [hscope, hlookup]; rfl))

theorem matches_assignName {value : Value} {expr : Expr}
    (htext : setting.names.text? name = some text) (hvalue : setting.Legible known value)
    (hlegal : setting.Legal known store)
    (hderives : Tree.Eval (setting.rules calls) calls.depth frame expr heap
      (.ok (setting.value value)) (setting.heap store)) :
    setting.Matches known calls (setting.assignName name value frame ⟨store, calls⟩)
      (Tree.Eval (setting.rules calls) calls.depth frame (.assign text expr) heap) := by
  have hscope := setting.scopes_heap store frame htext
  -- The name is looked up after the value was found, in the scopes that finding it has left.
  cases hlookup : store.lookup frame name with
  | none =>
    have hfree : store.contains frame name = false := congrArg Option.isSome hlookup
    simp only [assignName, hfree, NameTable.faultFor, htext]
    exact matches_fault hlegal (.assignUnbound hderives (by rw [hscope, hlookup]; rfl))
  | some old =>
    have hbound : store.contains frame name = true := congrArg Option.isSome hlookup
    simp only [assignName, hbound, if_true]
    refine matches_value (hlegal.reassign hvalue hbound) hvalue ?_
    rw [heap_reassign htext hbound]
    exact .assign hderives (by rw [hscope, hlookup]; rfl)

theorem Follows.apply (hread : setting.Readable) (hfollows : setting.Follows known eval)
    {operator : NodeId} {operands : Span NodeId} {ids : List NodeId} {callee : Value}
    (hlist : operands.read? setting.code.lists = some ids)
    (hcallee : setting.Legible known callee) (hframe : known frame)
    (hlegal : setting.Legal known store) (hcalls : setting.AllLabelled calls)
    (hoperator : Tree.Eval (setting.rules calls) calls.depth frame (setting.exprAt operator) heap
      (.ok (setting.value callee)) (setting.heap store))
    (h : setting.evalApply eval operator operands frame callee ⟨store, calls⟩ = some ended) :
    setting.Matches known calls ended (Tree.Eval (setting.rules calls) calls.depth frame
      (.apply (setting.exprAt operator) (ids.map setting.exprAt)) heap) := by
  by_cases hcallable : callee.isCallable = true
  · simp only [evalApply, hcallable, if_true, hlist] at h
    obtain ⟨hlabel, htext⟩ := callLabel_spec hread operator
    have hnone : ∀ arg ∈ ([] : List Value), setting.Legible known arg := by simp
    have hends := hfollows.operands hcallable hcallee hnone hlabel hframe hlegal hcalls h
    rw [htext] at hends
    refine hends.imp fun result heap hfinishes => ?_
    have hcallable' : (setting.value callee).Callable := callable_value_iff.2 hcallable
    cases hfinishes with
    | fault hoperands => exact .applyOperandFault hoperator hcallable' hoperands
    | call hoperands hcall => exact .apply hoperator hcallable' hoperands hcall
  · -- The operands of a value that cannot be called are never evaluated.
    simp only [evalApply, hcallable] at h
    cases h
    refine matches_fault hlegal ?_
    rw [← setting.typeName_value callee]
    exact .applyNotCallable hoperator (mt callable_value_iff.1 hcallable)

theorem Follows.node (hread : setting.Readable) (hfollows : setting.Follows known eval) :
    setting.Follows known (setting.evalNode eval) := by
  intro id frame store calls ended hframe hlegal hcalls h
  have hstands := stands hread id
  generalize setting.exprAt id = expr at hstands
  cases hstands with
  | outside hnode =>
    simp only [evalNode, hnode] at h
    cases h
    exact matches_fault hlegal (.unknown _)
  | int hnode =>
    simp only [evalNode, hnode] at h
    cases h
    exact matches_evalInt _ hlegal
  | str hnode htext =>
    simp only [evalNode, hnode, evalStr, htext] at h
    cases h
    exact matches_value hlegal trivial (.str _)
  | ident hnode htext =>
    simp only [evalNode, hnode] at h
    cases h
    exact matches_evalIdent htext hframe hlegal
  | unknown hnode htext =>
    simp only [evalNode, hnode, evalUnknown, NameTable.faultFor, htext] at h
    cases h
    exact matches_fault hlegal (.unknown _)
  | lambda hnode hparams hnamed htexts hbody =>
    subst htexts hbody
    simp only [evalNode, hnode, evalLambda, hparams] at h
    cases h
    exact matches_value (hlegal.newClosure _ _) ⟨hframe, hnamed⟩ (.lambda _ _)
  | block hnode hitems hexprs =>
    subst hexprs
    simp only [evalNode, hnode, hitems] at h
    exact (hfollows.block hframe hlegal hcalls h).imp fun _ _ => .block
  | cond hnode hclauses hpairs =>
    subst hpairs
    simp only [evalNode, hnode, hclauses] at h
    exact (hfollows.cond hframe hlegal hcalls h).imp fun _ _ => .cond
  | @letIn name text init body _ _ hnode htext hfirst hsecond =>
    subst hfirst hsecond
    simp only [evalNode, hnode] at h
    refine hfollows.andThen hframe hlegal hcalls (fun _ _ => .letInFault) ?_ h
    intro value mid hvalue hmid hinit hbody
    obtain ⟨hmid', hscope⟩ := hmid.extend_one name hframe hvalue
    have hmatch := hfollows body _ _ calls ended hscope hmid' hcalls hbody
    rw [heap_extend_one mid frame value htext] at hmatch
    exact hmatch.imp fun _ _ => .letIn hinit
  | assign hnode htext hexpr =>
    subst hexpr
    simp only [evalNode, hnode] at h
    refine hfollows.andThen hframe hlegal hcalls (fun _ _ => .assignFault) ?_ h
    intro value mid hvalue hmid hderives hend
    cases hend
    exact matches_assignName htext hvalue hmid hderives
  | apply hnode hlist hfirst hrest =>
    subst hfirst hrest
    simp only [evalNode, hnode] at h
    refine hfollows.andThen hframe hlegal hcalls (fun _ _ => .applyOperatorFault) ?_ h
    intro callee mid hcallee hmid hoperator hnext
    exact hfollows.apply hread hlist hcallee hframe hmid hcalls hoperator hnext

/-- Whatever evaluation to some depth gives is derived by the rules. -/
theorem follows_eval (hread : setting.Readable) (depth : Nat) :
    setting.Follows known (setting.eval depth) := by
  induction depth with
  | zero =>
    intro id frame store calls ended _ _ _ h
    cases h
  | succ depth ih => exact ih.node hread

end FlatScope.Setting
