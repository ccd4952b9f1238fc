import FlatScope.Proofs.Calls.Recording
import FlatScope.Proofs.Lockstep.Coupling

/-!
# A binding is a lambda that is applied at once

Evaluation without a limit cannot see which calls are open, except in the backtraces of its faults,
nor the serial numbers of closures (`unaware_recorded`).  A lambda that is applied at once differs
from a binding in just that: its body runs under one call more, and a closure was made before.
-/

namespace FlatScope

/-! ### Stores up to serial numbers -/

/-- Closures that differ at most in their serial numbers. -/
structure Closure.Alike (first second : Closure) : Prop where
  params : second.params = first.params
  body : second.body = first.body
  frame : second.frame = first.frame

/-- The same value, or closures that differ at most in their serial numbers. -/
abbrev Value.Alike : Value → Value → Prop := Value.Coupled Closure.Alike

theorem Value.alike_refl (value : Value) : value.Alike value := by
  cases value with
  | closure function => exact .closure ⟨rfl, rfl, rfl⟩
  | _ => exact .plain (by simp)

/-- Stores with the same frames, which bind the same names to values that are alike. -/
structure Store.Alike (first second : Store) : Prop where
  size : second.frames.size = first.frames.size
  lookup : ∀ frame name, Option.Rel Value.Alike (first.lookup frame name) (second.lookup frame name)

namespace Store

variable {first second : Store}

theorem alike_refl (store : Store) : store.Alike store := by
  refine ⟨rfl, fun frame name => ?_⟩
  cases store.lookup frame name with
  | none => exact .none
  | some value => exact .some value.alike_refl

namespace Alike

theorem contains_eq (h : first.Alike second) (frame : FrameId) (name : Name) :
    second.contains frame name = first.contains frame name :=
  isSome_eq_of_rel (h.lookup frame name)

theorem newClosure (h : first.Alike second) (params : List Name) (body : NodeId) (frame : FrameId) :
    (first.newClosure params body frame).2.Alike (second.newClosure params body frame).2 :=
  ⟨h.size, h.lookup⟩

theorem reassign (h : first.Alike second) {value value' : Value} (hvalue : value.Alike value')
    {frame : FrameId} {name : Name} (hbound : first.contains frame name = true) :
    (first.reassign frame name value).Alike (second.reassign frame name value') := by
  have hbound' : second.contains frame name = true := (h.contains_eq frame name).trans hbound
  refine ⟨?_, fun other key => ?_⟩
  · rw [Store.reassign, Store.reassign, Setting.size_update, Setting.size_update, h.size]
  · rw [lookup_reassign value other key hbound, lookup_reassign value' other key hbound']
    split
    · exact .some hvalue
    · exact h.lookup other key

theorem extend (h : first.Alike second) (base : FrameId) {added added' : Bindings}
    (hadded : Bindings.Paired Closure.Alike added added') :
    (second.extend base added').1 = (first.extend base added).1 ∧
      (first.extend base added).2.Alike (second.extend base added').2 := by
  rcases hadded.nil_or_ne_nil with ⟨rfl, rfl⟩ | ⟨hleft, hright⟩
  · exact ⟨rfl, h⟩
  · obtain ⟨hid, hsize, -⟩ := Setting.extend_of_ne_nil first base hleft
    obtain ⟨hid', hsize', -⟩ := Setting.extend_of_ne_nil second base hright
    have hnodup' : added'.keys.Nodup := hadded.sameKeys ▸ hadded.nodup
    refine ⟨by rw [hid, hid', h.size], by rw [hsize, hsize', h.size], fun frame name => ?_⟩
    rw [Setting.lookup_extend base frame hleft hadded.nodup,
      Setting.lookup_extend base frame hright hnodup', h.size]
    split
    · exact rel_or (hadded.values name) (h.lookup base name)
    · exact h.lookup frame name

end Alike

end Store

/-! ### Outcomes up to open calls -/

namespace Setting

/-- A fault with the backtrace of open calls. -/
def haltUnder (setting : Setting) (active : List (Option Name)) (fault : Fault) : Halt :=
  match setting.backtraceOf? active with
  | some backtrace => .raised ⟨fault, backtrace⟩
  | none => .breach .name

theorem raise_raised (setting : Setting) (active : List (Option Name)) (raised : Raised) :
    setting.raise active (.error (.raised raised)) =
      .error (setting.haltUnder active raised.fault) := by
  unfold raise haltUnder
  cases setting.backtraceOf? active <;> rfl

/-- Outcomes of evaluations that were started under different open calls: values that are alike, the
same breach, or the same fault, with the same calls above those at the start. -/
inductive AlikeUnder (setting : Setting) (outer outer' : List (Option Name)) :
    Outcome → Outcome → Prop where
  | value {value value' : Value} (h : value.Alike value') :
      AlikeUnder setting outer outer' (.ok value) (.ok value')
  | breach (breach : Breach) :
      AlikeUnder setting outer outer' (.error (.breach breach)) (.error (.breach breach))
  | fault (fault : Fault) (inner : List (Option Name)) :
      AlikeUnder setting outer outer' (.error (setting.haltUnder (inner ++ outer) fault))
        (.error (setting.haltUnder (inner ++ outer') fault))

/-- Evaluations that both have no outcome, or outcomes and stores that are alike. -/
def ProgressAlike (setting : Setting) (outer outer' : List (Option Name)) :
    Progress → Progress → Prop :=
  Option.Rel fun result result' =>
    setting.AlikeUnder outer outer' result.1 result'.1 ∧ result.2.Alike result'.2

/-- An evaluation that goes on alike from stores that are alike, whatever calls are open. -/
def Unaware (setting : Setting) (outer outer' : List (Option Name)) (eval : Recorder) : Prop :=
  ∀ inner id frame store store', store.Alike store' →
    setting.ProgressAlike outer outer' (eval (inner ++ outer) id frame store)
      (eval (inner ++ outer') id frame store')

variable {setting : Setting} {outer outer' : List (Option Name)} {store store' : Store}

theorem progressAlike_value {value value' : Value} (hvalue : value.Alike value')
    (hstore : store.Alike store') :
    setting.ProgressAlike outer outer' (some (.ok value, store)) (some (.ok value', store')) :=
  .some ⟨.value hvalue, hstore⟩

theorem progressAlike_breach (breach : Breach) (hstore : store.Alike store') :
    setting.ProgressAlike outer outer' (some (.error (.breach breach), store))
      (some (.error (.breach breach), store')) :=
  .some ⟨.breach breach, hstore⟩

/-- What arises in the same place is recorded under the calls that are open there. -/
theorem progressAlike_raise (inner : List (Option Name)) (outcome : Outcome)
    (hstore : store.Alike store') :
    setting.ProgressAlike outer outer' (some (setting.raise (inner ++ outer) outcome, store))
      (some (setting.raise (inner ++ outer') outcome, store')) := by
  refine .some ⟨?_, hstore⟩
  rcases outcome with (raised | breach) | value
  · rw [raise_raised, raise_raised]
    exact .fault raised.fault inner
  · exact .breach breach
  · exact .value value.alike_refl

theorem ProgressAlike.andThen {progress progress' : Progress}
    {next next' : Value → Store → Progress}
    (h : setting.ProgressAlike outer outer' progress progress')
    (hnext : ∀ value value' store store', value.Alike value' → store.Alike store' →
      setting.ProgressAlike outer outer' (next value store) (next' value' store')) :
    setting.ProgressAlike outer outer' (progress.andThen next) (progress'.andThen next') := by
  cases h with
  | none => exact .none
  | @some result result' h =>
    obtain ⟨outcome, store⟩ := result
    obtain ⟨outcome', store'⟩ := result'
    obtain ⟨houtcome, hstore⟩ := h
    cases houtcome with
    | value hvalue => exact hnext _ _ _ _ hvalue hstore
    | breach breach => exact .some ⟨.breach breach, hstore⟩
    | fault fault inner => exact .some ⟨.fault fault inner, hstore⟩

/-! ### One level of evaluation -/

section Level

variable {eval : Recorder} (heval : setting.Unaware outer outer' eval)
  (inner : List (Option Name))
include heval

theorem Unaware.block (frame : FrameId) (items : List NodeId) (hstore : store.Alike store') :
    setting.ProgressAlike outer outer' (recordedBlock eval (inner ++ outer) frame items store)
      (recordedBlock eval (inner ++ outer') frame items store') := by
  induction items generalizing store store' with
  | nil => exact progressAlike_value (.primitive (.bool false)) hstore
  | cons item rest ih =>
    cases rest with
    | nil => exact heval inner item frame store store' hstore
    | cons next rest =>
      refine (heval inner item frame store store' hstore).andThen ?_
      exact fun _ _ _ _ _ hstore => ih hstore

theorem Unaware.cond (frame : FrameId) (clauses : List Clause) (hstore : store.Alike store') :
    setting.ProgressAlike outer outer'
      (setting.recordedCond eval (inner ++ outer) frame clauses store)
      (setting.recordedCond eval (inner ++ outer') frame clauses store') := by
  induction clauses generalizing store store' with
  | nil => exact progressAlike_value (.primitive (.bool false)) hstore
  | cons clause rest ih =>
    refine (heval inner clause.test frame store store' hstore).andThen ?_
    intro value value' store store' hvalue hstore
    simp only [hvalue.test_eq]
    cases value.test with
    | error fault => exact progressAlike_raise inner _ hstore
    | ok test =>
      cases test with
      | true => exact heval inner clause.consequence frame store store' hstore
      | false => exact ih hstore

omit heval in
theorem baseFrame_alike {first second : Closure} (h : first.Alike second) (caller : FrameId) :
    setting.baseFrame second caller = setting.baseFrame first caller := by
  unfold baseFrame
  rw [h.frame]

omit heval in
/-- Closures that are alike refuse arguments that are alike for the same reason, or bind the same
parameters to them. -/
theorem bindParams_alike (names : NameTable) {first second : Closure} (h : first.Alike second)
    {args args' : List Value} (hargs : List.Forall₂ Value.Alike args args')
    (hcount : first.params.length = args.length) :
    (∃ halt, first.bindParams names args = .error halt ∧
        second.bindParams names args' = .error halt) ∨
      ∃ added added', first.bindParams names args = .ok added ∧
        second.bindParams names args' = .ok added' ∧
        Bindings.Paired Closure.Alike added added' := by
  have hcount' : first.params.length = args'.length := hcount.trans hargs.length_eq
  simp only [Closure.bindParams, h.params]
  rcases nodup_or_exists_duplicate first.params List.nodup_nil with
    hnodup | ⟨before, param, rest, hsplit, hbefore, hmem⟩
  · rw [Closure.pairUp_of_nodup hcount hnodup (fun _ _ => rfl),
      Closure.pairUp_of_nodup hcount' hnodup (fun _ _ => rfl), List.append_nil, List.append_nil]
    exact .inr ⟨_, _, rfl, rfl, .zip hargs hcount hnodup⟩
  · rw [List.nil_append] at hsplit
    rw [hsplit] at hcount hcount' ⊢
    rw [Closure.pairUp_of_duplicate hcount hbefore (fun _ _ => rfl) (.inl hmem),
      Closure.pairUp_of_duplicate hcount' hbefore (fun _ _ => rfl) (.inl hmem)]
    exact .inl ⟨_, rfl, rfl⟩

theorem Unaware.closure {first second : Closure} (hclosures : first.Alike second)
    {args args' : List Value} (hargs : List.Forall₂ Value.Alike args args') (caller : FrameId)
    (label : Option Name) (hstore : store.Alike store') :
    setting.ProgressAlike outer outer'
      (setting.recordedCall none eval (inner ++ outer) (.closure first) args caller label store)
      (setting.recordedCall none eval (inner ++ outer') (.closure second) args' caller label
        store') := by
  have hcheck : second.checkCount setting.names args' label =
      first.checkCount setting.names args label := by
    simp only [Closure.checkCount, hclosures.params, hargs.length_eq]
  simp only [recordedCall, hcheck]
  by_cases hcount : first.params.length = args.length
  · simp only [checkCount_of_eq hcount]
    rcases bindParams_alike setting.names hclosures hargs hcount with
      ⟨halt, hleft, hright⟩ | ⟨added, added', hleft, hright, hadded⟩
    · simp only [hleft, hright]
      exact progressAlike_raise inner _ hstore
    · obtain ⟨hframe, hstore⟩ := hstore.extend (setting.baseFrame first caller) hadded
      simp only [hleft, hright, baseFrame_alike hclosures, hframe, hclosures.body,
        Option.filter_none]
      exact heval (label :: inner) first.body _ _ _ hstore
  · cases hhalt : first.checkCount setting.names args label with
    | error halt => exact progressAlike_raise inner _ hstore
    | ok =>
      unfold Closure.checkCount at hhalt
      rw [if_neg hcount] at hhalt
      split at hhalt <;> cases hhalt

theorem Unaware.call {callee callee' : Value} (hcallee : callee.Alike callee')
    {args args' : List Value} (hargs : List.Forall₂ Value.Alike args args') (caller : FrameId)
    (label : Option Name) (hstore : store.Alike store') :
    setting.ProgressAlike outer outer'
      (setting.recordedCall none eval (inner ++ outer) callee args caller label store)
      (setting.recordedCall none eval (inner ++ outer') callee' args' caller label store') := by
  cases hcallee with
  | closure hclosures => exact heval.closure inner hclosures hargs caller label hstore
  | plain hplain =>
    cases callee with
    | closure closure => exact absurd rfl (hplain closure)
    | int | str | bool => exact progressAlike_raise inner _ hstore
    | native native =>
      have hsame : native.call args' = native.call args := by
        simp only [Native.call, Value.Coupled.unwrap_eq native hargs]
      simp only [recordedCall, hsame]
      exact progressAlike_raise inner _ hstore

theorem Unaware.operands {callee callee' : Value} (hcallee : callee.Alike callee')
    (label : Option Name) (frame : FrameId) {done done' : List Value}
    (hdone : List.Forall₂ Value.Alike done done') (operands : List NodeId)
    (hstore : store.Alike store') :
    setting.ProgressAlike outer outer'
      (setting.recordedOperands none eval (inner ++ outer) callee label frame done operands store)
      (setting.recordedOperands none eval (inner ++ outer') callee' label frame done' operands
        store') := by
  induction operands generalizing done done' store store' with
  | nil => exact heval.call inner hcallee (List.forall₂_reverse_iff.2 hdone) frame label hstore
  | cons operand rest ih =>
    refine (heval inner operand frame store store' hstore).andThen ?_
    exact fun _ _ _ _ hvalue hstore => ih (.cons hvalue hdone) hstore

theorem Unaware.apply (operator : NodeId) (operands : Span NodeId) (frame : FrameId)
    {callee callee' : Value} (hcallee : callee.Alike callee') (hstore : store.Alike store') :
    setting.ProgressAlike outer outer'
      (setting.recordedApply none eval (inner ++ outer) operator operands frame callee store)
      (setting.recordedApply none eval (inner ++ outer') operator operands frame callee'
        store') := by
  simp only [recordedApply, hcallee.isCallable_eq, hcallee.typeName_eq]
  by_cases hcallable : callee.isCallable = true
  · simp only [if_pos hcallable]
    cases operands.read? setting.code.lists with
    | none => exact progressAlike_breach .span hstore
    | some ids => exact heval.operands inner hcallee _ frame .nil ids hstore
  · simp only [if_neg hcallable]
    exact progressAlike_raise inner _ hstore

theorem Unaware.node : setting.Unaware outer outer' (setting.recordedNode none eval) := by
  intro inner id frame store store' hstore
  simp only [recordedNode]
  cases setting.code.node? id with
  | none => exact progressAlike_raise inner _ hstore
  | some node =>
    cases node with
    | int | str | unknown => exact progressAlike_raise inner _ hstore
    | ident name =>
      have hlookup := hstore.lookup frame name
      simp only
      generalize store.lookup frame name = found at hlookup
      generalize store'.lookup frame name = found' at hlookup
      cases hlookup with
      | none => exact progressAlike_raise inner _ hstore
      | some hvalue => exact progressAlike_value hvalue hstore
    | apply operator operands =>
      refine (heval inner operator frame store store' hstore).andThen ?_
      exact fun _ _ _ _ hcallee hstore => heval.apply inner operator operands frame hcallee hstore
    | lambda params body =>
      simp only
      cases params.read? setting.code.params with
      | none => exact progressAlike_breach .span hstore
      | some found =>
        exact progressAlike_value (.closure ⟨rfl, rfl, rfl⟩) (hstore.newClosure found body frame)
    | block items =>
      simp only
      cases items.read? setting.code.lists with
      | none => exact progressAlike_breach .span hstore
      | some ids => exact heval.block inner frame ids hstore
    | cond clauses =>
      simp only
      cases clauses.read? setting.code.clauses with
      | none => exact progressAlike_breach .span hstore
      | some found => exact heval.cond inner frame found hstore
    | letIn name init body =>
      refine (heval inner init frame store store' hstore).andThen ?_
      intro value value' store store' hvalue hstore
      obtain ⟨hscope, hstore⟩ := hstore.extend frame (.single name hvalue)
      simp only [hscope]
      exact heval inner body _ _ _ hstore
    | assign name init =>
      refine (heval inner init frame store store' hstore).andThen ?_
      intro value value' store store' hvalue hstore
      simp only [hstore.contains_eq]
      by_cases hbound : store.contains frame name = true
      · simp only [if_pos hbound]
        exact progressAlike_value hvalue (hstore.reassign hvalue hbound)
      · simp only [if_neg hbound]
        exact progressAlike_raise inner _ hstore

end Level

/-- Without a limit, evaluation cannot see which calls are open and how many closures were made. -/
theorem unaware_recorded (setting : Setting) (outer outer' : List (Option Name)) (depth : Nat) :
    setting.Unaware outer outer' (setting.recorded none depth) := by
  induction depth with
  | zero => exact fun _ _ _ _ _ _ => .none
  | succ depth ih => exact ih.node

/-! ### One call more -/

/-- The backtrace that lists given calls; there is none when no call is listed. -/
def listed : List String → Option Backtrace
  | [] => none
  | text :: rest => some ⟨text :: rest⟩

/-- Outcomes that differ at most in the serial numbers of closures and in one line of a backtrace.  A
fault of an initial expression, which `ends` gives the outcomes of, is the same in both.  Where the
initial expression has a value, the backtrace of the second fault lists a call without a name right
above the calls that were open at the start. -/
inductive OneMoreCall (setting : Setting) (active : List (Option Name)) (ends : Outcome → Prop) :
    Outcome → Outcome → Prop where
  | value {value value' : Value} (h : value.Alike value') :
      OneMoreCall setting active ends (.ok value) (.ok value')
  | breach (breach : Breach) :
      OneMoreCall setting active ends (.error (.breach breach)) (.error (.breach breach))
  | before (raised : Raised) (hinit : ends (.error (.raised raised))) :
      OneMoreCall setting active ends (.error (.raised raised)) (.error (.raised raised))
  | inside {value : Value} {outer : List String} (fault : Fault) (inner : List String)
      (hinit : ends (.ok value))
      (houter : CallStack.labelTexts? setting.names active = some outer) :
      OneMoreCall setting active ends (.error (.raised ⟨fault, listed (inner ++ outer)⟩))
        (.error (.raised ⟨fault, listed (inner ++ "<lambda>" :: outer)⟩))

theorem OneMoreCall.imp {active : List (Option Name)} {ends ends' : Outcome → Prop}
    {outcome outcome' : Outcome} (hends : ∀ result, ends result → ends' result)
    (h : setting.OneMoreCall active ends outcome outcome') :
    setting.OneMoreCall active ends' outcome outcome' := by
  cases h with
  | value hvalue => exact .value hvalue
  | breach breach => exact .breach breach
  | before raised hinit => exact .before raised (hends _ hinit)
  | inside fault inner hinit houter => exact .inside fault inner (hends _ hinit) houter

theorem labelTexts?_append (names : NameTable) (first second : List (Option Name)) :
    CallStack.labelTexts? names (first ++ second) =
      (CallStack.labelTexts? names first).bind fun texts =>
        (CallStack.labelTexts? names second).map fun others => texts ++ others := by
  induction first with
  | nil => cases h : CallStack.labelTexts? names second <;> simp [CallStack.labelTexts?, h]
  | cons label rest ih =>
    simp only [List.cons_append, CallStack.labelTexts?, ih]
    cases CallStack.labelText? names label with
    | none => rfl
    | some text =>
      cases CallStack.labelTexts? names rest with
      | none => rfl
      | some texts => cases CallStack.labelTexts? names second <;> rfl

theorem backtraceOf?_eq_listed (active : List (Option Name)) :
    setting.backtraceOf? active = (CallStack.labelTexts? setting.names active).map listed := by
  cases active with
  | nil => rfl
  | cons label rest =>
    simp only [backtraceOf?, CallStack.labelTexts?]
    cases CallStack.labelText? setting.names label with
    | none => rfl
    | some text => cases CallStack.labelTexts? setting.names rest <;> rfl

theorem haltUnder_of_texts {active : List (Option Name)} {texts : List String}
    (h : CallStack.labelTexts? setting.names active = some texts) (fault : Fault) :
    setting.haltUnder active fault = .raised ⟨fault, listed texts⟩ := by
  rw [haltUnder, backtraceOf?_eq_listed, h]
  rfl

theorem haltUnder_of_no_texts {active : List (Option Name)}
    (h : CallStack.labelTexts? setting.names active = none) (fault : Fault) :
    setting.haltUnder active fault = .breach .name := by
  rw [haltUnder, backtraceOf?_eq_listed, h]
  rfl

theorem oneMoreCall_of_alikeUnder {active : List (Option Name)} {ends : Outcome → Prop}
    {value : Value} (hinit : ends (.ok value)) {outcome outcome' : Outcome}
    (h : setting.AlikeUnder active (none :: active) outcome outcome') :
    setting.OneMoreCall active ends outcome outcome' := by
  cases h with
  | value hvalue => exact .value hvalue
  | breach breach => exact .breach breach
  | fault fault inner =>
    have hshort := labelTexts?_append setting.names inner active
    have hlong := labelTexts?_append setting.names inner (none :: active)
    simp only [CallStack.labelTexts?, CallStack.labelText?] at hlong
    cases hinner : CallStack.labelTexts? setting.names inner with
    | none =>
      rw [hinner] at hshort hlong
      rw [haltUnder_of_no_texts hshort, haltUnder_of_no_texts hlong]
      exact .breach .name
    | some texts =>
      rw [hinner] at hshort hlong
      cases houter : CallStack.labelTexts? setting.names active with
      | none =>
        rw [houter] at hshort hlong
        rw [haltUnder_of_no_texts hshort, haltUnder_of_no_texts hlong]
        exact .breach .name
      | some outer =>
        rw [houter] at hshort hlong
        rw [haltUnder_of_texts hshort, haltUnder_of_texts hlong]
        exact .inside fault texts hinit houter

/-! ### Bindings and applied lambdas -/

/-- A binding, and a lambda with one parameter that is applied to one operand, of the same name to
the same expression in the same body. -/
structure Counterparts (setting : Setting) (letId applyId : NodeId) (name : Name)
    (init body : NodeId) : Prop where
  letIn : setting.code.node? letId = some (.letIn name init body)
  applied : ∃ lambdaId operands params,
    setting.code.node? applyId = some (.apply lambdaId operands) ∧
    operands.read? setting.code.lists = some [init] ∧
    setting.code.node? lambdaId = some (.lambda params body) ∧
    params.read? setting.code.params = some [name]

namespace Counterparts

variable {letId applyId init body : NodeId} {name : Name}
  (h : setting.Counterparts letId applyId name init body) (active : List (Option Name))
  (frame : FrameId) (store : Store) (depth : Nat)
include h

theorem recorded_letIn :
    setting.recorded none (depth + 1) active letId frame store =
      (setting.recorded none depth active init frame store).andThen fun value store =>
        setting.recorded none depth active body (store.extend frame [(name, value)]).1
          (store.extend frame [(name, value)]).2 := by
  simp only [recorded, recordedNode, h.letIn]

omit h in
/-- A closure with one parameter, called in the frame in which it was made: in either scoping mode
the body runs in a frame that is made from that one. -/
theorem recordedCall_single (eval : Recorder) (value : Value) (serial : Nat) :
    setting.recordedCall none eval active (.closure ⟨[name], body, frame, serial⟩) [value] frame none
        store =
      eval (none :: active) body (store.extend frame [(name, value)]).1
        (store.extend frame [(name, value)]).2 := by
  have hbase : setting.baseFrame ⟨[name], body, frame, serial⟩ frame = frame := by
    unfold baseFrame
    cases setting.scoping <;> rfl
  have hbind : Closure.bindParams ⟨[name], body, frame, serial⟩ setting.names [value] =
      .ok [(name, value)] := bindParams_of_nodup rfl (by simp)
  have hcount : Closure.checkCount ⟨[name], body, frame, serial⟩ setting.names [value] none =
      .ok () := checkCount_of_eq rfl
  simp only [recordedCall, hcount, hbind, hbase, Option.filter_none]

theorem recorded_applied :
    setting.recorded none (depth + 2) active applyId frame store =
      (setting.recorded none (depth + 1) active init frame
          (store.newClosure [name] body frame).2).andThen fun value store =>
        setting.recorded none (depth + 1) (none :: active) body
          (store.extend frame [(name, value)]).1 (store.extend frame [(name, value)]).2 := by
  obtain ⟨lambdaId, operands, params, happly, hoperands, hlambda, hparams⟩ := h.applied
  have hoperator : setting.recorded none (depth + 1) active lambdaId frame store =
      some (.ok (.closure (store.newClosure [name] body frame).1),
        (store.newClosure [name] body frame).2) := by
    simp only [recorded, recordedNode, hlambda, hparams]
  have hlabel : setting.code.callLabel lambdaId = none := by
    simp only [Code.callLabel, hlambda]
  have hcallable : (Value.closure (store.newClosure [name] body frame).1).isCallable = true := rfl
  rw [recorded, recordedNode]
  simp only [happly, hoperator]
  show setting.recordedApply none (setting.recorded none (depth + 1)) active lambdaId operands frame
    (.closure (store.newClosure [name] body frame).1) (store.newClosure [name] body frame).2 = _
  simp only [recordedApply, if_pos hcallable, hoperands, hlabel, recordedOperands]
  congr 1
  funext value store
  exact recordedCall_single active frame store _ value _

/-- A binding and its counterpart come to the same, but for one call more. -/
theorem rel_recorded :
    Option.Rel (fun result result' =>
        setting.OneMoreCall active
          (fun outcome => ∃ after,
            setting.recorded none (depth + 1) active init frame store = some (outcome, after))
          result.1 result'.1 ∧
        result.2.Alike result'.2)
      (setting.recorded none (depth + 2) active letId frame store)
      (setting.recorded none (depth + 2) active applyId frame store) := by
  have hstore : store.Alike (store.newClosure [name] body frame).2 :=
    ⟨rfl, (Store.alike_refl store).lookup⟩
  -- The expression is evaluated under the same calls, with one closure made before or not.
  have hinit := unaware_recorded setting active active (depth + 1) [] init frame _ _ hstore
  rw [List.nil_append] at hinit
  rw [h.recorded_letIn, h.recorded_applied]
  generalize setting.recorded none (depth + 1) active init frame store = progress at hinit ⊢
  generalize setting.recorded none (depth + 1) active init frame
    (store.newClosure [name] body frame).2 = progress' at hinit ⊢
  cases hinit with
  | none => exact .none
  | @some result result' hresult =>
    obtain ⟨outcome, store⟩ := result
    obtain ⟨outcome', store'⟩ := result'
    obtain ⟨houtcome, hstore⟩ := hresult
    cases houtcome with
    | breach breach => exact .some ⟨.breach breach, hstore⟩
    | fault fault inner =>
      cases setting.haltUnder (inner ++ active) fault with
      | breach breach => exact .some ⟨.breach breach, hstore⟩
      | raised raised => exact .some ⟨.before raised ⟨store, rfl⟩, hstore⟩
    | @value value value' hvalue =>
      -- The body is evaluated under one call more.
      obtain ⟨hscope, hstore⟩ := hstore.extend frame (.single name hvalue)
      have hbody := unaware_recorded setting active (none :: active) (depth + 1) [] body
        (store.extend frame [(name, value)]).1 _ _ hstore
      simp only [Progress.andThen, hscope]
      refine rel_mono (fun result result' hresult => ⟨?_, hresult.2⟩) hbody
      exact oneMoreCall_of_alikeUnder ⟨_, rfl⟩ hresult.1

end Counterparts

/-! ### Whole runs -/

/-- A run under open calls ends with an outcome and a store.  The outcome is taken as it leaves these
calls, so that a fault lists all of them; without open calls it is the outcome as it is. -/
def EndsUnder (setting : Setting) (calls : CallStack) (id : NodeId) (frame : FrameId)
    (store : Store) (outcome : Outcome) (after : Store) : Prop :=
  ∃ steps raw memory, setting.run steps ⟨.node id frame, [], ⟨store, calls⟩⟩ = some (raw, memory) ∧
    setting.leaveOutcome calls raw = outcome ∧ memory.store = after

variable {calls : CallStack} {id : NodeId} {frame : FrameId}

theorem endsUnder_iff_recorded (hlimit : calls.limit = none) {outcome : Outcome} {after : Store} :
    setting.EndsUnder calls id frame store outcome after ↔
      ∃ depth, setting.recorded none depth calls.active id frame store = some (outcome, after) := by
  constructor
  · rintro ⟨steps, raw, memory, hrun, rfl, rfl⟩
    obtain ⟨depth, heval⟩ := exists_run_eq_some_iff.1 ⟨steps, hrun⟩
    refine ⟨depth, ?_⟩
    rw [records_eval setting none depth calls id frame store hlimit, heval, settle_some]
  · rintro ⟨depth, hrecorded⟩
    rw [records_eval setting none depth calls id frame store hlimit] at hrecorded
    obtain ⟨⟨raw, memory⟩, heval, hresult⟩ := Option.map_eq_some_iff.1 hrecorded
    cases hresult
    obtain ⟨steps, hrun⟩ := exists_run_eq_some_iff.2 ⟨depth, heval⟩
    exact ⟨steps, raw, memory, hrun, rfl, rfl⟩

theorem recorded_mono (hlimit : calls.limit = none) {depth deeper : Nat} (hle : depth ≤ deeper)
    {result : Outcome × Store}
    (h : setting.recorded none depth calls.active id frame store = some result) :
    setting.recorded none deeper calls.active id frame store = some result := by
  rw [records_eval setting none _ calls id frame store hlimit] at h ⊢
  obtain ⟨found, heval, rfl⟩ := Option.map_eq_some_iff.1 h
  rw [eval_mono hle id frame _ _ heval]
  rfl

theorem exists_endsUnder_iff (hlimit : calls.limit = none) (more : Nat) :
    (∃ outcome after, setting.EndsUnder calls id frame store outcome after) ↔
      ∃ depth, (setting.recorded none (depth + more) calls.active id frame store).isSome := by
  simp only [endsUnder_iff_recorded hlimit]
  constructor
  · rintro ⟨outcome, after, depth, hrecorded⟩
    exact ⟨depth, by rw [recorded_mono hlimit (Nat.le_add_right ..) hrecorded]; rfl⟩
  · rintro ⟨depth, hsome⟩
    obtain ⟨⟨outcome, after⟩, hrecorded⟩ := Option.isSome_iff_exists.1 hsome
    exact ⟨outcome, after, _, hrecorded⟩

/-- A binding is a lambda that is applied at once.  Without a limit on the open calls, evaluating one
comes to an end if evaluating the other does.  Both then give values that are alike or the same
fault, and leave every frame with the same names bound to values that are alike.  A fault in the body
lists one call more if the body is that of the lambda. -/
theorem letIn_is_applied_lambda {letId applyId init body : NodeId} {name : Name}
    (h : setting.Counterparts letId applyId name init body) (frame : FrameId) (store : Store)
    (hlimit : calls.limit = none) :
    ((∃ outcome after, setting.EndsUnder calls letId frame store outcome after) ↔
      ∃ outcome after, setting.EndsUnder calls applyId frame store outcome after) ∧
    ∀ outcome outcome' after after', setting.EndsUnder calls letId frame store outcome after →
      setting.EndsUnder calls applyId frame store outcome' after' →
      setting.OneMoreCall calls.active
          (fun result => ∃ middle, setting.EndsUnder calls init frame store result middle)
          outcome outcome' ∧
        after.Alike after' := by
  have hrel := h.rel_recorded calls.active frame store
  constructor
  · rw [exists_endsUnder_iff hlimit 2, exists_endsUnder_iff hlimit 2]
    exact exists_congr fun depth => by rw [isSome_eq_of_rel (hrel depth)]
  · simp only [endsUnder_iff_recorded hlimit]
    rintro outcome outcome' after after' ⟨depth, hrecorded⟩ ⟨depth', hrecorded'⟩
    have hdepth := hrel (depth + depth')
    rw [recorded_mono hlimit (by omega) hrecorded, recorded_mono hlimit (by omega) hrecorded']
      at hdepth
    cases hdepth with
    | some hresult =>
      obtain ⟨houtcome, hstore⟩ := hresult
      exact ⟨houtcome.imp fun result ⟨middle, hinit⟩ => ⟨middle, _, hinit⟩, hstore⟩

/-- A text that is bound, and a lambda that is applied to it, with a body that refers to `y`. -/
def forY : Setting :=
  ⟨⟨#[.str ⟨0⟩, .ident ⟨1⟩, .letIn ⟨0⟩ ⟨0⟩ ⟨1⟩, .lambda ⟨0, 1⟩ ⟨1⟩, .apply ⟨3⟩ ⟨0, 1⟩], #[⟨0⟩], #[],
    #[⟨0⟩]⟩, (NameTable.new.intern "y").2, .lexical⟩

/-- Where `y` is not bound both fail over it, inside the lambda with one line of backtrace. -/
theorem letIn_is_applied_lambda_forY :
    forY.Counterparts ⟨2⟩ ⟨4⟩ ⟨0⟩ ⟨0⟩ ⟨1⟩ ∧
      ∃ after after',
        forY.EndsUnder (.new none) ⟨2⟩ ⟨0⟩ .empty
            (.error (.raised ⟨.unboundIdentifier "y", none⟩)) after ∧
          forY.EndsUnder (.new none) ⟨4⟩ ⟨0⟩ .empty
            (.error (.raised ⟨.unboundIdentifier "y", some ⟨["<lambda>"]⟩⟩)) after' ∧
          after.Alike after' := by
  have hcounterparts : forY.Counterparts ⟨2⟩ ⟨4⟩ ⟨0⟩ ⟨0⟩ ⟨1⟩ :=
    ⟨rfl, ⟨3⟩, ⟨0, 1⟩, ⟨0, 1⟩, rfl, rfl, rfl, rfl⟩
  have hlimit : (CallStack.new none).limit = none := rfl
  have hlet : forY.EndsUnder (.new none) ⟨2⟩ ⟨0⟩ .empty
      (.error (.raised ⟨.unboundIdentifier "y", none⟩)) _ := ⟨9, _, _, rfl, rfl, rfl⟩
  have happly : forY.EndsUnder (.new none) ⟨4⟩ ⟨0⟩ .empty
      (.error (.raised ⟨.unboundIdentifier "y", some ⟨["<lambda>"]⟩⟩)) _ := ⟨9, _, _, rfl, rfl, rfl⟩
  obtain ⟨-, hall⟩ := letIn_is_applied_lambda hcounterparts ⟨0⟩ .empty hlimit
  exact ⟨hcounterparts, _, _, hlet, happly, (hall _ _ _ _ hlet happly).2⟩

end Setting

end FlatScope
