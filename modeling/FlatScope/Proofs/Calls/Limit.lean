import FlatScope.Proofs.Calls.Backtrace
import FlatScope.Proofs.Tree.Entry
import FlatScope.Proofs.Tree.WellFormed

/-!
# A limit of calls only cuts a run short

Two evaluations of a node that differ in their limits go in step until the lower limit refuses a
call that the higher one admits.  The evaluation under the lower limit ends there, with the fault of
a call beyond the limit, whatever the other one goes on to do.  So at every depth of evaluation,
progress under the lower limit is the progress under the higher one, or it was refused a call
(`lags_recorded`).  The backtrace of the fault lists the operators of the open calls, so they must have
texts (`unnamed_operator_breaches_under_limit`).
-/

namespace FlatScope

/-- One limit admits no more open calls than another; no limit admits any number of them. -/
def LimitLE (low high : Option Nat) : Prop := ∀ bound ∈ high, ∃ lower ∈ low, lower ≤ bound

theorem LimitLE.filter_eq_none {low high : Option Nat} (hle : LimitLE low high) {depth : Nat}
    (h : low.filter (· ≤ depth) = none) : high.filter (· ≤ depth) = none := by
  rw [Option.filter_eq_none_iff] at h ⊢
  intro bound hbound
  obtain ⟨lower, hlower, hbelow⟩ := hle bound hbound
  have hroom : ¬ lower ≤ depth := by simpa using h lower hlower
  have hroom' : ¬ bound ≤ depth := by omega
  simpa using hroom'

namespace Setting

variable {setting : Setting} {low high : Option Nat}

/-! ### Outcomes that a limit brings about -/

/-- Every identifier that is the operator of an application has a text. -/
def NamesOperators (setting : Setting) : Prop :=
  ∀ id operator operands name, setting.code.node? id = some (.apply operator operands) →
    setting.code.node? operator = some (.ident name) → (setting.names.text? name).isSome

/-- The fault of a call beyond a limit. -/
inductive CutOff (limit : Option Nat) : Outcome → Prop where
  | fault {bound : Nat} (backtrace : Option Backtrace) (hlimit : limit = some bound) :
      CutOff limit (.error (.raised ⟨.stackOverflow bound, backtrace⟩))

/-- How a run ends in which a limit refuses a call: with the fault of a call beyond the limit or, when
the backtrace of that fault would list an operator without a text, in a breach. -/
inductive Refused (setting : Setting) (limit : Option Nat) : Outcome → Prop where
  | cutOff {outcome : Outcome} (h : CutOff limit outcome) : Refused setting limit outcome
  | unnamed (hnames : ¬ setting.NamesOperators) : Refused setting limit (.error (.breach .name))

theorem Refused.cutOff_of_namesOperators {outcome : Outcome} (h : setting.Refused low outcome)
    (hnames : setting.NamesOperators) : CutOff low outcome := by
  cases h with
  | cutOff hcut => exact hcut
  | unnamed hunnamed => exact absurd hnames hunnamed

def FromOperators (setting : Setting) (active : List (Option Name)) : Prop :=
  setting.NamesOperators → ∀ label ∈ active, setting.Labelled label

theorem fromOperators_nil (setting : Setting) : setting.FromOperators [] :=
  fun _ _ hlabel => nomatch hlabel

theorem FromOperators.cons {active : List (Option Name)} {label : Option Name}
    (h : setting.FromOperators active) (hlabel : setting.NamesOperators → setting.Labelled label) :
    setting.FromOperators (label :: active) := by
  intro hnames other hother
  rcases List.mem_cons.1 hother with rfl | hrest
  · exact hlabel hnames
  · exact h hnames other hrest

theorem labelled_callLabel (hnames : setting.NamesOperators) {id operator : NodeId}
    {operands : Span NodeId} (hnode : setting.code.node? id = some (.apply operator operands)) :
    setting.Labelled (setting.code.callLabel operator) := by
  intro name hlabel
  unfold Code.callLabel at hlabel
  split at hlabel
  · rename_i hoperator
    cases hlabel
    exact hnames id operator operands name hnode hoperator
  · cases hlabel

theorem refused_raise_stackOverflow {active : List (Option Name)} {bound : Nat}
    (hactive : setting.FromOperators active) (hlimit : low = some bound) :
    setting.Refused low (setting.raise active (.error (.fault (.stackOverflow bound)))) := by
  have hnone : setting.backtraceOf? active = none → ¬ setting.NamesOperators := by
    intro hbacktrace hnames
    have htexts := labelTexts?_isSome (hactive hnames)
    cases active with
    | nil => cases hbacktrace
    | cons label rest =>
      rw [Option.map_eq_none_iff.1 hbacktrace] at htexts
      cases htexts
  simp only [raise, Halt.fault]
  cases hbacktrace : setting.backtraceOf? active with
  | some backtrace => exact .cutOff (.fault backtrace hlimit)
  | none => exact .unnamed (hnone hbacktrace)

/-! ### Progress under two limits -/

/-- Progress under a lower limit, beside the progress under a higher one: the same, or refused a
call. -/
def Lags (setting : Setting) (low : Option Nat) (lower higher : Progress) : Prop :=
  lower = higher ∨ ∃ outcome store, setting.Refused low outcome ∧ lower = some (outcome, store)

theorem Lags.refl (progress : Progress) : setting.Lags low progress progress := .inl rfl

theorem Lags.andThen {lower higher : Progress} {next next' : Value → Store → Progress}
    (hfirst : setting.Lags low lower higher)
    (hnext : ∀ value store, setting.Lags low (next value store) (next' value store)) :
    setting.Lags low (lower.andThen next) (higher.andThen next') := by
  rcases hfirst with rfl | ⟨outcome, store, hrefused, rfl⟩
  · rcases lower with _ | ⟨halt | value, store⟩
    · exact .refl _
    · exact .refl _
    · exact hnext value store
  · -- An outcome over a refused call is no value, so nothing follows it.
    cases hrefused with
    | cutOff hcut =>
      cases hcut with
      | fault backtrace hlimit => exact .inr ⟨_, store, .cutOff (.fault backtrace hlimit), rfl⟩
    | unnamed hnames => exact .inr ⟨_, store, .unnamed hnames, rfl⟩

def RecordsLags (setting : Setting) (low : Option Nat) (lower higher : Recorder) : Prop :=
  ∀ active id frame store, setting.FromOperators active →
    setting.Lags low (lower active id frame store) (higher active id frame store)

variable {lower higher : Recorder} {active : List (Option Name)}

theorem RecordsLags.block (hlags : setting.RecordsLags low lower higher)
    (hactive : setting.FromOperators active) (frame : FrameId) (items : List NodeId) (store : Store) :
    setting.Lags low (recordedBlock lower active frame items store)
      (recordedBlock higher active frame items store) := by
  induction items generalizing store with
  | nil => exact .refl _
  | cons item rest ih =>
    have hitem := hlags active item frame store hactive
    cases rest with
    | nil => exact hitem
    | cons next rest => exact hitem.andThen fun _ store => ih store

theorem RecordsLags.cond (hlags : setting.RecordsLags low lower higher)
    (hactive : setting.FromOperators active) (frame : FrameId) (clauses : List Clause)
    (store : Store) :
    setting.Lags low (setting.recordedCond lower active frame clauses store)
      (setting.recordedCond higher active frame clauses store) := by
  induction clauses generalizing store with
  | nil => exact .refl _
  | cons clause rest ih =>
    refine (hlags active clause.test frame store hactive).andThen fun value store => ?_
    cases value.test with
    | error fault => exact .refl _
    | ok test =>
      cases test with
      | true => exact hlags active clause.consequence frame store hactive
      | false => exact ih store

theorem RecordsLags.call (hle : LimitLE low high) (hlags : setting.RecordsLags low lower higher)
    (hactive : setting.FromOperators active) (callee : Value) (args : List Value) (caller : FrameId)
    {label : Option Name} (hlabel : setting.NamesOperators → setting.Labelled label) (store : Store) :
    setting.Lags low (setting.recordedCall low lower active callee args caller label store)
      (setting.recordedCall high higher active callee args caller label store) := by
  cases callee with
  | native | int | str | bool => exact .refl _
  | closure closure =>
    simp only [recordedCall]
    cases closure.checkCount setting.names args label with
    | error halt => exact .refl _
    | ok =>
      simp only
      cases closure.bindParams setting.names args with
      | error halt => exact .refl _
      | ok bindings =>
        simp only
        cases hfull : low.filter (· ≤ active.length) with
        | some bound =>
          -- The limits part here: the lower one refuses the call, whatever the higher one does.
          have hlimit : low = some bound := (Option.filter_eq_some_iff.1 hfull).1
          exact .inr ⟨_, _, refused_raise_stackOverflow hactive hlimit, rfl⟩
        | none =>
          rw [hle.filter_eq_none hfull]
          exact hlags (label :: active) closure.body _ _ (hactive.cons hlabel)

theorem RecordsLags.operands (hle : LimitLE low high)
    (hlags : setting.RecordsLags low lower higher) (hactive : setting.FromOperators active)
    (callee : Value) {label : Option Name}
    (hlabel : setting.NamesOperators → setting.Labelled label) (frame : FrameId) (done : List Value)
    (operands : List NodeId) (store : Store) :
    setting.Lags low
      (setting.recordedOperands low lower active callee label frame done operands store)
      (setting.recordedOperands high higher active callee label frame done operands store) := by
  induction operands generalizing done store with
  | nil => exact hlags.call hle hactive callee done.reverse frame hlabel store
  | cons operand rest ih =>
    exact (hlags active operand frame store hactive).andThen fun value store => ih _ store

theorem RecordsLags.apply (hle : LimitLE low high) (hlags : setting.RecordsLags low lower higher)
    (hactive : setting.FromOperators active) {id operator : NodeId} {operands : Span NodeId}
    (hnode : setting.code.node? id = some (.apply operator operands)) (frame : FrameId)
    (callee : Value) (store : Store) :
    setting.Lags low (setting.recordedApply low lower active operator operands frame callee store)
      (setting.recordedApply high higher active operator operands frame callee store) := by
  unfold recordedApply
  by_cases hcallable : callee.isCallable = true
  · rw [if_pos hcallable, if_pos hcallable]
    cases operands.read? setting.code.lists with
    | none => exact .refl _
    | some ids =>
      have hlabel (hnames : setting.NamesOperators) := labelled_callLabel hnames hnode
      exact hlags.operands hle hactive callee hlabel frame [] ids store
  · rw [if_neg hcallable, if_neg hcallable]
    exact .refl _

theorem RecordsLags.node (hle : LimitLE low high) (hlags : setting.RecordsLags low lower higher) :
    setting.RecordsLags low (setting.recordedNode low lower)
      (setting.recordedNode high higher) := by
  intro active id frame store hactive
  simp only [recordedNode]
  cases hnode : setting.code.node? id with
  | none => exact .refl _
  | some node =>
    cases node with
    | int | str | ident | lambda | unknown => exact .refl _
    | apply operator operands =>
      exact (hlags active operator frame store hactive).andThen fun callee store =>
        hlags.apply hle hactive hnode frame callee store
    | block items =>
      simp only
      cases items.read? setting.code.lists with
      | none => exact .refl _
      | some ids => exact hlags.block hactive frame ids store
    | cond clauses =>
      simp only
      cases clauses.read? setting.code.clauses with
      | none => exact .refl _
      | some clauses => exact hlags.cond hactive frame clauses store
    | letIn name init body =>
      exact (hlags active init frame store hactive).andThen fun value store =>
        hlags active body _ _ hactive
    | assign name value =>
      exact (hlags active value frame store hactive).andThen fun value store => .refl _

theorem lags_recorded (setting : Setting) (hle : LimitLE low high) (depth : Nat) :
    setting.RecordsLags low (setting.recorded low depth) (setting.recorded high depth) := by
  induction depth with
  | zero =>
    intro active id frame store _
    exact .refl _
  | succ depth ih => exact ih.node hle

/-! ### Whole runs -/

/-- A run without open calls at its start ends with an outcome and a store. -/
def Ends (setting : Setting) (limit : Option Nat) (id : NodeId) (frame : FrameId) (store : Store)
    (outcome : Outcome) (after : Store) : Prop :=
  ∃ steps memory, setting.run steps ⟨.node id frame, [], ⟨store, .new limit⟩⟩ =
    some (outcome, memory) ∧ memory.store = after

variable {id : NodeId} {frame : FrameId} {store after : Store} {outcome : Outcome}

theorem ends_or_refused (hle : LimitLE low high)
    (h : setting.Ends high id frame store outcome after) :
    setting.Ends low id frame store outcome after ∨
      ∃ cut cutAfter, setting.Refused low cut ∧ setting.Ends low id frame store cut cutAfter := by
  obtain ⟨depth, hhigh⟩ := exists_run_eq_some_iff_recorded.1 h
  have hlags := setting.lags_recorded hle depth [] id frame store setting.fromOperators_nil
  rcases hlags with heq | ⟨cut, cutAfter, hcut, hlow⟩
  · exact .inl (exists_run_eq_some_iff_recorded.2 ⟨depth, heq.trans hhigh⟩)
  · exact .inr ⟨cut, cutAfter, hcut, exists_run_eq_some_iff_recorded.2 ⟨depth, hlow⟩⟩

theorem ends_or_cutOff (hle : LimitLE low high) (hnames : setting.NamesOperators)
    (h : setting.Ends high id frame store outcome after) :
    setting.Ends low id frame store outcome after ∨
      ∃ cut cutAfter, CutOff low cut ∧ setting.Ends low id frame store cut cutAfter := by
  rcases ends_or_refused hle h with hsame | ⟨cut, cutAfter, hcut, hlow⟩
  · exact .inl hsame
  · exact .inr ⟨cut, cutAfter, hcut.cutOff_of_namesOperators hnames, hlow⟩

theorem ends_of_not_refused (hle : LimitLE low high)
    (h : setting.Ends low id frame store outcome after) (hcut : ¬ setting.Refused low outcome) :
    setting.Ends high id frame store outcome after := by
  obtain ⟨depth, hlow⟩ := exists_run_eq_some_iff_recorded.1 h
  have hlags := setting.lags_recorded hle depth [] id frame store setting.fromOperators_nil
  rcases hlags with heq | ⟨cut, cutAfter, hcut', hlow'⟩
  · exact exists_run_eq_some_iff_recorded.2 ⟨depth, heq.symm.trans hlow⟩
  · have hsame : (outcome, after) = (cut, cutAfter) := Option.some.inj (hlow.symm.trans hlow')
    cases hsame
    exact absurd hcut' hcut

theorem Ends.limit_eq {bound : Nat} {backtrace : Option Backtrace} {limit : Option Nat}
    (h : setting.Ends limit id frame store (.error (.raised ⟨.stackOverflow bound, backtrace⟩))
      after) : limit = some bound := by
  obtain ⟨depth, hrecorded⟩ := exists_run_eq_some_iff_recorded.1 h
  have hfits : Fits limit [] := fun bound _ => Nat.zero_le bound
  exact (recordsFull_recorded setting limit depth [] id frame store hfits _ _ hrecorded bound
    backtrace rfl).1

theorem namesOperators_of_wellFormed (h : setting.code.WellFormed setting.names) :
    setting.NamesOperators :=
  fun _ operator _ name _ hoperator => h operator (.ident name) hoperator

/-- Of two limits, the lower one only cuts runs short.  A run that returns under the lower limit and is
not cut off ends in the same way under the higher limit, with the same outcome, backtrace and frames.
Where the operators have texts, as in every decoded program, a run that ends under the higher limit
ends in the same way under the lower one or is cut off, and it is cut off if the higher limit cuts it
off too. -/
theorem depth_limit_only_cuts_short (setting : Setting) (id : NodeId) (frame : FrameId)
    (store : Store) {low high : Option Nat} (hle : LimitLE low high) :
    (∀ outcome after, setting.Ends low id frame store outcome after →
      (∀ breach, outcome ≠ .error (.breach breach)) → ¬ CutOff low outcome →
        setting.Ends high id frame store outcome after) ∧
    (setting.NamesOperators →
      (∀ outcome after, setting.Ends high id frame store outcome after →
        setting.Ends low id frame store outcome after ∨
          ∃ cut cutAfter, CutOff low cut ∧ setting.Ends low id frame store cut cutAfter) ∧
      ∀ bound backtrace after,
        setting.Ends high id frame store (.error (.raised ⟨.stackOverflow bound, backtrace⟩)) after →
          ∃ cut cutAfter, CutOff low cut ∧ setting.Ends low id frame store cut cutAfter) ∧
    ∀ json names program after scoping, Program.ofJson json names = (.ok program, after) →
      NamesOperators ⟨program.code, after, scoping⟩ := by
  refine ⟨fun outcome after hlow hreturns hcut => ?_, fun hnames => ⟨?_, ?_⟩, ?_⟩
  · refine ends_of_not_refused hle hlow fun hrefused => ?_
    cases hrefused with
    | cutOff h => exact hcut h
    | unnamed => exact hreturns .name rfl
  · exact fun outcome after => ends_or_cutOff hle hnames
  · intro bound backtrace after hhigh
    rcases ends_or_cutOff hle hnames hhigh with hlow | hcut
    · exact ⟨_, after, .fault backtrace hlow.limit_eq, hlow⟩
    · exact hcut
  · exact fun json names program after scoping h =>
      namesOperators_of_wellFormed (Program.wellFormed_of_ofJson h)

/-- A call inside a call, for the sake of the empty block. -/
def nested : Setting :=
  ⟨⟨#[.block ⟨0, 0⟩, .lambda ⟨0, 0⟩ ⟨0⟩, .apply ⟨1⟩ ⟨0, 0⟩, .lambda ⟨0, 0⟩ ⟨2⟩, .apply ⟨3⟩ ⟨0, 0⟩],
    #[], #[], #[]⟩, .new, .lexical⟩

/-- Two calls are enough for the call inside a call, so it ends in the same way without a limit; one
call is not enough. -/
theorem depth_limit_only_cuts_short_nested :
    LimitLE (some 2) none ∧ ¬ CutOff (some 2) (.ok (.bool false)) ∧
      nested.Ends none ⟨4⟩ ⟨0⟩ .empty (.ok (.bool false)) ⟨#[], 2⟩ ∧
      LimitLE (some 1) none ∧ nested.NamesOperators ∧
      ∃ cut cutAfter, CutOff (some 1) cut ∧ nested.Ends (some 1) ⟨4⟩ ⟨0⟩ .empty cut cutAfter := by
  have hle (bound : Nat) : LimitLE (some bound) none := fun _ hnone => nomatch hnone
  have hcut : ¬ CutOff (some 2) (.ok (.bool false)) := fun hcut => nomatch hcut
  have hreturns : ∀ breach, (.ok (.bool false) : Outcome) ≠ .error (.breach breach) :=
    fun _ h => nomatch h
  have hnames : nested.NamesOperators := by
    intro id operator operands name _ hoperator
    rcases operator with ⟨_ | _ | _ | _ | _ | raw⟩ <;> cases hoperator
  have htwo : nested.Ends (some 2) ⟨4⟩ ⟨0⟩ .empty (.ok (.bool false)) ⟨#[], 2⟩ := ⟨12, _, rfl, rfl⟩
  have hone : nested.Ends (some 1) ⟨4⟩ ⟨0⟩ .empty
      (.error (.raised ⟨.stackOverflow 1, some ⟨["<lambda>"]⟩⟩)) ⟨#[], 2⟩ := ⟨12, _, rfl, rfl⟩
  have hfree := (depth_limit_only_cuts_short nested ⟨4⟩ ⟨0⟩ .empty (hle 2)).1 _ _ htwo hreturns hcut
  have hshorter :=
    ((depth_limit_only_cuts_short nested ⟨4⟩ ⟨0⟩ .empty (hle 1)).2.1 hnames).1 _ _ hfree
  refine ⟨hle 2, hcut, hfree, hle 1, hnames, ?_⟩
  rcases hshorter with hsame | hshort
  · -- One call would have to give two outcomes.
    obtain ⟨steps, memory, hrun, -⟩ := hsame
    obtain ⟨steps', memory', hrun', -⟩ := hone
    cases run_unique hrun hrun'
  · exact hshort

/-- The call of a closure under a name that has no text. -/
def unnamedOperator : Setting :=
  ⟨⟨#[.block ⟨0, 0⟩, .lambda ⟨0, 0⟩ ⟨0⟩, .apply ⟨1⟩ ⟨0, 0⟩, .ident ⟨7⟩, .apply ⟨3⟩ ⟨0, 0⟩],
    #[], #[], #[]⟩, .new, .lexical⟩

/-- A frame that binds that name to a closure whose body is a call. -/
def unnamedCallee : Store := (Store.empty.newFrame [(⟨7⟩, .closure ⟨[], ⟨2⟩, ⟨0⟩, 0⟩)]).2

/-- Without a text for the operator, a run that two calls are enough for breaches under a limit of one
call: the backtrace of the fault would list the operator. -/
theorem unnamed_operator_breaches_under_limit :
    LimitLE (some 1) (some 2) ∧
      (∃ after, unnamedOperator.Ends (some 2) ⟨4⟩ ⟨0⟩ unnamedCallee (.ok (.bool false)) after) ∧
      (∃ after, unnamedOperator.Ends (some 1) ⟨4⟩ ⟨0⟩ unnamedCallee (.error (.breach .name)) after) ∧
      ¬ ∃ cut cutAfter, (cut = .ok (.bool false) ∨ CutOff (some 1) cut) ∧
        unnamedOperator.Ends (some 1) ⟨4⟩ ⟨0⟩ unnamedCallee cut cutAfter := by
  have hlow : unnamedOperator.Ends (some 1) ⟨4⟩ ⟨0⟩ unnamedCallee (.error (.breach .name))
      ⟨unnamedCallee.frames, 1⟩ := ⟨12, _, rfl, rfl⟩
  refine ⟨?_, ⟨⟨unnamedCallee.frames, 1⟩, 12, _, rfl, rfl⟩, ⟨_, hlow⟩, ?_⟩
  · rintro bound ⟨⟩
    exact ⟨1, rfl, by decide⟩
  · rintro ⟨cut, cutAfter, hcut, steps, memory, hrun, -⟩
    obtain ⟨steps', memory', hrun', -⟩ := hlow
    cases run_unique hrun hrun'
    rcases hcut with hsame | hcut
    · cases hsame
    · cases hcut

end Setting

end FlatScope
