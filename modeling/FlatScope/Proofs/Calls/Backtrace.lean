import FlatScope.Proofs.Calls.Natives
import FlatScope.Proofs.Calls.Recording

/-!
# Backtraces list the calls that were open where a fault arose

The fault that ends a run carries the backtrace that `Setting.recorded` records on the spot.  A call
beyond the limit is refused when as many calls are open as the limit admits, and nothing else in an
evaluation brings about that fault, so its backtrace has exactly that many lines.
-/

namespace FlatScope

/-! ### The limit of calls is no fault of a native -/

/-- A result that is not the fault of a call beyond the limit. -/
def Admitted {α : Type} (result : Except Fault α) : Prop :=
  ∀ bound, result ≠ .error (.stackOverflow bound)

theorem Native.admitted_call (native : Native) (args : List Value) : Admitted (native.call args) :=
  fun _ h => native.plain_call args _ h

/-! ### The backtrace of a call beyond the limit -/

theorem CallStack.length_of_labelTexts? {names : NameTable} {labels : List (Option Name)}
    {texts : List String} (h : labelTexts? names labels = some texts) :
    texts.length = labels.length := by
  induction labels generalizing texts with
  | nil => cases h; rfl
  | cons label rest ih =>
    obtain ⟨first, hfirst, hrest⟩ := Option.bind_eq_some_iff.1 h
    obtain ⟨others, hothers, hcons⟩ := Option.bind_eq_some_iff.1 hrest
    cases hcons
    simp [ih hothers]

def Outcome.Admitted (outcome : Outcome) : Prop :=
  ∀ bound backtrace, outcome ≠ .error (.raised ⟨.stackOverflow bound, backtrace⟩)

theorem Outcome.admitted_fault {fault : Fault} (h : ∀ bound, fault ≠ .stackOverflow bound) :
    Outcome.Admitted (.error (.fault fault)) := by
  intro bound backtrace heq
  cases heq
  exact h bound rfl

theorem Outcome.admitted_ofFault {result : Except Fault Value} (h : FlatScope.Admitted result) :
    (Outcome.ofFault result).Admitted := by
  cases result with
  | ok value =>
    intro bound backtrace heq
    cases heq
  | error fault => exact admitted_fault fun bound heq => h bound (congrArg Except.error heq)

theorem Outcome.admitted_faultFor (names : NameTable) (name : Name) {fault : String → Fault}
    (h : ∀ text bound, fault text ≠ .stackOverflow bound) :
    Outcome.Admitted (.error (names.faultFor name fault)) := by
  unfold NameTable.faultFor
  cases names.text? name with
  | some text => exact admitted_fault (h text)
  | none =>
    intro bound backtrace heq
    cases heq

theorem Outcome.admitted_evalInt (literal : Int) : (evalInt literal).Admitted := by
  apply Outcome.admitted_ofFault
  intro bound h
  unfold literalWord at h
  split at h
  · split at h <;> cases h
  · cases h

theorem Closure.admitted_checkCount {closure : Closure} {names : NameTable} {args : List Value}
    {label : Option Name} {halt : Halt} (h : closure.checkCount names args label = .error halt) :
    Outcome.Admitted (.error halt) := by
  intro bound backtrace heq
  cases heq
  unfold checkCount at h
  split at h
  · cases h
  · split at h <;> cases h

theorem Closure.admitted_pairUp {names : NameTable} {done : Bindings} {params : List Name}
    {args : List Value} {halt : Halt} (h : pairUp names done params args = .error halt) :
    Outcome.Admitted (.error halt) := by
  induction params generalizing done args with
  | nil => cases h
  | cons param params ih =>
    cases args with
    | nil => cases h
    | cons arg args =>
      unfold pairUp at h
      split at h
      · cases h
        exact Outcome.admitted_faultFor _ _ (by simp)
      · exact ih h

/-- If the outcome is the fault of a call beyond the limit, its backtrace lists as many calls as the
limit admits, and there is none when the limit is zero. -/
def Outcome.FullAt (limit : Option Nat) (outcome : Outcome) : Prop :=
  ∀ bound backtrace, outcome = .error (.raised ⟨.stackOverflow bound, backtrace⟩) →
    limit = some bound ∧ (backtrace = none ↔ bound = 0) ∧
      ∀ trace ∈ backtrace, trace.frames.length = bound

def Progress.FullAt (limit : Option Nat) (progress : Progress) : Prop :=
  ∀ outcome store, progress = some (outcome, store) → outcome.FullAt limit

theorem Progress.fullAt_ok (limit : Option Nat) (value : Value) (store : Store) :
    Progress.FullAt limit (some (.ok value, store)) := by
  intro outcome store h
  cases h
  intro bound backtrace heq
  cases heq

theorem Progress.fullAt_breach (limit : Option Nat) (breach : Breach) (store : Store) :
    Progress.FullAt limit (some (.error (.breach breach), store)) := by
  intro outcome store h
  cases h
  intro bound backtrace heq
  cases heq

theorem Progress.FullAt.andThen {limit : Option Nat} {progress : Progress}
    {next : Value → Store → Progress} (hfirst : progress.FullAt limit)
    (hnext : ∀ value store, (next value store).FullAt limit) :
    (progress.andThen next).FullAt limit := by
  rcases progress with _ | ⟨halt | value, store⟩
  · intro outcome store h
    cases h
  · exact hfirst
  · exact hnext value store

namespace Setting

variable {setting : Setting} {limit : Option Nat}

theorem fullAt_raise {outcome : Outcome} (active : List (Option Name)) (store : Store)
    (h : outcome.Admitted) :
    Progress.FullAt limit (some (setting.raise active outcome, store)) := by
  intro result after heq bound backtrace hresult
  cases heq
  rcases outcome with (⟨fault, attached⟩ | breach) | value
  · simp only [raise] at hresult
    split at hresult
    · cases hresult
      exact absurd rfl (h bound attached)
    · cases hresult
  · cases hresult
  · cases hresult

/-- A call that the limit refuses is recorded with all the calls that the limit admits. -/
theorem fullAt_raise_stackOverflow {active : List (Option Name)} {bound : Nat} (store : Store)
    (hlimit : limit = some bound) (hlength : active.length = bound) :
    Progress.FullAt limit
      (some (setting.raise active (.error (.fault (.stackOverflow bound))), store)) := by
  intro result after heq bound' backtrace hresult
  cases heq
  subst hlimit
  cases active with
  | nil =>
    cases hresult
    exact ⟨rfl, by simp [← hlength], by simp⟩
  | cons label rest =>
    simp only [raise, backtraceOf?, Halt.fault] at hresult
    cases htexts : CallStack.labelTexts? setting.names (label :: rest) with
    | none =>
      rw [htexts] at hresult
      cases hresult
    | some texts =>
      rw [htexts] at hresult
      cases hresult
      have htextsLength : texts.length = bound := by
        rw [CallStack.length_of_labelTexts? htexts, hlength]
      have hpos : bound ≠ 0 := by
        rw [← hlength]
        simp
      exact ⟨rfl, by simp [hpos], by simp [htextsLength]⟩

/-- The open calls are at most as many as the limit admits. -/
def Fits (limit : Option Nat) (active : List (Option Name)) : Prop :=
  ∀ bound ∈ limit, active.length ≤ bound

/-- Under open calls that fit, a recorder comes to outcomes as `Outcome.FullAt` says. -/
def RecordsFull (limit : Option Nat) (recorder : Recorder) : Prop :=
  ∀ active id frame store, Fits limit active → (recorder active id frame store).FullAt limit

variable {recorder : Recorder} {active : List (Option Name)}

theorem RecordsFull.block (hrec : RecordsFull limit recorder) (hfits : Fits limit active)
    (frame : FrameId) (items : List NodeId) (store : Store) :
    (recordedBlock recorder active frame items store).FullAt limit := by
  induction items generalizing store with
  | nil => exact Progress.fullAt_ok _ _ _
  | cons item rest ih =>
    cases rest with
    | nil => exact hrec active item frame store hfits
    | cons next rest => exact (hrec active item frame store hfits).andThen fun _ store => ih store

theorem RecordsFull.cond (hrec : RecordsFull limit recorder) (hfits : Fits limit active)
    (frame : FrameId) (clauses : List Clause) (store : Store) :
    (setting.recordedCond recorder active frame clauses store).FullAt limit := by
  induction clauses generalizing store with
  | nil => exact Progress.fullAt_ok _ _ _
  | cons clause rest ih =>
    refine (hrec active clause.test frame store hfits).andThen fun value store => ?_
    cases htest : value.test with
    | error fault =>
      have hfault : ∀ bound, fault ≠ .stackOverflow bound := by
        intro bound heq
        subst heq
        cases value <;> cases htest
      exact fullAt_raise active store (Outcome.admitted_fault hfault)
    | ok test =>
      cases test with
      | true => exact hrec active clause.consequence frame store hfits
      | false => exact ih store

theorem RecordsFull.call (hrec : RecordsFull limit recorder) (hfits : Fits limit active)
    (callee : Value) (args : List Value) (caller : FrameId) (label : Option Name) (store : Store) :
    (setting.recordedCall limit recorder active callee args caller label store).FullAt limit := by
  cases callee with
  | native native =>
    exact fullAt_raise active store (Outcome.admitted_ofFault (native.admitted_call args))
  | int | str | bool => exact fullAt_raise active store (Outcome.admitted_fault (by simp))
  | closure closure =>
    simp only [recordedCall]
    cases hcount : closure.checkCount setting.names args label with
    | error halt => exact fullAt_raise active store (Closure.admitted_checkCount hcount)
    | ok =>
      simp only
      cases hpairs : closure.bindParams setting.names args with
      | error halt => exact fullAt_raise active store (Closure.admitted_pairUp hpairs)
      | ok bindings =>
        simp only
        cases hfull : limit.filter (· ≤ active.length) with
        | some bound =>
          -- The open calls fit, and the limit is reached: they are exactly as many as it admits.
          obtain ⟨hlimit, hle⟩ := Option.filter_eq_some_iff.1 hfull
          have hlength : active.length = bound :=
            Nat.le_antisymm (hfits bound hlimit) (of_decide_eq_true hle)
          exact fullAt_raise_stackOverflow _ hlimit hlength
        | none =>
          refine hrec (label :: active) closure.body _ _ ?_
          intro bound hlimit
          have hroom := Option.filter_eq_none_iff.1 hfull bound hlimit
          have hlt : active.length < bound := by simpa using hroom
          rw [List.length_cons]
          omega

theorem RecordsFull.operands (hrec : RecordsFull limit recorder) (hfits : Fits limit active)
    (callee : Value) (label : Option Name) (frame : FrameId) (done : List Value)
    (operands : List NodeId) (store : Store) :
    (setting.recordedOperands limit recorder active callee label frame done operands
      store).FullAt limit := by
  induction operands generalizing done store with
  | nil => exact hrec.call hfits callee done.reverse frame label store
  | cons operand rest ih =>
    exact (hrec active operand frame store hfits).andThen fun value store => ih _ store

theorem RecordsFull.apply (hrec : RecordsFull limit recorder) (hfits : Fits limit active)
    (operator : NodeId) (operands : Span NodeId) (frame : FrameId) (callee : Value)
    (store : Store) :
    (setting.recordedApply limit recorder active operator operands frame callee
      store).FullAt limit := by
  unfold recordedApply
  by_cases hcallable : callee.isCallable = true
  · rw [if_pos hcallable]
    cases operands.read? setting.code.lists with
    | none => exact Progress.fullAt_breach _ _ _
    | some ids => exact hrec.operands hfits callee _ frame [] ids store
  · rw [if_neg hcallable]
    exact fullAt_raise active store (Outcome.admitted_fault (by simp))

theorem RecordsFull.node (hrec : RecordsFull limit recorder) :
    RecordsFull limit (setting.recordedNode limit recorder) := by
  intro active id frame store hfits
  simp only [recordedNode]
  cases setting.code.node? id with
  | none => exact fullAt_raise active store (Outcome.admitted_fault (by simp))
  | some node =>
    cases node with
    | int literal => exact fullAt_raise active store (Outcome.admitted_evalInt literal)
    | str text =>
      refine fullAt_raise active store ?_
      intro bound backtrace heq
      unfold evalStr at heq
      split at heq <;> cases heq
    | ident name =>
      simp only
      cases store.lookup frame name with
      | some value => exact Progress.fullAt_ok _ _ _
      | none => exact fullAt_raise active store (Outcome.admitted_faultFor _ _ (by simp))
    | apply operator operands =>
      exact (hrec active operator frame store hfits).andThen fun callee store =>
        hrec.apply hfits operator operands frame callee store
    | lambda params body =>
      simp only
      cases params.read? setting.code.params with
      | none => exact Progress.fullAt_breach _ _ _
      | some names => exact Progress.fullAt_ok _ _ _
    | block items =>
      simp only
      cases items.read? setting.code.lists with
      | none => exact Progress.fullAt_breach _ _ _
      | some ids => exact hrec.block hfits frame ids store
    | cond clauses =>
      simp only
      cases clauses.read? setting.code.clauses with
      | none => exact Progress.fullAt_breach _ _ _
      | some clauses => exact hrec.cond hfits frame clauses store
    | letIn name init body =>
      exact (hrec active init frame store hfits).andThen fun value store => hrec active body _ _ hfits
    | assign name value =>
      refine (hrec active value frame store hfits).andThen fun value store => ?_
      by_cases hbound : store.contains frame name = true
      · rw [if_pos hbound]
        exact Progress.fullAt_ok _ _ _
      · rw [if_neg hbound]
        exact fullAt_raise active store (Outcome.admitted_faultFor _ _ (by simp))
    | unknown tag => exact fullAt_raise active store (Outcome.admitted_faultFor _ _ (by simp))

theorem recordsFull_recorded (setting : Setting) (limit : Option Nat) (depth : Nat) :
    RecordsFull limit (setting.recorded limit depth) := by
  induction depth with
  | zero =>
    intro active id frame store _ outcome after h
    cases h
  | succ depth ih => exact ih.node

/-! ### Whole runs -/

/-- A run without open calls comes to the same outcomes and the same frames as evaluation that
records every fault where it arises. -/
theorem exists_run_eq_some_iff_recorded {id : NodeId} {frame : FrameId} {store after : Store}
    {outcome : Outcome} :
    (∃ steps memory, setting.run steps ⟨.node id frame, [], ⟨store, .new limit⟩⟩ =
        some (outcome, memory) ∧ memory.store = after) ↔
      ∃ depth, setting.recorded limit depth [] id frame store = some (outcome, after) := by
  have hrecorded (depth : Nat) : setting.recorded limit depth [] id frame store =
      (setting.eval depth id frame ⟨store, .new limit⟩).map fun result => (result.1, result.2.store) := by
    have h := records_eval setting limit depth (.new limit) id frame store rfl
    rw [CallStack.active_new] at h
    simpa only [settle, leaveOutcome_new] using h
  constructor
  · rintro ⟨steps, memory, hrun, rfl⟩
    obtain ⟨depth, heval⟩ := exists_run_eq_some_iff.1 ⟨steps, hrun⟩
    exact ⟨depth, by rw [hrecorded, heval]; rfl⟩
  · rintro ⟨depth, h⟩
    rw [hrecorded] at h
    obtain ⟨⟨_, memory⟩, heval, hresult⟩ := Option.map_eq_some_iff.1 h
    cases hresult
    obtain ⟨steps, hrun⟩ := exists_run_eq_some_iff.2 ⟨depth, heval⟩
    exact ⟨steps, memory, hrun, rfl⟩

/-- The fault that a run ends with carries the backtrace of the calls that were open where it arose,
the innermost first.  The fault of a call beyond the limit lists as many calls as the limit admits. -/
theorem backtrace_lists_calls_open_at_fault (setting : Setting) (id : NodeId) (frame : FrameId)
    (store : Store) (limit : Option Nat) :
    (∀ outcome after,
      (∃ steps memory, setting.run steps ⟨.node id frame, [], ⟨store, .new limit⟩⟩ =
          some (outcome, memory) ∧ memory.store = after) ↔
        ∃ depth, setting.recorded limit depth [] id frame store = some (outcome, after)) ∧
    ∀ steps bound backtrace memory,
      setting.run steps ⟨.node id frame, [], ⟨store, .new limit⟩⟩ =
          some (.error (.raised ⟨.stackOverflow bound, backtrace⟩), memory) →
        limit = some bound ∧ (backtrace = none ↔ bound = 0) ∧
          ∀ trace ∈ backtrace, trace.frames.length = bound := by
  refine ⟨fun outcome after => exists_run_eq_some_iff_recorded, ?_⟩
  intro steps bound backtrace memory hrun
  obtain ⟨depth, hrecorded⟩ := exists_run_eq_some_iff_recorded.1 ⟨steps, memory, hrun, rfl⟩
  have hfits : Fits limit [] := fun bound _ => Nat.zero_le bound
  exact recordsFull_recorded setting limit depth [] id frame store hfits _ _ hrecorded bound
    backtrace rfl

/-- Endless recursion is stopped with one line of backtrace for every call that the limit admits. -/
theorem backtrace_lists_calls_open_at_fault_endless :
    ∃ backtrace memory,
      endless.run 12 ⟨.node ⟨1⟩ ⟨0⟩, [], ⟨.empty, .new (some 2)⟩⟩ =
          some (.error (.raised ⟨.stackOverflow 2, backtrace⟩), memory) ∧
        ∀ trace ∈ backtrace, trace.frames.length = 2 := by
  have hrun : endless.run 12 ⟨.node ⟨1⟩ ⟨0⟩, [], ⟨.empty, .new (some 2)⟩⟩ =
      some (.error (.raised ⟨.stackOverflow 2, some ⟨["<lambda>", "<lambda>"]⟩⟩),
        ⟨⟨#[], 3⟩, ⟨#[], some 2⟩⟩) := rfl
  have hall := backtrace_lists_calls_open_at_fault endless ⟨1⟩ ⟨0⟩ .empty (some 2)
  exact ⟨_, _, hrun, (hall.2 12 2 _ _ hrun).2.2⟩

end Setting

end FlatScope
