import FlatScope.Eval.Agreement
import FlatScope.Proofs.Tree.Entry

/-!
# What evaluation writes to

Evaluation writes to a frame only by assigning in the frame that is current.  The frame that is
current is the one it started in, a frame that was made on the way, or, with lexical scoping, the
frame of a closure without parameters.  A `Region` says which frames can become current, and which
can be copied into new frames.  If the closures in a region lead to no frame outside it, evaluation
writes to no frame outside it (`stays_eval`).
-/

namespace FlatScope

/-! ### Stores that differ in few places -/

/-- Some node of the code assigns to a name. -/
def Code.Assigns (code : Code) (name : Name) : Prop :=
  ∃ id value, code.node? id = some (.assign name value)

namespace Store

/-- Between two stores frames were added, and of the frames that were there only writable ones have
other values, under names that are targets.  Each binds the names that it did. -/
structure Confined (targets : Name → Prop) (writable : FrameId → Prop) (before after : Store) :
    Prop where
  size_le : before.frames.size ≤ after.frames.size
  kept : ∀ id, before.Holds id → ¬ writable id → after.bindings id = before.bindings id
  keys : ∀ id, before.Holds id → (after.bindings id).keys = (before.bindings id).keys
  lookup : ∀ id name, before.Holds id → ¬ targets name →
    after.lookup id name = before.lookup id name

variable {targets : Name → Prop} {writable : FrameId → Prop} {before mid after : Store}

theorem Confined.of_bindings_eq (hsize : before.frames.size ≤ after.frames.size)
    (h : ∀ id, before.Holds id → after.bindings id = before.bindings id) :
    Confined targets writable before after where
  size_le := hsize
  kept id hid _ := h id hid
  keys id hid := by rw [h id hid]
  lookup id name hid _ := by rw [Store.lookup, h id hid, Store.lookup]

theorem Confined.refl (store : Store) : Confined targets writable store store :=
  .of_bindings_eq (Nat.le_refl _) fun _ _ => rfl

theorem Confined.trans (h : Confined targets writable before mid)
    (h' : Confined targets writable mid after) : Confined targets writable before after := by
  have hholds (id : FrameId) (hid : before.Holds id) : mid.Holds id :=
    Nat.lt_of_lt_of_le hid h.size_le
  constructor
  · exact Nat.le_trans h.size_le h'.size_le
  · intro id hid hwritable
    exact (h'.kept id (hholds id hid) hwritable).trans (h.kept id hid hwritable)
  · intro id hid
    exact (h'.keys id (hholds id hid)).trans (h.keys id hid)
  · intro id name hid hname
    exact (h'.lookup id name (hholds id hid) hname).trans (h.lookup id name hid hname)

theorem size_extend_le (store : Store) (base : FrameId) (added : Bindings) :
    store.frames.size ≤ (store.extend base added).2.frames.size := by
  by_cases hadded : added = []
  · rw [hadded]
    exact Nat.le_refl _
  · rw [(Setting.extend_of_ne_nil store base hadded).2.1]
    omega

/-- Making a frame from another one changes no frame that was there. -/
theorem bindings_extend_of_holds {store : Store} (base : FrameId) (added : Bindings) {id : FrameId}
    (hid : store.Holds id) : (store.extend base added).2.bindings id = store.bindings id := by
  by_cases hadded : added = []
  · rw [hadded, extend_nil]
  · have hframe := (Setting.extend_of_ne_nil store base hadded).1
    have hne : id ≠ (store.extend base added).1 := by
      rintro rfl
      rw [Store.Holds, hframe] at hid
      exact Nat.lt_irrefl _ hid
    rw [bindings_extend store base id hadded, if_neg hne]

theorem confined_extend (store : Store) (base : FrameId) (added : Bindings) :
    Confined targets writable store (store.extend base added).2 :=
  .of_bindings_eq (size_extend_le store base added)
    fun _ hid => bindings_extend_of_holds base added hid

theorem confined_reassign {store : Store} {frame : FrameId} {name : Name} (value : Value)
    (hbound : store.contains frame name = true) (hframe : writable frame) (hname : targets name) :
    Confined targets writable store (store.reassign frame name value) := by
  have hbindings (id : FrameId) : (store.reassign frame name value).bindings id =
      if id = frame then (store.bindings frame).replace name value else store.bindings id :=
    bindings_update _ id (holds_of_contains hbound)
  constructor
  · exact Nat.le_of_eq (Setting.size_update store frame _).symm
  · intro id _ hwritable
    have hne : id ≠ frame := fun heq => hwritable (heq ▸ hframe)
    rw [hbindings, if_neg hne]
  · intro id _
    rw [hbindings]
    split
    · rename_i heq
      rw [Bindings.keys_replace, heq]
    · rfl
  · intro id other _ hother
    have hne : ¬ (id = frame ∧ name = other) := fun heq => hother (heq.2 ▸ hname)
    rw [lookup_reassign value id other hbound, if_neg hne]

end Store

/-! ### Parameters and natives -/

theorem Closure.zip_reverse_ne_nil {closure : Closure} {args : List Value}
    (hcount : closure.params.length = args.length) (hparams : closure.params ≠ []) :
    (closure.params.zip args).reverse ≠ [] := by
  intro hnil
  have hkeys := Bindings.keys_zip hcount
  rw [List.reverse_eq_nil_iff.1 hnil] at hkeys
  exact hparams hkeys.symm

theorem Native.exists_primitive_of_call {native : Native} {args : List Value} {value : Value}
    (h : native.call args = .ok value) : ∃ primitive : Primitive, value = primitive.toValue := by
  rcases args_cases args with ⟨prims, rfl⟩ | ⟨prims, arg, rest, rfl, harg⟩
  · rw [call_map_toValue] at h
    cases hresult : native.apply prims with
    | error fault =>
      rw [hresult] at h
      cases h
    | ok primitive =>
      rw [hresult] at h
      cases h
      exact ⟨primitive, rfl⟩
  · rw [call_of_callable native prims rest harg] at h
    cases h

/-! ### Regions -/

/-- The frames that evaluation can come to, and those of them that it can write to. -/
structure Region where
  known : FrameId → Prop
  writable : FrameId → Prop
  known_of_writable : ∀ id, writable id → known id

namespace Setting

/-- A closure leads to no frame outside a region.  With dynamic scoping, the frame in which it was
made is not used. -/
def Admits (setting : Setting) (region : Region) : Value → Prop
  | .closure closure => setting.scoping = .lexical →
    region.known closure.frame ∧ (closure.params = [] → region.writable closure.frame)
  | _ => True

/-- A region holds every frame that its values lead to, and every frame that is still to be made. -/
structure Covers (setting : Setting) (region : Region) (store : Store) : Prop where
  fresh : ∀ id : FrameId, store.frames.size ≤ id.index → region.writable id
  values : ∀ id name value, region.known id → store.lookup id name = some value →
    setting.Admits region value

variable {setting : Setting} {region : Region} {store : Store} {frame : FrameId}

theorem admits_toValue (primitive : Primitive) : setting.Admits region primitive.toValue := by
  cases primitive <;> trivial

theorem admits_lambda (params : List Name) (body : NodeId) (serial : Nat)
    (hframe : region.writable frame) :
    setting.Admits region (.closure ⟨params, body, frame, serial⟩) :=
  fun _ => ⟨region.known_of_writable frame hframe, fun _ => hframe⟩

theorem Covers.newClosure (h : setting.Covers region store) (params : List Name) (body : NodeId)
    (frame : FrameId) : setting.Covers region (store.newClosure params body frame).2 :=
  ⟨h.fresh, h.values⟩

theorem Covers.reassign {name : Name} {value : Value} (h : setting.Covers region store)
    (hvalue : setting.Admits region value) (hbound : store.contains frame name = true) :
    setting.Covers region (store.reassign frame name value) := by
  refine ⟨fun id hid => h.fresh id (size_update store frame _ ▸ hid), ?_⟩
  intro id key found hid hfound
  rw [Store.lookup_reassign value id key hbound] at hfound
  split at hfound
  · cases hfound
    exact hvalue
  · exact h.values id key found hid hfound

/-- A new frame belongs to a region if the frame that is copied does. -/
theorem Covers.extend {base : FrameId} {added : Bindings} (h : setting.Covers region store)
    (hbase : region.known base) (hadded : added ≠ []) (hnodup : added.keys.Nodup)
    (hvalues : ∀ entry ∈ added, setting.Admits region entry.2) :
    setting.Covers region (store.extend base added).2 ∧
      region.writable (store.extend base added).1 := by
  obtain ⟨hframe, hsize, -⟩ := extend_of_ne_nil store base hadded
  refine ⟨⟨fun id hid => h.fresh id (by omega), ?_⟩, ?_⟩
  · intro id key found hid hfound
    rw [lookup_extend base id hadded hnodup] at hfound
    split at hfound
    · rcases Option.or_eq_some_iff.1 hfound with hnew | ⟨-, hold⟩
      · exact hvalues (key, found) (Bindings.mem_of_find? hnew)
      · exact h.values base key found hbase hold
    · exact h.values id key found hid hfound
  · rw [hframe]
    exact h.fresh _ (Nat.le_refl _)

/-! ### Calls of closures -/

variable {closure : Closure} {args : List Value} {caller : FrameId} {label : Option Name}

/-- A call of a closure is refused before a frame is made for it, is refused after that, or has its
body evaluated in that frame. -/
theorem enterClosure_cases (setting : Setting) (closure : Closure) (args : List Value)
    (caller : FrameId) (label : Option Name) (memory : Memory) :
    (∃ halt, setting.enterClosure closure args caller label memory =
        (.done (.error halt), memory)) ∨
      closure.params.length = args.length ∧ closure.params.Nodup ∧
        ((∃ halt, setting.enterClosure closure args caller label memory = (.done (.error halt),
            ⟨(setting.callFrame closure args caller memory.store).2, memory.calls⟩)) ∨
          setting.enterClosure closure args caller label memory =
            (.body closure.body (setting.callFrame closure args caller memory.store).1,
              ⟨(setting.callFrame closure args caller memory.store).2,
                memory.calls.enter label⟩)) := by
  by_cases hcount : closure.params.length = args.length
  · rcases nodup_or_exists_duplicate closure.params List.nodup_nil with
      hnodup | ⟨before, param, rest, hsplit, hbefore, hmem⟩
    · refine .inr ⟨hcount, hnodup, ?_⟩
      cases hover : memory.calls.overflow? with
      | some fault => exact .inl ⟨_, enterClosure_of_overflow hcount hnodup hover⟩
      | none => exact .inr (enterClosure_of_room hcount hnodup hover)
    · have hpairs : closure.bindParams setting.names args =
          .error (setting.names.faultFor param .duplicateParameter) := by
        rw [List.nil_append] at hsplit
        unfold Closure.bindParams
        rw [hsplit] at hcount ⊢
        exact Closure.pairUp_of_duplicate hcount hbefore (fun _ _ => rfl) (.inl hmem)
      simp only [enterClosure, checkCount_of_eq hcount, hpairs]
      exact .inl ⟨_, rfl⟩
  · unfold enterClosure Closure.checkCount
    rw [if_neg hcount]
    cases Closure.calleeText? setting.names label with
    | some text => exact .inl ⟨_, rfl⟩
    | none => exact .inl ⟨_, rfl⟩

/-- Leaving a call changes no frame, and gives no value that the body did not give. -/
theorem leave_spec (setting : Setting) (outcome : Outcome) (memory : Memory) :
    (setting.leave outcome memory).2.store = memory.store ∧
      ∀ value, (setting.leave outcome memory).1 = .ok value → outcome = .ok value := by
  unfold leave
  by_cases hempty : memory.calls.isEmpty = true
  · rw [if_pos hempty]
    exact ⟨rfl, fun value hvalue => nomatch hvalue⟩
  · rw [if_neg hempty]
    refine ⟨rfl, fun value hvalue => ?_⟩
    cases outcome with
    | ok found => exact hvalue
    | error halt => cases hvalue

theorem evalCall_closure_cases {eval : Evaluator} {memory : Memory} {result : Outcome × Memory}
    (h : setting.evalCall eval (.closure closure) args caller label memory = some result) :
    (∃ halt, result = (.error halt, memory)) ∨
      closure.params.length = args.length ∧ closure.params.Nodup ∧
        ((∃ halt, result = (.error halt,
            ⟨(setting.callFrame closure args caller memory.store).2, memory.calls⟩)) ∨
          ∃ outcome after,
            eval closure.body (setting.callFrame closure args caller memory.store).1
                ⟨(setting.callFrame closure args caller memory.store).2,
                  memory.calls.enter label⟩ = some (outcome, after) ∧
              result.2.store = after.store ∧
              ∀ value, result.1 = .ok value → outcome = .ok value) := by
  simp only [evalCall, enter] at h
  rcases setting.enterClosure_cases closure args caller label memory with
    ⟨halt, henter⟩ | ⟨hcount, hnodup, ⟨halt, henter⟩ | henter⟩
  · rw [henter] at h
    exact .inl ⟨halt, (Option.some.inj h).symm⟩
  · rw [henter] at h
    exact .inr ⟨hcount, hnodup, .inl ⟨halt, (Option.some.inj h).symm⟩⟩
  · rw [henter] at h
    obtain ⟨⟨outcome, after⟩, hbody, hleave⟩ := Option.map_eq_some_iff.1 h
    have hspec := setting.leave_spec outcome after
    rw [hleave] at hspec
    exact .inr ⟨hcount, hnodup, .inr ⟨outcome, after, hbody, hspec⟩⟩

theorem known_baseFrame (hclosure : setting.Admits region (.closure closure))
    (hcaller : region.writable caller) : region.known (setting.baseFrame closure caller) := by
  unfold baseFrame
  cases hscoping : setting.scoping with
  | lexical => exact (hclosure hscoping).1
  | dynamic => exact region.known_of_writable caller hcaller

theorem writable_baseFrame (hclosure : setting.Admits region (.closure closure))
    (hcaller : region.writable caller) (hparams : closure.params = []) :
    region.writable (setting.baseFrame closure caller) := by
  unfold baseFrame
  cases hscoping : setting.scoping with
  | lexical => exact (hclosure hscoping).2 hparams
  | dynamic => exact hcaller

theorem Covers.callFrame (h : setting.Covers region store)
    (hclosure : setting.Admits region (.closure closure)) (hcaller : region.writable caller)
    (hargs : ∀ arg ∈ args, setting.Admits region arg)
    (hcount : closure.params.length = args.length) (hnodup : closure.params.Nodup) :
    setting.Covers region (setting.callFrame closure args caller store).2 ∧
      region.writable (setting.callFrame closure args caller store).1 := by
  unfold Setting.callFrame
  by_cases hparams : closure.params = []
  · -- A call without parameters has no frame of its own.
    rw [hparams, List.zip_nil_left, List.reverse_nil, Store.extend_nil]
    exact ⟨h, writable_baseFrame hclosure hcaller hparams⟩
  · have hkeys : (Bindings.keys (closure.params.zip args)).Nodup := by
      rw [Bindings.keys_zip hcount]
      exact hnodup
    refine h.extend (known_baseFrame hclosure hcaller) (Closure.zip_reverse_ne_nil hcount hparams)
      (Bindings.nodup_keys_reverse hkeys) ?_
    rintro ⟨param, arg⟩ hentry
    exact hargs arg (List.of_mem_zip (List.mem_reverse.1 hentry)).2

/-! ### Evaluation inside a region -/

/-- From a store on, a result has changed nothing outside a region and leads to nothing outside
it. -/
structure Inside (setting : Setting) (region : Region) (before : Store)
    (result : Outcome × Memory) : Prop where
  confined : before.Confined setting.code.Assigns region.writable result.2.store
  covers : setting.Covers region result.2.store
  value : ∀ value, result.1 = .ok value → setting.Admits region value

variable {before : Store} {memory : Memory} {result : Outcome × Memory}

theorem Inside.of_value {value : Value} (hcovers : setting.Covers region memory.store)
    (hvalue : setting.Admits region value) :
    setting.Inside region memory.store (.ok value, memory) :=
  ⟨.refl _, hcovers, fun _ hfound => Except.ok.inj hfound ▸ hvalue⟩

theorem Inside.of_halt (halt : Halt) (hcovers : setting.Covers region memory.store) :
    setting.Inside region memory.store (.error halt, memory) :=
  ⟨.refl _, hcovers, fun _ hfound => nomatch hfound⟩

theorem Inside.of_confined (h : setting.Inside region memory.store result)
    (hconfined : before.Confined setting.code.Assigns region.writable memory.store) :
    setting.Inside region before result :=
  ⟨hconfined.trans h.confined, h.covers, h.value⟩

/-- An evaluator that stays inside a region when the current frame can be written to. -/
def Stays (setting : Setting) (region : Region) (eval : Evaluator) : Prop :=
  ∀ id frame memory result, region.writable frame → setting.Covers region memory.store →
    eval id frame memory = some result → setting.Inside region memory.store result

variable {eval : Evaluator}

theorem Stays.andThen (hstays : setting.Stays region eval) {id : NodeId}
    {next : Value → Memory → Attempt} (hframe : region.writable frame)
    (hcovers : setting.Covers region memory.store)
    (hnext : ∀ value mid, setting.Admits region value → setting.Covers region mid.store →
      next value mid = some result → setting.Inside region mid.store result)
    (h : (eval id frame memory).andThen next = some result) :
    setting.Inside region memory.store result := by
  rcases Attempt.andThen_eq_some.1 h with ⟨value, mid, heval, hrest⟩ | ⟨halt, mid, heval, rfl⟩
  · have hfirst := hstays id frame memory _ hframe hcovers heval
    exact (hnext value mid (hfirst.value value rfl) hfirst.covers hrest).of_confined hfirst.confined
  · exact hstays id frame memory _ hframe hcovers heval

theorem Stays.block (hstays : setting.Stays region eval) {items : List NodeId}
    (hframe : region.writable frame) (hcovers : setting.Covers region memory.store)
    (h : eval.block frame items memory = some result) :
    setting.Inside region memory.store result := by
  induction items generalizing memory with
  | nil =>
    cases h
    exact .of_value hcovers trivial
  | cons item rest ih =>
    cases rest with
    | nil => exact hstays item frame memory result hframe hcovers h
    | cons next rest =>
      exact hstays.andThen hframe hcovers (fun _ _ _ hmid hrest => ih hmid hrest) h

theorem Stays.cond (hstays : setting.Stays region eval) {clauses : List Clause}
    (hframe : region.writable frame) (hcovers : setting.Covers region memory.store)
    (h : eval.cond frame clauses memory = some result) :
    setting.Inside region memory.store result := by
  induction clauses generalizing memory with
  | nil =>
    cases h
    exact .of_value hcovers trivial
  | cons clause rest ih =>
    refine hstays.andThen hframe hcovers (fun value mid _ hmid hrest => ?_) h
    cases htest : value.test with
    | error fault =>
      simp only [htest] at hrest
      cases hrest
      exact .of_halt _ hmid
    | ok test =>
      simp only [htest] at hrest
      cases test with
      | true => exact hstays clause.consequence frame mid result hframe hmid hrest
      | false => exact ih hmid hrest

theorem Stays.callClosure (hstays : setting.Stays region eval)
    (hclosure : setting.Admits region (.closure closure)) (hcaller : region.writable caller)
    (hargs : ∀ arg ∈ args, setting.Admits region arg) (hcovers : setting.Covers region memory.store)
    (h : setting.evalCall eval (.closure closure) args caller label memory = some result) :
    setting.Inside region memory.store result := by
  have hextend : memory.store.Confined setting.code.Assigns region.writable
      (setting.callFrame closure args caller memory.store).2 := Store.confined_extend _ _ _
  rcases evalCall_closure_cases h with ⟨halt, rfl⟩ | ⟨hcount, hnodup, hrest⟩
  · exact .of_halt halt hcovers
  obtain ⟨hcovers', hwritable⟩ := hcovers.callFrame hclosure hcaller hargs hcount hnodup
  rcases hrest with ⟨halt, rfl⟩ | ⟨outcome, after, hbody, hstore, hvalue⟩
  · exact (Inside.of_halt halt hcovers').of_confined hextend
  · have hinside := (hstays _ _ _ _ hwritable hcovers' hbody).of_confined hextend
    constructor
    · rw [hstore]
      exact hinside.confined
    · rw [hstore]
      exact hinside.covers
    · intro value hfound
      exact hinside.value value (hvalue value hfound)

theorem Stays.call (hstays : setting.Stays region eval) {callee : Value}
    (hcallee : setting.Admits region callee) (hcaller : region.writable caller)
    (hargs : ∀ arg ∈ args, setting.Admits region arg) (hcovers : setting.Covers region memory.store)
    (h : setting.evalCall eval callee args caller label memory = some result) :
    setting.Inside region memory.store result := by
  cases callee with
  | closure closure => exact hstays.callClosure hcallee hcaller hargs hcovers h
  | int | str | bool =>
    cases h
    exact .of_halt _ hcovers
  | native native =>
    simp only [evalCall, enter, Outcome.ofFault] at h
    cases hcall : native.call args with
    | error fault =>
      rw [hcall] at h
      cases h
      exact .of_halt _ hcovers
    | ok value =>
      rw [hcall] at h
      cases h
      obtain ⟨primitive, rfl⟩ := Native.exists_primitive_of_call hcall
      exact .of_value hcovers (admits_toValue primitive)

theorem Stays.operands (hstays : setting.Stays region eval) {callee : Value} {done : List Value}
    {operands : List NodeId} (hcallee : setting.Admits region callee)
    (hframe : region.writable frame) (hdone : ∀ arg ∈ done, setting.Admits region arg)
    (hcovers : setting.Covers region memory.store)
    (h : setting.evalOperands eval callee label frame done operands memory = some result) :
    setting.Inside region memory.store result := by
  induction operands generalizing memory done with
  | nil =>
    have hargs : ∀ arg ∈ done.reverse, setting.Admits region arg :=
      fun arg harg => hdone arg (List.mem_reverse.1 harg)
    exact hstays.call hcallee hframe hargs hcovers h
  | cons operand rest ih =>
    refine hstays.andThen hframe hcovers (fun value mid hvalue hmid hrest => ?_) h
    have hdone' : ∀ arg ∈ value :: done, setting.Admits region arg := by
      intro arg harg
      rcases List.mem_cons.1 harg with rfl | hold
      · exact hvalue
      · exact hdone arg hold
    exact ih hdone' hmid hrest

theorem Stays.apply (hstays : setting.Stays region eval) {operator : NodeId}
    {operands : Span NodeId} {callee : Value} (hcallee : setting.Admits region callee)
    (hframe : region.writable frame) (hcovers : setting.Covers region memory.store)
    (h : setting.evalApply eval operator operands frame callee memory = some result) :
    setting.Inside region memory.store result := by
  unfold evalApply at h
  by_cases hcallable : callee.isCallable = true
  · rw [if_pos hcallable] at h
    cases hread : operands.read? setting.code.lists with
    | none =>
      simp only [hread] at h
      cases h
      exact .of_halt _ hcovers
    | some ids =>
      simp only [hread] at h
      have hnone : ∀ arg ∈ ([] : List Value), setting.Admits region arg :=
        fun _ harg => nomatch harg
      exact hstays.operands hcallee hframe hnone hcovers h
  · rw [if_neg hcallable] at h
    cases h
    exact .of_halt _ hcovers

theorem inside_evalLambda (params : Span Name) (body : NodeId) (hframe : region.writable frame)
    (hcovers : setting.Covers region memory.store) :
    setting.Inside region memory.store (setting.evalLambda params body frame memory) := by
  unfold evalLambda
  split
  · rename_i found hread
    refine ⟨.of_bindings_eq (Nat.le_refl _) fun _ _ => rfl, hcovers.newClosure found body frame, ?_⟩
    intro value hvalue
    cases hvalue
    exact admits_lambda found body _ hframe
  · exact .of_halt _ hcovers

theorem inside_assignName {name : Name} {value : Value} (htarget : setting.code.Assigns name)
    (hvalue : setting.Admits region value) (hframe : region.writable frame)
    (hcovers : setting.Covers region memory.store) :
    setting.Inside region memory.store (setting.assignName name value frame memory) := by
  unfold assignName
  split
  · rename_i hbound
    refine ⟨Store.confined_reassign value hbound hframe htarget, hcovers.reassign hvalue hbound, ?_⟩
    intro found hfound
    cases hfound
    exact hvalue
  · exact .of_halt _ hcovers

theorem inside_evalInt (literal : Int) (hcovers : setting.Covers region memory.store) :
    setting.Inside region memory.store (evalInt literal, memory) := by
  unfold evalInt
  cases literalWord literal with
  | error fault => exact .of_halt _ hcovers
  | ok word => exact .of_value hcovers trivial

theorem Stays.node (hstays : setting.Stays region eval) :
    setting.Stays region (setting.evalNode eval) := by
  intro id frame memory result hframe hcovers h
  simp only [evalNode] at h
  cases hnode : setting.code.node? id with
  | none =>
    simp only [hnode] at h
    cases h
    exact .of_halt _ hcovers
  | some node =>
    simp only [hnode] at h
    cases node with
    | int literal =>
      cases h
      exact inside_evalInt literal hcovers
    | str text =>
      cases h
      unfold evalStr
      split
      · exact .of_value hcovers trivial
      · exact .of_halt _ hcovers
    | ident name =>
      cases h
      unfold evalIdent
      split
      · rename_i value hlookup
        have hknown := region.known_of_writable frame hframe
        exact .of_value hcovers (hcovers.values frame name value hknown hlookup)
      · exact .of_halt _ hcovers
    | apply operator operands =>
      exact hstays.andThen hframe hcovers
        (fun _ _ hcallee hmid hrest => hstays.apply hcallee hframe hmid hrest) h
    | lambda params body =>
      cases h
      exact inside_evalLambda params body hframe hcovers
    | block items =>
      cases hread : items.read? setting.code.lists with
      | none =>
        simp only [hread] at h
        cases h
        exact .of_halt _ hcovers
      | some ids =>
        simp only [hread] at h
        exact hstays.block hframe hcovers h
    | cond clauses =>
      cases hread : clauses.read? setting.code.clauses with
      | none =>
        simp only [hread] at h
        cases h
        exact .of_halt _ hcovers
      | some clauses =>
        simp only [hread] at h
        exact hstays.cond hframe hcovers h
    | letIn name init body =>
      refine hstays.andThen hframe hcovers (fun value mid hvalue hmid hrest => ?_) h
      have hentries : ∀ entry ∈ [(name, value)], setting.Admits region entry.2 := by
        intro entry hentry
        rw [List.mem_singleton.1 hentry]
        exact hvalue
      obtain ⟨hcovers', hwritable⟩ := hmid.extend (region.known_of_writable frame hframe)
        (List.cons_ne_nil (name, value) []) (by simp [Bindings.keys]) hentries
      exact (hstays body _ _ result hwritable hcovers' hrest).of_confined
        (Store.confined_extend mid.store frame [(name, value)])
    | assign name value =>
      refine hstays.andThen hframe hcovers (fun found mid hvalue hmid hrest => ?_) h
      cases hrest
      exact inside_assignName ⟨id, value, hnode⟩ hvalue hframe hmid
    | unknown tag =>
      cases h
      exact .of_halt _ hcovers

theorem stays_eval (setting : Setting) (region : Region) (depth : Nat) :
    setting.Stays region (setting.eval depth) := by
  induction depth with
  | zero =>
    intro id frame memory result _ _ h
    cases h
  | succ depth ih => exact ih.node

end Setting

end FlatScope
