import FlatScope.Proofs.Tree.View

/-!
# Calls seen as calls of trees

What starting a call does, one case for each rule of `Tree.Call`: the arguments of natives, the
number of arguments, the first parameter that occurs twice, and the scope in which a body runs.
-/

namespace FlatScope

/-! ### Parameters and arguments -/

namespace Bindings

theorem find?_append (first second : Bindings) (name : Name) :
    find? (first ++ second) name = (find? first name).or (find? second name) := by
  induction first with
  | nil => rfl
  | cons entry rest ih =>
    obtain ⟨key, value⟩ := entry
    by_cases hkey : key = name <;> simp [find?, hkey, ih]

theorem find?_eq_none_of_not_mem {bindings : Bindings} {name : Name} (h : name ∉ keys bindings) :
    find? bindings name = none := by
  rw [mem_keys_iff, binds] at h
  simpa using h

theorem mem_of_find? {bindings : Bindings} {name : Name} {value : Value}
    (h : find? bindings name = some value) : (name, value) ∈ bindings := by
  induction bindings with
  | nil => cases h
  | cons entry rest ih =>
    obtain ⟨key, old⟩ := entry
    by_cases hkey : key = name
    · subst hkey
      simp only [find?, if_true, Option.some.injEq] at h
      exact h ▸ List.mem_cons_self ..
    · simp only [find?, hkey, if_false] at h
      exact List.mem_cons_of_mem _ (ih h)

/-- The order of bindings of different names plays no part. -/
theorem find?_reverse {bindings : Bindings} (h : (keys bindings).Nodup) (name : Name) :
    find? bindings.reverse name = find? bindings name := by
  induction bindings with
  | nil => rfl
  | cons entry rest ih =>
    obtain ⟨key, value⟩ := entry
    obtain ⟨hkey, hrest⟩ := List.nodup_cons.1 h
    rw [List.reverse_cons, find?_append, ih hrest]
    by_cases hname : key = name
    · subst hname
      simp [find?, find?_eq_none_of_not_mem hkey]
    · simp [find?, hname]

theorem set_of_not_binds {bindings : Bindings} {name : Name} (value : Value)
    (h : binds bindings name = false) : set bindings name value = (name, value) :: bindings := by
  simp [set, h]

theorem binds_cons (bindings : Bindings) (name other : Name) (value : Value) :
    binds ((name, value) :: bindings) other = (decide (name = other) || binds bindings other) := by
  by_cases h : name = other <;> simp [binds, find?, h]

theorem not_binds_cons {bindings : Bindings} {name : Name} {rest : List Name} (value : Value)
    (hname : name ∉ rest) (h : ∀ other ∈ name :: rest, binds bindings other = false) :
    ∀ other ∈ rest, binds ((name, value) :: bindings) other = false := by
  intro other hother
  have hne : name ≠ other := fun heq => hname (heq ▸ hother)
  simp [binds_cons, hne, h other (List.mem_cons_of_mem _ hother)]

theorem keys_zip {params : List Name} {args : List Value} (h : params.length = args.length) :
    keys (params.zip args) = params :=
  List.map_fst_zip (Nat.le_of_eq h)

theorem nodup_keys_reverse {bindings : Bindings} (h : (keys bindings).Nodup) :
    (keys bindings.reverse).Nodup := by
  rw [keys, List.map_reverse]
  exact (List.reverse_perm _).nodup_iff.2 h

end Bindings

namespace Closure

theorem pairUp_of_nodup {names : NameTable} {params : List Name} {args : List Value}
    {done : Bindings} (hcount : params.length = args.length) (hparams : params.Nodup)
    (hdone : ∀ param ∈ params, done.binds param = false) :
    pairUp names done params args = .ok ((params.zip args).reverse ++ done) := by
  induction params generalizing args done with
  | nil => simp [pairUp]
  | cons param rest ih =>
    cases args with
    | nil => cases hcount
    | cons arg others =>
      obtain ⟨hnot, hrest⟩ := List.nodup_cons.1 hparams
      have hfree : done.binds param = false := hdone param (List.mem_cons_self ..)
      -- The pairs made so far bind none of the parameters that are left.
      have hdone' := Bindings.not_binds_cons arg hnot hdone
      rw [pairUp, if_neg (by simp [hfree]), Bindings.set_of_not_binds arg hfree,
        ih (Nat.succ.inj hcount) hrest hdone']
      simp

/-- Pairing stops at the first parameter that occurs before. -/
theorem pairUp_of_duplicate {names : NameTable} {before after : List Name} {param : Name}
    {args : List Value} {done : Bindings}
    (hcount : (before ++ param :: after).length = args.length) (hbefore : before.Nodup)
    (hdone : ∀ other ∈ before, done.binds other = false)
    (hparam : param ∈ before ∨ done.binds param = true) :
    pairUp names done (before ++ param :: after) args =
      .error (names.faultFor param .duplicateParameter) := by
  induction before generalizing args done with
  | nil =>
    cases args with
    | nil => cases hcount
    | cons arg others =>
      have hbound : done.binds param = true := hparam.resolve_left (List.not_mem_nil)
      rw [List.nil_append, pairUp, if_pos hbound]
  | cons first rest ih =>
    cases args with
    | nil => cases hcount
    | cons arg others =>
      obtain ⟨hnot, hrest⟩ := List.nodup_cons.1 hbefore
      have hfree : done.binds first = false := hdone first (List.mem_cons_self ..)
      have hdone' := Bindings.not_binds_cons arg hnot hdone
      have hparam' : param ∈ rest ∨ Bindings.binds ((first, arg) :: done) param = true := by
        rcases hparam with hmem | hbound
        · rcases List.mem_cons.1 hmem with rfl | hmem
          · exact .inr (by simp [Bindings.binds_cons])
          · exact .inl hmem
        · exact .inr (by simp [Bindings.binds_cons, hbound])
      rw [List.cons_append, pairUp, if_neg (by simp [hfree]),
        Bindings.set_of_not_binds arg hfree, ih (Nat.succ.inj hcount) hrest hdone' hparam']

end Closure

/-- A list repeats nothing, or has a first element that occurs before. -/
theorem nodup_or_exists_duplicate {α : Type} [DecidableEq α] {start : List α} (items : List α)
    (hstart : start.Nodup) :
    (start ++ items).Nodup ∨ ∃ before item after, start ++ items = before ++ item :: after ∧
      before.Nodup ∧ item ∈ before := by
  induction items generalizing start with
  | nil => exact .inl (by simpa using hstart)
  | cons item rest ih =>
    -- `start` is the part without repetition: the next item occurs in it or makes it longer.
    by_cases hitem : item ∈ start
    · exact .inr ⟨start, item, rest, rfl, hstart, hitem⟩
    · have hnext : (start ++ [item]).Nodup := by
        refine List.nodup_append.2 ⟨hstart, by simp, ?_⟩
        rintro a ha b hb rfl
        exact hitem (List.mem_singleton.1 hb ▸ ha)
      have hsplit : start ++ item :: rest = start ++ [item] ++ rest := by simp
      rw [hsplit]
      exact ih hnext

/-! ### Natives -/

namespace Native

theorem unwrap_map_toValue (native : Native) (prims : List Primitive) :
    native.unwrap (prims.map Primitive.toValue) = .ok prims := by
  induction prims with
  | nil => rfl
  | cons first rest ih =>
    have hfirst : first.toValue.toPrimitive? = some first := by cases first <;> rfl
    simp only [List.map_cons, unwrap, hfirst, ih]
    rfl

theorem unwrap_of_callable (native : Native) (prims : List Primitive) {arg : Value}
    (rest : List Value) (h : arg.isCallable = true) :
    native.unwrap (prims.map Primitive.toValue ++ arg :: rest) =
      .error (.typeMismatch native.name "primitive" arg.typeName) := by
  induction prims with
  | nil =>
    have harg : arg.toPrimitive? = none := by
      rw [Value.isCallable_eq_isNone] at h
      exact Option.isNone_iff_eq_none.1 h
    simp only [List.map_nil, List.nil_append, unwrap, harg]
  | cons first others ih =>
    have hfirst : first.toValue.toPrimitive? = some first := by cases first <;> rfl
    simp only [List.map_cons, List.cons_append, unwrap, hfirst, ih]
    rfl

theorem call_map_toValue (native : Native) (prims : List Primitive) :
    native.call (prims.map Primitive.toValue) = (native.apply prims).map Primitive.toValue := by
  unfold call
  rw [unwrap_map_toValue]
  show (native.apply prims >>= fun result => pure result.toValue) = _
  cases native.apply prims <;> rfl

theorem call_of_callable (native : Native) (prims : List Primitive) {arg : Value}
    (rest : List Value) (h : arg.isCallable = true) :
    native.call (prims.map Primitive.toValue ++ arg :: rest) =
      .error (.typeMismatch native.name "primitive" arg.typeName) := by
  unfold call
  rw [unwrap_of_callable native prims rest h]
  rfl

theorem args_cases (args : List Value) :
    (∃ prims : List Primitive, args = prims.map Primitive.toValue) ∨
      ∃ (prims : List Primitive) (arg : Value) (rest : List Value),
        args = prims.map Primitive.toValue ++ arg :: rest ∧ arg.isCallable = true := by
  induction args with
  | nil => exact .inl ⟨[], rfl⟩
  | cons arg args ih =>
    cases hprim : arg.toPrimitive? with
    | none =>
      refine .inr ⟨[], arg, args, rfl, ?_⟩
      rw [Value.isCallable_eq_isNone, hprim]
      rfl
    | some first =>
      have hfirst : arg = first.toValue := by cases arg <;> cases hprim <;> rfl
      rcases ih with ⟨prims, rfl⟩ | ⟨prims, other, rest, rfl, hother⟩
      · exact .inl ⟨first :: prims, by rw [hfirst]; rfl⟩
      · exact .inr ⟨first :: prims, other, rest, by rw [hfirst]; rfl, hother⟩

end Native

namespace Setting

variable {setting : Setting} {known : FrameId → Prop} {store : Store}

/-! ### Texts of parameters -/

theorem text?_eq_some_textOf {name : Name} (h : (setting.names.text? name).isSome) :
    setting.names.text? name = some (setting.textOf name) := by
  obtain ⟨text, htext⟩ := Option.isSome_iff_exists.1 h
  rw [htext, textOf_of_text? htext]

theorem textOf_inj {name other : Name} (hname : (setting.names.text? name).isSome)
    (hother : (setting.names.text? other).isSome) (h : setting.textOf other = setting.textOf name) :
    other = name :=
  (name_eq_iff (text?_eq_some_textOf hname) (text?_eq_some_textOf hother)).2 h

variable {params : List Name} (hparams : ∀ param ∈ params, (setting.names.text? param).isSome)
include hparams

omit hparams in
theorem nodup_of_nodup_map_textOf (h : (params.map setting.textOf).Nodup) : params.Nodup :=
  List.Pairwise.of_map setting.textOf (fun _ _ hne heq => hne (by rw [heq])) h

theorem mem_of_textOf_mem {param : Name} (hparam : (setting.names.text? param).isSome)
    (h : setting.textOf param ∈ params.map setting.textOf) : param ∈ params := by
  obtain ⟨other, hother, heq⟩ := List.mem_map.1 h
  exact textOf_inj hparam (hparams other hother) heq ▸ hother

theorem find?_zip_eq_lookup (args : List Value) (key : String) :
    ((setting.names.find? key).bind (Bindings.find? (params.zip args))).map setting.value =
      ((params.map setting.textOf).zip (args.map setting.value)).lookup key := by
  induction params generalizing args with
  | nil => cases setting.names.find? key <;> rfl
  | cons param rest ih =>
    cases args with
    | nil => cases setting.names.find? key <;> rfl
    | cons arg others =>
      have hrest := ih (fun other hother => hparams other (List.mem_cons_of_mem _ hother)) others
      have htext := text?_eq_some_textOf (hparams param (List.mem_cons_self ..))
      simp only [List.map_cons, List.zip_cons_cons, List.lookup_cons, ← hrest]
      cases hfind : setting.names.find? key with
      | none =>
        have hne : key ≠ setting.textOf param := ne_of_find?_eq_none htext hfind
        rw [beq_eq_false_iff_ne.2 hne]
        rfl
      | some name =>
        have hiff := name_eq_iff htext (NameTable.find?_eq_some_iff.1 hfind)
        by_cases hname : name = param
        · rw [beq_iff_eq.2 (hiff.1 hname)]
          simp [Bindings.find?, hname]
        · have hne : param ≠ name := fun heq => hname heq.symm
          rw [beq_eq_false_iff_ne.2 (mt hiff.2 hname)]
          simp [Bindings.find?, hne]

omit hparams

/-! ### Starting a call of a closure -/

/-- A label is missing or has a text. -/
def Labelled (setting : Setting) (label : Option Name) : Prop :=
  ∀ name, label = some name → (setting.names.text? name).isSome

variable {closure : Closure} {args : List Value} {caller : FrameId} {label : Option Name}
  {memory : Memory}

theorem enterClosure_of_count_ne (hlabel : setting.Labelled label)
    (hcount : closure.params.length ≠ args.length) :
    setting.enterClosure closure args caller label memory =
      (.done (.error (.fault (.arityMismatch ((label.map setting.textOf).getD "")
        closure.params.length args.length false))), memory) := by
  have hcheck : closure.checkCount setting.names args label =
      .error (.fault (.arityMismatch ((label.map setting.textOf).getD "") closure.params.length
        args.length false)) := by
    unfold Closure.checkCount
    rw [if_neg hcount]
    cases label with
    | none => rfl
    | some name =>
      simp only [Closure.calleeText?, text?_eq_some_textOf (hlabel name rfl)]
      rfl
  simp only [enterClosure, hcheck]

theorem checkCount_of_eq (hcount : closure.params.length = args.length) :
    closure.checkCount setting.names args label = .ok () := by
  rw [Closure.checkCount, if_pos hcount]

theorem enterClosure_of_duplicate {before after : List String} {text : String}
    (hparams : ∀ param ∈ closure.params, (setting.names.text? param).isSome)
    (hcount : closure.params.length = args.length)
    (hsplit : closure.params.map setting.textOf = before ++ text :: after)
    (hbefore : before.Nodup) (hmem : text ∈ before) :
    setting.enterClosure closure args caller label memory =
      (.done (.error (.fault (.duplicateParameter text))), memory) := by
  obtain ⟨first, others, hfirst, rfl, hothers⟩ := List.map_eq_append_iff.1 hsplit
  obtain ⟨param, last, rfl, rfl, -⟩ := List.map_eq_cons_iff.1 hothers
  have hin : param ∈ closure.params := by simp [hfirst]
  have htext := text?_eq_some_textOf (hparams param hin)
  have hfirst' : ∀ other ∈ first, (setting.names.text? other).isSome :=
    fun other hother => hparams other (by simp [hfirst, hother])
  have hnodup : first.Nodup := nodup_of_nodup_map_textOf hbefore
  have hbind : closure.bindParams setting.names args =
      .error (.fault (.duplicateParameter (setting.textOf param))) := by
    unfold Closure.bindParams
    rw [hfirst] at hcount ⊢
    rw [Closure.pairUp_of_duplicate hcount hnodup (fun _ _ => rfl)
      (.inl (mem_of_textOf_mem hfirst' (hparams param hin) hmem)), NameTable.faultFor, htext]
  simp only [enterClosure, checkCount_of_eq hcount, hbind]

/-- The frame of a call, and the store after it was made. -/
def callFrame (setting : Setting) (closure : Closure) (args : List Value) (caller : FrameId)
    (store : Store) : FrameId × Store :=
  store.extend (setting.baseFrame closure caller) (closure.params.zip args).reverse

theorem baseFrame_eq (closure : Closure) (caller : FrameId) :
    setting.baseFrame closure caller = Tree.base setting.scoping closure.frame caller := by
  unfold baseFrame Tree.base
  cases setting.scoping <;> rfl

/-- The frame of a call stands for the scope of the call. -/
theorem heap_extend_zip {args : List Value} (base : FrameId)
    (hparams : ∀ param ∈ params, (setting.names.text? param).isSome)
    (hcount : params.length = args.length) (hnodup : params.Nodup) :
    (setting.heap store).enter base (params.map setting.textOf) (args.map setting.value) =
      ((store.extend base (params.zip args).reverse).1,
        setting.heap (store.extend base (params.zip args).reverse).2) := by
  cases params with
  | nil => rfl
  | cons param rest =>
    cases args with
    | nil => cases hcount
    | cons arg others =>
      have hadded : ((param :: rest).zip (arg :: others)).reverse ≠ [] := by simp
      have hkeys : (Bindings.keys ((param :: rest).zip (arg :: others))).Nodup := by
        rw [Bindings.keys_zip hcount]
        exact hnodup
      have hframe := (extend_of_ne_nil store base hadded).1
      -- The pairs are in reverse order in the frame, which is no matter for names that differ.
      rw [hframe, heap_extend base hadded (Bindings.nodup_keys_reverse hkeys) (fun key => ?_)]
      · rfl
      · have hfind : Bindings.find? ((param :: rest).zip (arg :: others)).reverse =
            Bindings.find? ((param :: rest).zip (arg :: others)) :=
          funext (Bindings.find?_reverse hkeys)
        rw [hfind]
        exact find?_zip_eq_lookup hparams (arg :: others) key

theorem Legal.extend_zip {args : List Value} {base : FrameId} (h : setting.Legal known store)
    (hbase : known base) (hargs : ∀ arg ∈ args, setting.Legible known arg)
    (hcount : params.length = args.length) (hnodup : params.Nodup) :
    setting.Legal known (store.extend base (params.zip args).reverse).2 ∧
      known (store.extend base (params.zip args).reverse).1 := by
  by_cases hnil : (params.zip args).reverse = []
  · rw [hnil]
    exact ⟨h, hbase⟩
  · have hkeys : (Bindings.keys (params.zip args)).Nodup := by
      rw [Bindings.keys_zip hcount]
      exact hnodup
    constructor
    · refine h.extend hbase hnil (Bindings.nodup_keys_reverse hkeys) ?_
      intro name value hfound
      refine hargs value ?_
      have hmem := Bindings.mem_of_find? hfound
      exact (List.of_mem_zip (List.mem_reverse.1 hmem)).2
    · rw [(extend_of_ne_nil store base hnil).1]
      exact h.fresh _ (Nat.le_refl _)

theorem enter_eq_callFrame (setting : Setting) (store : Store) (caller : FrameId)
    (hparams : ∀ param ∈ closure.params, (setting.names.text? param).isSome)
    (hcount : closure.params.length = args.length) (hnodup : closure.params.Nodup) :
    (setting.heap store).enter (Tree.base setting.scoping closure.frame caller)
        (closure.params.map setting.textOf) (args.map setting.value) =
      ((setting.callFrame closure args caller store).1,
        setting.heap (setting.callFrame closure args caller store).2) := by
  rw [← baseFrame_eq]
  exact heap_extend_zip _ hparams hcount hnodup

theorem Legal.callFrame (h : setting.Legal known store)
    (hclosure : setting.Legible known (.closure closure)) (hcaller : known caller)
    (hargs : ∀ arg ∈ args, setting.Legible known arg)
    (hcount : closure.params.length = args.length) (hnodup : closure.params.Nodup) :
    setting.Legal known (setting.callFrame closure args caller store).2 ∧
      known (setting.callFrame closure args caller store).1 := by
  have hbase : known (setting.baseFrame closure caller) := by
    unfold baseFrame
    cases setting.scoping with
    | lexical => exact hclosure.1
    | dynamic => exact hcaller
  exact h.extend_zip hbase hargs hcount hnodup

theorem bindParams_of_nodup (hcount : closure.params.length = args.length)
    (hnodup : closure.params.Nodup) :
    closure.bindParams setting.names args = .ok (closure.params.zip args).reverse := by
  rw [Closure.bindParams, Closure.pairUp_of_nodup hcount hnodup (fun _ _ => rfl), List.append_nil]

/-- The frame of a call is made before the depth is checked. -/
theorem enterClosure_of_overflow {fault : Fault} (hcount : closure.params.length = args.length)
    (hnodup : closure.params.Nodup) (hover : memory.calls.overflow? = some fault) :
    setting.enterClosure closure args caller label memory =
      (.done (.error (setting.attach memory.calls (.fault fault))),
        ⟨(setting.callFrame closure args caller memory.store).2, memory.calls⟩) := by
  simp only [enterClosure, checkCount_of_eq hcount, bindParams_of_nodup hcount hnodup, hover]
  rfl

theorem enterClosure_of_room (hcount : closure.params.length = args.length)
    (hnodup : closure.params.Nodup) (hroom : memory.calls.overflow? = none) :
    setting.enterClosure closure args caller label memory =
      (.body closure.body (setting.callFrame closure args caller memory.store).1,
        ⟨(setting.callFrame closure args caller memory.store).2, memory.calls.enter label⟩) := by
  simp only [enterClosure, checkCount_of_eq hcount, bindParams_of_nodup hcount hnodup, hroom]
  rfl

/-! ### Outcomes -/

/-- An outcome is the value or the fault that a result says, whatever its backtrace. -/
inductive Agrees (setting : Setting) (known : FrameId → Prop) : Outcome → Tree.Result → Prop where
  | value {value : Value} (h : setting.Legible known value) :
      Agrees setting known (.ok value) (.ok (setting.value value))
  | fault (raised : Raised) : Agrees setting known (.error (.raised raised)) (.error raised.fault)

theorem agrees_fault (fault : Fault) :
    setting.Agrees known (.error (.fault fault)) (.error fault) :=
  .fault ⟨fault, none⟩

theorem agrees_ofFault_map (result : Except Fault Primitive) :
    setting.Agrees known (.ofFault (result.map Primitive.toValue))
      (result.map Tree.Value.ofPrimitive) := by
  cases result with
  | error fault => exact agrees_fault fault
  | ok primitive =>
    show setting.Agrees known (.ok primitive.toValue) (.ok (.ofPrimitive primitive))
    rw [← value_toValue]
    refine .value ?_
    cases primitive <;> trivial

def AllLabelled (setting : Setting) (calls : CallStack) : Prop :=
  ∀ label ∈ calls.frames.toList, setting.Labelled label

theorem allLabelled_enter {calls : CallStack} (h : setting.AllLabelled calls)
    (hlabel : setting.Labelled label) : setting.AllLabelled (calls.enter label) := by
  intro other hother
  have hmem : other ∈ calls.frames.toList ∨ other = label := by
    simpa [CallStack.enter] using hother
  rcases hmem with hold | rfl
  · exact h other hold
  · exact hlabel

theorem labelTexts?_isSome {labels : List (Option Name)}
    (h : ∀ label ∈ labels, setting.Labelled label) :
    (CallStack.labelTexts? setting.names labels).isSome := by
  induction labels with
  | nil => rfl
  | cons label rest ih =>
    have hrest := ih fun other hother => h other (List.mem_cons_of_mem _ hother)
    obtain ⟨texts, htexts⟩ := Option.isSome_iff_exists.1 hrest
    have hlabel := h label (List.mem_cons_self ..)
    cases label with
    | none => simp [CallStack.labelTexts?, CallStack.labelText?, htexts]
    | some name =>
      obtain ⟨text, htext⟩ := Option.isSome_iff_exists.1 (hlabel name rfl)
      simp [CallStack.labelTexts?, CallStack.labelText?, htexts, htext]

/-- A backtrace changes no fault. -/
theorem agrees_attach {calls : CallStack} (hcalls : setting.AllLabelled calls) (raised : Raised) :
    setting.Agrees known (.error (setting.attach calls (.raised raised)))
      (.error raised.fault) := by
  have htexts : (CallStack.labelTexts? setting.names calls.frames.toList.reverse).isSome :=
    labelTexts?_isSome fun label hlabel => hcalls label (List.mem_reverse.1 hlabel)
  obtain ⟨texts, htexts⟩ := Option.isSome_iff_exists.1 htexts
  have hcapture : calls.capture? setting.names = some ⟨texts⟩ := by
    rw [CallStack.capture?, htexts]
    rfl
  unfold attach CallStack.attach?
  rw [hcapture]
  by_cases hkeep : (calls.isEmpty || raised.backtrace.isSome) = true
  · simp only [hkeep, if_true]
    exact .fault raised
  · simp only [hkeep]
    exact .fault { raised with backtrace := some ⟨texts⟩ }

theorem Agrees.leaveOutcome {outcome : Outcome} {result : Tree.Result} {calls : CallStack}
    (h : setting.Agrees known outcome result) (hcalls : setting.AllLabelled calls) :
    setting.Agrees known (setting.leaveOutcome calls outcome) result := by
  cases h with
  | value hvalue => exact .value hvalue
  | fault raised => exact agrees_attach hcalls raised

theorem leave_enter (setting : Setting) (outcome : Outcome) (store : Store) (calls : CallStack)
    (label : Option Name) :
    setting.leave outcome ⟨store, calls.enter label⟩ =
      (setting.leaveOutcome (calls.enter label) outcome, ⟨store, calls⟩) := by
  simp [leave]

end Setting

end FlatScope
