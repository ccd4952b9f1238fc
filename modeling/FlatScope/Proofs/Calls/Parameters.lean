import FlatScope.Proofs.Frames.Owners

/-!
# Parameters and arguments

A call pairs the parameters of a closure with as many arguments.  If the parameters are all different,
each of them is bound to the argument at its position, and the frame of the call shows these bindings
over those of the frame that it extends.  Otherwise the call is refused, for the first parameter that
occurs before, and nothing has changed.
-/

namespace FlatScope

/-- The element at a position occurs before it, and this holds of no earlier position. -/
structure FirstRepeat {α : Type} (items : List α) (i : Nat) (item : α) : Prop where
  found : items[i]? = some item
  repeated : item ∈ items.take i
  nodup : (items.take i).Nodup

/-- What is found above has each argument under the parameter at its position, and under every other
name what is found below. -/
structure LaidOver (params : List Name) (args : List Value) (below above : Name → Option Value) :
    Prop where
  paired : ∀ (i : Nat) param arg, params[i]? = some param → args[i]? = some arg →
    above param = some arg
  others : ∀ name, name ∉ params → above name = below name

/-! ### Repetitions -/

section Repetitions

variable {α : Type} {items : List α} {i : Nat} {item : α}

theorem FirstRepeat.split (h : FirstRepeat items i item) :
    items = items.take i ++ item :: items.drop (i + 1) := by
  obtain ⟨hi, hitem⟩ := List.getElem?_eq_some_iff.1 h.found
  rw [← hitem, List.getElem_cons_drop, List.take_append_drop]

theorem exists_firstRepeat [DecidableEq α] (h : ¬ items.Nodup) :
    ∃ i item, FirstRepeat items i item := by
  rcases nodup_or_exists_duplicate items List.nodup_nil with
    hnodup | ⟨before, item, after, hsplit, hbefore, hmem⟩
  · exact absurd hnodup h
  · rw [List.nil_append] at hsplit
    refine ⟨before.length, item, ?_, ?_, ?_⟩
    · rw [hsplit, List.getElem?_append_right (Nat.le_refl _), Nat.sub_self]
      rfl
    · rw [hsplit, List.take_left]
      exact hmem
    · rw [hsplit, List.take_left]
      exact hbefore

theorem FirstRepeat.not_nodup (h : FirstRepeat items i item) : ¬ items.Nodup := by
  intro hnodup
  rw [h.split] at hnodup
  exact (List.nodup_append.1 hnodup).2.2 item h.repeated item (List.mem_cons_self ..) rfl

end Repetitions

/-! ### Pairing -/

variable {params : List Name} {args : List Value}

/-- Pairs of different parameters with their arguments, in either order, bind nothing else. -/
theorem laidOver_zip (hcount : params.length = args.length) (hnodup : params.Nodup) :
    LaidOver params args (fun _ => none) (Bindings.find? (params.zip args).reverse) := by
  have hkeys : (Bindings.keys (params.zip args)).Nodup := by
    rw [Bindings.keys_zip hcount]
    exact hnodup
  constructor
  · intro i param arg hparam harg
    have hpair : (params.zip args)[i]? = some (param, arg) :=
      List.getElem?_zip_eq_some.2 ⟨hparam, harg⟩
    rw [Bindings.find?_reverse hkeys]
    exact Bindings.find?_of_mem hkeys (List.mem_of_getElem? hpair)
  · intro name hname
    rw [Bindings.find?_reverse hkeys]
    refine Bindings.find?_eq_none_of_not_mem ?_
    rw [Bindings.keys_zip hcount]
    exact hname

theorem Bindings.keys_zip_reverse_perm (hcount : params.length = args.length) :
    (keys (params.zip args).reverse).Perm params := by
  have hkeys : keys (params.zip args).reverse = params.reverse := by
    rw [keys, List.map_reverse]
    exact congrArg List.reverse (keys_zip hcount)
  rw [hkeys]
  exact List.reverse_perm params

/-- A frame shows its new bindings over those of the frame that it extends, which is the same frame
when there are none. -/
theorem Store.lookup_extend_fst (store : Store) (base : FrameId) {added : Bindings}
    (hnodup : added.keys.Nodup) (name : Name) :
    (store.extend base added).2.lookup (store.extend base added).1 name =
      (added.find? name).or (store.lookup base name) := by
  by_cases hadded : added = []
  · rw [hadded]
    rfl
  · rw [Setting.lookup_extend base _ hadded hnodup, (Setting.extend_of_ne_nil store base hadded).1,
      if_pos rfl]

theorem LaidOver.extend {added : Bindings} (h : LaidOver params args (fun _ => none) added.find?)
    (hnodup : added.keys.Nodup) (store : Store) (base : FrameId) :
    LaidOver params args (store.lookup base)
      ((store.extend base added).2.lookup (store.extend base added).1) := by
  constructor
  · intro i param arg hparam harg
    rw [Store.lookup_extend_fst store base hnodup, h.paired i param arg hparam harg, Option.some_or]
  · intro name hname
    rw [Store.lookup_extend_fst store base hnodup, h.others name hname, Option.none_or]

namespace Setting

variable {setting : Setting} {closure : Closure}

theorem bindParams_of_firstRepeat {i : Nat} {param : Name}
    (hcount : closure.params.length = args.length) (h : FirstRepeat closure.params i param) :
    closure.bindParams setting.names args =
      .error (setting.names.faultFor param .duplicateParameter) := by
  unfold Closure.bindParams
  rw [h.split] at hcount ⊢
  exact Closure.pairUp_of_duplicate hcount h.nodup (fun _ _ => rfl) (.inl h.repeated)

theorem bindParams_eq_ok_iff {added : Bindings} (hcount : closure.params.length = args.length) :
    closure.bindParams setting.names args = .ok added ↔
      closure.params.Nodup ∧ added = (closure.params.zip args).reverse := by
  by_cases hnodup : closure.params.Nodup
  · rw [bindParams_of_nodup hcount hnodup, Except.ok.injEq, eq_comm]
    exact ⟨fun h => ⟨hnodup, h⟩, fun h => h.2⟩
  · obtain ⟨i, param, hrepeat⟩ := exists_firstRepeat hnodup
    rw [bindParams_of_firstRepeat hcount hrepeat]
    constructor
    · intro h
      cases h
    · intro h
      exact absurd h.1 hnodup

/-- A call of a closure with as many arguments as it has parameters binds the parameters one to one
to the arguments, exactly when they are all different.  The frame of the call then shows the
arguments under the parameters and all else as the frame that it extends.  Otherwise a parameter is
the first that occurs before; the call is refused with a fault that names it, and the memory is left
as it was. -/
theorem parameters_pair_up_or_repeat (setting : Setting) (closure : Closure) (args : List Value)
    (hcount : closure.params.length = args.length) :
    ((∃ added, closure.bindParams setting.names args = .ok added) ↔ closure.params.Nodup) ∧
    (∀ added, closure.bindParams setting.names args = .ok added →
      added.keys.Perm closure.params ∧
      LaidOver closure.params args (fun _ => none) added.find? ∧
      (∀ store base, LaidOver closure.params args (Store.lookup store base)
        ((store.extend base added).2.lookup (store.extend base added).1)) ∧
      ∀ caller label memory, memory.calls.overflow? = none →
        setting.enter (.closure closure) args caller label memory =
          (.body closure.body (memory.store.extend (setting.baseFrame closure caller) added).1,
            ⟨(memory.store.extend (setting.baseFrame closure caller) added).2,
              memory.calls.enter label⟩)) ∧
    (¬ closure.params.Nodup ↔ ∃ i param, FirstRepeat closure.params i param) ∧
    ∀ i param text, FirstRepeat closure.params i param → setting.names.text? param = some text →
      closure.bindParams setting.names args = .error (.fault (.duplicateParameter text)) ∧
      ∀ caller label memory, setting.enter (.closure closure) args caller label memory =
        (.done (.error (.fault (.duplicateParameter text))), memory) := by
  refine ⟨?_, ?_, ⟨exists_firstRepeat, ?_⟩, ?_⟩
  · simp only [bindParams_eq_ok_iff hcount]
    exact ⟨fun ⟨_, hnodup, _⟩ => hnodup, fun hnodup => ⟨_, hnodup, rfl⟩⟩
  · intro added hadded
    obtain ⟨hnodup, rfl⟩ := (bindParams_eq_ok_iff hcount).1 hadded
    have hperm := Bindings.keys_zip_reverse_perm hcount
    have hpairs := laidOver_zip hcount hnodup
    have hkeys := hperm.nodup_iff.2 hnodup
    refine ⟨hperm, hpairs, hpairs.extend hkeys, fun caller label memory hroom => ?_⟩
    exact enterClosure_of_room hcount hnodup hroom
  · rintro ⟨i, param, hrepeat⟩
    exact hrepeat.not_nodup
  · intro i param text hrepeat htext
    have hbind : closure.bindParams setting.names args =
        .error (.fault (.duplicateParameter text)) := by
      rw [bindParams_of_firstRepeat hcount hrepeat, NameTable.faultFor, htext]
    refine ⟨hbind, fun caller label memory => ?_⟩
    simp only [enter, enterClosure, checkCount_of_eq hcount, hbind]

/-- Settings in which two texts have names. -/
def namingXY : Setting := ⟨.empty, (NameTable.new.internAll ["x", "y"]).2, .dynamic⟩

/-- A closure whose parameters differ. -/
def takingYX : Closure := ⟨[⟨2⟩, ⟨1⟩], ⟨0⟩, ⟨0⟩, 0⟩

/-- A closure that repeats both of its parameters, the second one first. -/
def takingXYYX : Closure := ⟨[⟨1⟩, ⟨2⟩, ⟨2⟩, ⟨1⟩], ⟨0⟩, ⟨0⟩, 1⟩

theorem parameters_pair_up_or_repeat_xy :
    (∃ added, takingYX.bindParams namingXY.names [.str "a", .bool true] = .ok added ∧
      ∀ store base,
        (Store.extend store base added).2.lookup (store.extend base added).1 ⟨1⟩ =
          some (.bool true) ∧
        (store.extend base added).2.lookup (store.extend base added).1 ⟨0⟩ =
          store.lookup base ⟨0⟩) ∧
      ∀ memory, namingXY.enter (.closure takingXYYX) [.str "a", .str "b", .str "c", .str "d"] ⟨0⟩ none
        memory = (.done (.error (.fault (.duplicateParameter "y"))), memory) := by
  constructor
  · obtain ⟨hiff, hbound, -⟩ :=
      parameters_pair_up_or_repeat namingXY takingYX [.str "a", .bool true] rfl
    obtain ⟨added, hadded⟩ := hiff.2 (by decide)
    obtain ⟨-, -, hframe, -⟩ := hbound added hadded
    refine ⟨added, hadded, fun store base => ⟨?_, ?_⟩⟩
    · exact (hframe store base).paired 1 ⟨1⟩ (.bool true) rfl rfl
    · exact (hframe store base).others ⟨0⟩ (by decide)
  · obtain ⟨-, -, -, hrepeat⟩ := parameters_pair_up_or_repeat namingXY takingXYYX
      [.str "a", .str "b", .str "c", .str "d"] rfl
    have hfirst : FirstRepeat takingXYYX.params 2 ⟨2⟩ := ⟨rfl, by decide, by decide⟩
    exact fun memory => (hrepeat 2 ⟨2⟩ "y" hfirst rfl).2 ⟨0⟩ none memory

end Setting

end FlatScope
