import FlatScope.Proofs.Frames.Confinement
import Mathlib.Data.Set.Card
import Mathlib.Logic.Relation

/-!
# Handles to frames

Frames are used through handles, of which a frame can have several.  What a handle shows under a name
is said by the operations that were made: the last write through any handle of the same frame counts,
then what the frame was made with, then what the frame it was copied from held at that moment.
-/

namespace FlatScope

/-! ### Operations -/

/-- Bindings in which no name occurs twice. -/
structure BindingMap where
  bindings : Bindings
  nodup : bindings.keys.Nodup

/-- An operation on handles, which are numbered in the order in which they are made. -/
inductive Operation where
  | new
  | fromBindings (given : BindingMap)
  | clone (handle : Nat)
  | define (handle : Nat) (name : Name) (value : Value)
  | assign (handle : Nat) (name : Name) (value : Value)
  | extend (handle : Nat) (added : BindingMap)

def Operation.through? : Operation → Option Nat
  | new | fromBindings _ => none
  | clone handle | define handle _ _ | assign handle _ _ | extend handle _ => some handle

def Operation.makesHandle : Operation → Bool
  | new | fromBindings _ | clone _ | extend _ _ => true
  | define _ _ _ | assign _ _ _ => false

/-- The handle to the frame of which an operation makes a further handle: that of a clone, or of an
extension by nothing. -/
def Operation.aliased? : Operation → Option Nat
  | clone handle => some handle
  | extend handle added => if added.bindings.isEmpty then some handle else none
  | _ => none

def Operation.makesFrame (op : Operation) : Bool := op.makesHandle && op.aliased?.isNone

/-- A store, and the frames that the handles stand for. -/
structure Handles where
  store : Store
  frames : List FrameId

namespace Handles

def empty : Handles := ⟨.empty, []⟩

def hold (world : Handles) (made : FrameId × Store) : Handles :=
  ⟨made.2, world.frames ++ [made.1]⟩

/-- What an operation leads to; nothing when its handle was not made. -/
def perform? (world : Handles) : Operation → Option Handles
  | .new => some (world.hold (world.store.newFrame []))
  | .fromBindings given => some (world.hold (world.store.newFrame given.bindings))
  | .clone handle => (world.frames[handle]?).map fun frame => world.hold (frame, world.store)
  | .define handle name value => (world.frames[handle]?).map fun frame =>
    { world with store := world.store.define frame name value }
  | .assign handle name value => (world.frames[handle]?).map fun frame =>
    { world with store := (world.store.assign frame name value).getD world.store }
  | .extend handle added => (world.frames[handle]?).map fun frame =>
    world.hold (world.store.extend frame added.bindings)

/-- What operations lead to, from no frames. -/
def after? (ops : List Operation) : Option Handles := ops.foldlM perform? empty

def seen? (world : Handles) (handle : Nat) (name : Name) : Option Value :=
  (world.frames[handle]?).bind fun frame => world.store.lookup frame name

/-- What a frame that an operation makes shows at first: the given bindings, and under other names
what the frame shows that it is made from. -/
def initial? (world : Handles) (op : Operation) (name : Name) : Option Value :=
  match op with
  | .fromBindings given => given.bindings.find? name
  | .extend handle added => (added.bindings.find? name).or (world.seen? handle name)
  | _ => none

end Handles

/-! ### What operations say -/

section Histories

open Handles

def handlesMade (ops : List Operation) : Nat := ops.countP Operation.makesHandle

/-- A handle was made as a further handle to the frame of another. -/
inductive Linked (ops : List Operation) : Nat → Nat → Prop where
  | intro {i handle : Nat} {op : Operation} (hop : ops[i]? = some op)
      (halias : op.aliased? = some handle) : Linked ops handle (handlesMade (ops.take i))

/-- Two handles are joined by clones and extensions by nothing. -/
def Connected (ops : List Operation) : Nat → Nat → Prop := Relation.EqvGen (Linked ops)

/-- The operation at a position writes a name through a handle of the frame of a given handle.  An
assignment writes if the frame binds the name. -/
inductive WrittenAt (ops : List Operation) (handle : Nat) (name : Name) (i : Nat) :
    Value → Prop where
  | define {other : Nat} {value : Value} (hop : ops[i]? = some (.define other name value))
      (hsame : Connected ops other handle) : WrittenAt ops handle name i value
  | assign {other : Nat} {value : Value} {before : Handles}
      (hop : ops[i]? = some (.assign other name value)) (hsame : Connected ops other handle)
      (hbefore : after? (ops.take i) = some before) (hbound : (before.seen? other name).isSome) :
      WrittenAt ops handle name i value

/-- What is seen is the last thing written, or what was there first if nothing was written. -/
def LastWritten (written : Nat → Value → Prop) (first seen : Option Value) : Prop :=
  (∀ i value, ¬ written i value) ∧ seen = first ∨
    ∃ i value, written i value ∧ (∀ j other, written j other → j ≤ i) ∧ seen = some value

/-- Handles act as maps of which some are one and the same. -/
structure AliasedMaps (ops : List Operation) (world : Handles) : Prop where
  /-- Every operation can be made through the handles that there are. -/
  performed : ∀ op : Operation, (∀ handle, op.through? = some handle → handle < handlesMade ops) →
    (world.perform? op).isSome
  /-- Handles stand for one frame if they are joined by clones and extensions by nothing. -/
  same_frame : ∀ (first second : Nat) frame, world.frames[first]? = some frame →
    (world.frames[second]? = some frame ↔ Connected ops first second)
  /-- A frame that is made is a new one, whatever it is made from. -/
  new_frame : ∀ i op, ops[i]? = some op → op.makesFrame = true →
    ∀ handle < handlesMade (ops.take i), ¬ Connected ops (handlesMade (ops.take i)) handle
  /-- A handle shows what was written last through the handles of its frame, else what the frame
  was made with. -/
  shown : ∀ handle < handlesMade ops, ∃ i op before, ops[i]? = some op ∧ op.makesFrame = true ∧
    Connected ops (handlesMade (ops.take i)) handle ∧ after? (ops.take i) = some before ∧
    ∀ name, LastWritten (WrittenAt ops handle name) (before.initial? op name)
      (world.seen? handle name)
  /-- An assignment succeeds if the name is bound, and otherwise changes nothing. -/
  assigned : ∀ (handle : Nat) frame name value, world.frames[handle]? = some frame →
    ((world.store.assign frame name value).isSome ↔ (world.seen? handle name).isSome) ∧
    (world.seen? handle name = none → world.perform? (.assign handle name value) = some world)
  /-- A definition, or an assignment to a bound name, is seen through the handles of the frame and
  changes nothing else. -/
  written : ∀ through name value next,
    world.perform? (.define through name value) = some next ∨
      (world.seen? through name).isSome ∧
        world.perform? (.assign through name value) = some next →
    ∀ handle key,
      (Connected ops through handle ∧ name = key → next.seen? handle key = some value) ∧
      (¬ (Connected ops through handle ∧ name = key) →
        next.seen? handle key = world.seen? handle key)
  /-- A frame has as many bindings as it binds names. -/
  counted : ∀ (handle : Nat) frame, world.frames[handle]? = some frame →
    world.store.len frame = {name | (world.store.lookup frame name).isSome}.ncard

end Histories

namespace Handles

/-! ### One operation -/

variable {world next : Handles} {op : Operation} {ops : List Operation}

/-- Every handle stands for a frame of the store, and no frame binds a name twice. -/
structure Sound (world : Handles) : Prop where
  held : ∀ frame ∈ world.frames, world.store.Holds frame
  nodup : ∀ frame, (world.store.bindings frame).keys.Nodup

/-- The frame, the name and the value of a write; nothing if an operation writes nothing. -/
def write? (world : Handles) : Operation → Option (FrameId × Name × Value)
  | .define handle name value => (world.frames[handle]?).map fun frame => (frame, name, value)
  | .assign handle name value => (world.frames[handle]?).bind fun frame =>
    if world.store.contains frame name then some (frame, name, value) else none
  | _ => none

/-- What an operation can do. -/
inductive Effect (world : Handles) (op : Operation) : Handles → Prop where
  /-- It writes to a frame. -/
  | written {frame : FrameId} {name : Name} {value : Value} {store : Store}
      (hwrite : world.write? op = some (frame, name, value)) (hframe : frame ∈ world.frames)
      (hmakes : op.makesHandle = false) (hsize : store.frames.size = world.store.frames.size)
      (hnodup : ∀ other, (store.bindings other).keys.Nodup)
      (hlookup : ∀ other key, store.lookup other key =
        if other = frame ∧ name = key then some value else world.store.lookup other key) :
      Effect world op ⟨store, world.frames⟩
  /-- It is an assignment that fails. -/
  | nothing (hwrite : world.write? op = none) (hmakes : op.makesHandle = false) :
      Effect world op world
  /-- It takes a further handle to a frame. -/
  | aliased {handle : Nat} {frame : FrameId} (hwrite : world.write? op = none)
      (hmakes : op.makesHandle = true) (halias : op.aliased? = some handle)
      (hframe : world.frames[handle]? = some frame) :
      Effect world op (world.hold (frame, world.store))
  /-- It makes a frame and takes a handle to it. -/
  | made {store : Store} (hwrite : world.write? op = none) (hmakes : op.makesHandle = true)
      (halias : op.aliased? = none) (hsize : store.frames.size = world.store.frames.size + 1)
      (hold : ∀ frame, world.store.Holds frame →
        store.bindings frame = world.store.bindings frame)
      (hnodup : ∀ other, (store.bindings other).keys.Nodup)
      (hinitial : ∀ name, store.lookup ⟨world.store.frames.size⟩ name = world.initial? op name) :
      Effect world op (world.hold (⟨world.store.frames.size⟩, store))

theorem Sound.effect_define (hsound : world.Sound) {handle : Nat} {frame : FrameId}
    (hframe : world.frames[handle]? = some frame) (name : Name) (value : Value) :
    world.Effect (.define handle name value)
      ⟨world.store.define frame name value, world.frames⟩ := by
  have hmem : frame ∈ world.frames := List.mem_of_getElem? hframe
  have hheld := hsound.held frame hmem
  have hwrite : world.write? (.define handle name value) = some (frame, name, value) := by
    simp [write?, hframe]
  refine .written hwrite hmem rfl (Setting.size_update ..) ?_ ?_
  · intro other
    rw [Store.define, Store.bindings_update _ _ hheld]
    split
    · exact Bindings.nodup_keys_set name value (hsound.nodup frame)
    · exact hsound.nodup other
  · exact fun other key => Store.lookup_define name value other key hheld

theorem Sound.effect_assign (hsound : world.Sound) {handle : Nat} {frame : FrameId}
    (hframe : world.frames[handle]? = some frame) (name : Name) (value : Value) :
    world.Effect (.assign handle name value)
      ⟨(world.store.assign frame name value).getD world.store, world.frames⟩ := by
  have hmem : frame ∈ world.frames := List.mem_of_getElem? hframe
  have hheld := hsound.held frame hmem
  by_cases hbound : world.store.contains frame name = true
  · have hwrite : world.write? (.assign handle name value) = some (frame, name, value) := by
      simp [write?, hframe, hbound]
    rw [Store.assign, if_pos hbound, Option.getD_some]
    refine .written hwrite hmem rfl (Setting.size_update ..) ?_ ?_
    · intro other
      rw [Store.reassign, Store.bindings_update _ _ hheld]
      split
      · rw [Bindings.keys_replace]
        exact hsound.nodup frame
      · exact hsound.nodup other
    · exact fun other key => Store.lookup_reassign value other key hbound
  · rw [Store.assign, if_neg hbound, Option.getD_none]
    exact .nothing (by simp [write?, hframe, hbound]) rfl

theorem Sound.effect_newFrame (hsound : world.Sound) {bindings : Bindings}
    (hnodup : bindings.keys.Nodup) (hwrite : world.write? op = none)
    (hmakes : op.makesHandle = true) (halias : op.aliased? = none)
    (hinitial : ∀ name, bindings.find? name = world.initial? op name) :
    world.Effect op (world.hold (world.store.newFrame bindings)) := by
  have hbindings := Store.bindings_newFrame world.store bindings
  have hresult : world.store.newFrame bindings =
      (⟨world.store.frames.size⟩, (world.store.newFrame bindings).2) := rfl
  have hid : (world.store.newFrame bindings).1 = ⟨world.store.frames.size⟩ := rfl
  have hsize : (world.store.newFrame bindings).2.frames.size = world.store.frames.size + 1 := by
    simp [Store.newFrame]
  rw [hid] at hbindings
  rw [hresult]
  generalize (world.store.newFrame bindings).2 = store at hbindings hsize
  refine .made hwrite hmakes halias hsize ?_ ?_ ?_
  · intro frame hheld
    have hne : frame ≠ ⟨world.store.frames.size⟩ := by
      rintro rfl
      exact Nat.lt_irrefl _ hheld
    rw [hbindings, if_neg hne]
  · intro other
    rw [hbindings]
    split
    · exact hnodup
    · exact hsound.nodup other
  · intro name
    rw [← hinitial, Store.lookup, hbindings, if_pos rfl]

theorem Sound.effect_extend (hsound : world.Sound) {handle : Nat} {frame : FrameId}
    (hframe : world.frames[handle]? = some frame) (added : BindingMap) :
    world.Effect (.extend handle added)
      (world.hold (world.store.extend frame added.bindings)) := by
  by_cases hempty : added.bindings = []
  · rw [hempty, Store.extend_nil]
    exact .aliased rfl rfl (by simp [Operation.aliased?, hempty]) hframe
  · obtain ⟨hid, hsize, -⟩ := Setting.extend_of_ne_nil world.store frame hempty
    have hresult : world.store.extend frame added.bindings =
        (⟨world.store.frames.size⟩, (world.store.extend frame added.bindings).2) :=
      Prod.ext hid rfl
    rw [hresult]
    refine .made rfl rfl (by simp [Operation.aliased?, hempty]) hsize ?_ ?_ ?_
    · exact fun other hheld => Store.bindings_extend_of_holds frame added.bindings hheld
    · intro other
      rw [Store.bindings_extend _ _ _ hempty]
      split
      · exact Bindings.nodup_keys_overlay added.bindings (hsound.nodup frame)
      · exact hsound.nodup other
    · intro name
      rw [Setting.lookup_extend frame _ hempty added.nodup, if_pos rfl]
      simp [initial?, seen?, hframe]

theorem Sound.effect (hsound : world.Sound) (h : world.perform? op = some next) :
    world.Effect op next := by
  cases op with
  | new =>
    cases h
    exact hsound.effect_newFrame (by simp [Bindings.keys]) rfl rfl rfl fun _ => rfl
  | fromBindings given =>
    cases h
    exact hsound.effect_newFrame given.nodup rfl rfl rfl fun _ => rfl
  | clone handle =>
    obtain ⟨frame, hframe, rfl⟩ := Option.map_eq_some_iff.1 h
    exact .aliased rfl rfl rfl hframe
  | define handle name value =>
    obtain ⟨frame, hframe, rfl⟩ := Option.map_eq_some_iff.1 h
    exact hsound.effect_define hframe name value
  | assign handle name value =>
    obtain ⟨frame, hframe, rfl⟩ := Option.map_eq_some_iff.1 h
    exact hsound.effect_assign hframe name value
  | extend handle added =>
    obtain ⟨frame, hframe, rfl⟩ := Option.map_eq_some_iff.1 h
    exact hsound.effect_extend hframe added

theorem Effect.sound (h : world.Effect op next) (hsound : world.Sound) : next.Sound := by
  cases h with
  | written hwrite hframe hmakes hsize hnodup hlookup =>
    refine ⟨fun frame hframe => ?_, hnodup⟩
    have hheld := hsound.held frame hframe
    rw [Store.Holds] at hheld ⊢
    exact hsize.symm ▸ hheld
  | nothing => exact hsound
  | aliased hwrite hmakes halias hframe =>
    refine ⟨fun frame hmem => ?_, hsound.nodup⟩
    rcases List.mem_append.1 hmem with hold | hnew
    · exact hsound.held frame hold
    · rw [List.mem_singleton.1 hnew]
      exact hsound.held _ (List.mem_of_getElem? hframe)
  | made hwrite hmakes halias hsize hold hnodup hinitial =>
    refine ⟨fun frame hmem => ?_, hnodup⟩
    show frame.index < _
    rcases List.mem_append.1 hmem with hold | hnew
    · have hheld := hsound.held frame hold
      unfold Store.Holds at hheld
      simp only [Handles.hold]
      omega
    · rw [List.mem_singleton.1 hnew]
      simp only [Handles.hold]
      omega

/-! ### Whole histories -/

theorem after?_concat (ops : List Operation) (op : Operation) :
    after? (ops ++ [op]) = (after? ops).bind fun world => world.perform? op := by
  simp [after?, List.foldlM_append]

theorem exists_of_after?_concat (h : after? (ops ++ [op]) = some next) :
    ∃ world, after? ops = some world ∧ world.perform? op = some next := by
  rw [after?_concat] at h
  exact Option.bind_eq_some_iff.1 h

theorem sound_of_after? (h : after? ops = some world) : world.Sound := by
  induction ops using List.reverseRecOn generalizing world with
  | nil =>
    cases h
    refine ⟨fun frame hframe => absurd hframe List.not_mem_nil, fun frame => ?_⟩
    rw [Store.bindings_of_not_holds (Nat.not_lt_zero _)]
    exact List.nodup_nil
  | append_singleton ops op ih =>
    obtain ⟨before, hbefore, hperform⟩ := exists_of_after?_concat h
    exact ((ih hbefore).effect hperform).sound (ih hbefore)

theorem effect_of_after?_concat (h : after? (ops ++ [op]) = some next) :
    ∃ world, after? ops = some world ∧ world.Sound ∧ world.Effect op next := by
  obtain ⟨world, hworld, hperform⟩ := exists_of_after?_concat h
  exact ⟨world, hworld, sound_of_after? hworld, (sound_of_after? hworld).effect hperform⟩

theorem length_frames (h : after? ops = some world) : world.frames.length = handlesMade ops := by
  induction ops using List.reverseRecOn generalizing world with
  | nil =>
    cases h
    rfl
  | append_singleton ops op ih =>
    obtain ⟨before, hbefore, -, heffect⟩ := effect_of_after?_concat h
    have hlength := ih hbefore
    unfold handlesMade at hlength ⊢
    rw [List.countP_append]
    cases heffect with
    | written hwrite hframe hmakes | nothing hwrite hmakes =>
      simp [hmakes, hlength]
    | aliased hwrite hmakes | made hwrite hmakes =>
      simp [hold, hmakes, hlength]

theorem Effect.frames_grow (h : world.Effect op next) : world.frames <+: next.frames := by
  cases h with
  | written | nothing => exact List.prefix_refl _
  | aliased | made => exact List.prefix_append _ _

/-- At every moment before, the handles that were made then stood for the frames that they stand
for. -/
theorem exists_after?_take (h : after? ops = some world) (i : Nat) :
    ∃ before, after? (ops.take i) = some before ∧ before.frames <+: world.frames := by
  induction ops using List.reverseRecOn generalizing world with
  | nil => exact ⟨world, by rw [List.take_nil, h], List.prefix_refl _⟩
  | append_singleton ops op ih =>
    obtain ⟨mid, hmid, -, heffect⟩ := effect_of_after?_concat h
    by_cases hi : i ≤ ops.length
    · obtain ⟨before, hbefore, hgrown⟩ := ih hmid
      refine ⟨before, ?_, hgrown.trans heffect.frames_grow⟩
      rw [List.take_append_of_le_length hi, hbefore]
    · refine ⟨world, ?_, List.prefix_refl _⟩
      rw [List.take_of_length_le (by simp; omega), h]

theorem frames_of_take {before : Handles} {i : Nat} (h : after? ops = some world)
    (hbefore : after? (ops.take i) = some before) : before.frames <+: world.frames := by
  obtain ⟨other, hother, hgrown⟩ := exists_after?_take h i
  cases hbefore.symm.trans hother
  exact hgrown

theorem getElem?_of_grown {first second : List FrameId} {i : Nat} {frame : FrameId}
    (h : first <+: second) (hframe : first[i]? = some frame) : second[i]? = some frame := by
  obtain ⟨more, rfl⟩ := h
  rw [List.getElem?_append_left (List.getElem?_eq_some_iff.1 hframe).1, hframe]

/-- Every operation of a history was performed. -/
theorem performed_of_getElem? (h : after? ops = some world) {i : Nat} (hop : ops[i]? = some op) :
    ∃ before next, after? (ops.take i) = some before ∧ before.perform? op = some next ∧
      before.frames <+: world.frames ∧ next.frames <+: world.frames := by
  obtain ⟨next, hnext, hgrown⟩ := exists_after?_take h (i + 1)
  rw [List.take_add_one, hop] at hnext
  obtain ⟨before, hbefore, hperform⟩ := exists_of_after?_concat hnext
  have heffect := (sound_of_after? hbefore).effect hperform
  exact ⟨before, next, hbefore, hperform, heffect.frames_grow.trans hgrown, hgrown⟩

/-! ### Handles of the same frame -/

theorem makesHandle_of_aliased? {handle : Nat} (h : op.aliased? = some handle) :
    op.makesHandle = true := by
  cases op <;> first | rfl | cases h

theorem getElem?_hold {made : FrameId × Store} {i : Nat} {frame : FrameId}
    (h : (world.hold made).frames[i]? = some frame) :
    world.frames[i]? = some frame ∨ i = world.frames.length ∧ frame = made.1 := by
  rcases Nat.lt_trichotomy i world.frames.length with hlt | heq | hgt
  · rw [hold, List.getElem?_append_left hlt] at h
    exact .inl h
  · rw [hold, heq, List.getElem?_concat_length] at h
    exact .inr ⟨heq, (Option.some.inj h).symm⟩
  · rw [hold, List.getElem?_eq_none (by simp; omega)] at h
    cases h

theorem frame_eq_of_linked (h : after? ops = some world) {first second : Nat}
    (hlinked : Linked ops first second) : world.frames[first]? = world.frames[second]? := by
  obtain ⟨hop, halias⟩ := hlinked
  obtain ⟨before, next, hbefore, hperform, hgrown, hnext⟩ := performed_of_getElem? h hop
  cases (sound_of_after? hbefore).effect hperform with
  | written hwrite hmem hmakes | nothing hwrite hmakes =>
    rw [makesHandle_of_aliased? halias] at hmakes
    cases hmakes
  | made hwrite hmakes hnone =>
    rw [halias] at hnone
    cases hnone
  | @aliased handle frame hwrite hmakes halias' hframe =>
    obtain rfl : first = handle := Option.some.inj (halias.symm.trans halias')
    rw [getElem?_of_grown hgrown hframe, ← length_frames hbefore]
    exact (getElem?_of_grown hnext List.getElem?_concat_length).symm

theorem frame_eq_of_connected (h : after? ops = some world) {first second : Nat}
    (hconnected : Connected ops first second) :
    world.frames[first]? = world.frames[second]? := by
  induction hconnected with
  | rel _ _ hlinked => exact frame_eq_of_linked h hlinked
  | refl => rfl
  | symm _ _ _ ih => exact ih.symm
  | trans _ _ _ _ _ ih ih' => exact ih.trans ih'

theorem linked_concat (op : Operation) {first second : Nat} (h : Linked ops first second) :
    Linked (ops ++ [op]) first second := by
  cases h with
  | @intro i handle made hop halias =>
    have hlt := (List.getElem?_eq_some_iff.1 hop).1
    have hop' : (ops ++ [op])[i]? = some made := (List.getElem?_append_left hlt).trans hop
    have htake : (ops ++ [op]).take i = ops.take i :=
      List.take_append_of_le_length (Nat.le_of_lt hlt)
    rw [← htake]
    exact .intro hop' halias

/-- Handles of one frame are joined by clones and extensions by nothing. -/
theorem connected_of_frame_eq (h : after? ops = some world) {first second : Nat} {frame : FrameId}
    (hfirst : world.frames[first]? = some frame) (hsecond : world.frames[second]? = some frame) :
    Connected ops first second := by
  induction ops using List.reverseRecOn generalizing world first second frame with
  | nil =>
    cases h
    cases hfirst
  | append_singleton ops op ih =>
    obtain ⟨before, hbefore, hsound, heffect⟩ := effect_of_after?_concat h
    have hkept {first second : Nat} {frame : FrameId} (hfirst : before.frames[first]? = some frame)
        (hsecond : before.frames[second]? = some frame) : Connected (ops ++ [op]) first second :=
      (ih hbefore hfirst hsecond).mono fun _ _ => linked_concat op
    cases heffect with
    | written | nothing => exact hkept hfirst hsecond
    | @aliased handle shared hwrite hmakes halias hframe =>
      -- The new handle is joined to the one that was cloned, so each handle is joined to an old one.
      have hold {i : Nat} (hi : (before.hold (shared, before.store)).frames[i]? = some frame) :
          ∃ old, before.frames[old]? = some frame ∧ Connected (ops ++ [op]) i old := by
        rcases getElem?_hold hi with hi | ⟨rfl, rfl⟩
        · exact ⟨i, hi, .refl i⟩
        · have hlinked := Linked.intro (List.getElem?_concat_length (l := ops)) halias
          rw [List.take_left, ← length_frames hbefore] at hlinked
          exact ⟨handle, hframe, .symm _ _ (.rel _ _ hlinked)⟩
      obtain ⟨first', hfirst', hconnected⟩ := hold hfirst
      obtain ⟨second', hsecond', hconnected'⟩ := hold hsecond
      exact hconnected.trans _ _ _ ((hkept hfirst' hsecond').trans _ _ _ (hconnected'.symm _ _))
    | made hwrite hmakes halias hsize =>
      -- No handle that was made before stands for the new frame.
      have hnew {i : Nat} (hi : before.frames[i]? = some ⟨before.store.frames.size⟩) : False :=
        Nat.lt_irrefl _ (hsound.held _ (List.mem_of_getElem? hi))
      rcases getElem?_hold hfirst with hfirst | ⟨rfl, rfl⟩ <;>
        rcases getElem?_hold hsecond with hsecond | ⟨rfl, hframe⟩
      · exact hkept hfirst hsecond
      · exact (hnew (hframe ▸ hfirst)).elim
      · exact (hnew hsecond).elim
      · exact .refl _

theorem Effect.made_of_makesFrame (h : world.Effect op next) (hmakes : op.makesFrame = true) :
    ∃ store, next = world.hold (⟨world.store.frames.size⟩, store) ∧
      ∀ name, store.lookup ⟨world.store.frames.size⟩ name = world.initial? op name := by
  obtain ⟨hhandle, hnone⟩ := (Bool.and_eq_true ..).mp hmakes
  cases h with
  | written hwrite hmem hmakes | nothing hwrite hmakes =>
    rw [hmakes] at hhandle
    cases hhandle
  | aliased hwrite hmakes halias =>
    rw [halias] at hnone
    cases hnone
  | made hwrite hmakes halias hsize hold hnodup hinitial => exact ⟨_, rfl, hinitial⟩

/-- A frame that is made has no handle from before. -/
theorem not_connected_of_makesFrame (h : after? ops = some world) {i handle : Nat}
    (hop : ops[i]? = some op) (hmakes : op.makesFrame = true)
    (hhandle : handle < handlesMade (ops.take i)) :
    ¬ Connected ops (handlesMade (ops.take i)) handle := by
  intro hconnected
  obtain ⟨before, next, hbefore, hperform, hgrown, hnext⟩ := performed_of_getElem? h hop
  have hsound := sound_of_after? hbefore
  obtain ⟨store, rfl, -⟩ := (hsound.effect hperform).made_of_makesFrame hmakes
  have hsame := frame_eq_of_connected h hconnected
  rw [← length_frames hbefore] at hhandle hsame
  have hnew := getElem?_of_grown hnext List.getElem?_concat_length
  have hold := getElem?_of_grown hgrown (List.getElem?_eq_getElem hhandle)
  rw [hnew, hold] at hsame
  have hheld := hsound.held _ (List.getElem_mem hhandle)
  rw [← Option.some.inj hsame] at hheld
  exact Nat.lt_irrefl _ hheld

/-! ### What handles show -/

/-- The operation at a position writes a name in a frame. -/
def WritesAt (ops : List Operation) (frame : FrameId) (name : Name) (i : Nat) (value : Value) :
    Prop :=
  ∃ op before, ops[i]? = some op ∧ after? (ops.take i) = some before ∧
    before.write? op = some (frame, name, value)

variable {frame : FrameId} {name : Name} {value : Value} {i : Nat}

theorem write?_eq_some_iff :
    world.write? op = some (frame, name, value) ↔
      ∃ handle, world.frames[handle]? = some frame ∧
        (op = .define handle name value ∨
          op = .assign handle name value ∧ (world.seen? handle name).isSome) := by
  cases op with
  | new | fromBindings | clone | extend => simp [write?]
  | define handle name value =>
    simp only [write?, Option.map_eq_some_iff, Prod.mk.injEq, Operation.define.injEq]
    grind
  | assign handle name value =>
    simp only [write?, Option.bind_eq_some_iff, Operation.assign.injEq, seen?, Store.contains,
      Bindings.binds, Store.lookup]
    grind

theorem WritesAt.mem_frames (h : WritesAt ops frame name i value)
    (hworld : after? ops = some world) : frame ∈ world.frames := by
  obtain ⟨op, before, hop, hbefore, hwrite⟩ := h
  obtain ⟨handle, hframe, -⟩ := write?_eq_some_iff.1 hwrite
  exact (frames_of_take hworld hbefore).subset (List.mem_of_getElem? hframe)

theorem WritesAt.lt_length (h : WritesAt ops frame name i value) : i < ops.length := by
  obtain ⟨op, before, hop, -⟩ := h
  exact (List.getElem?_eq_some_iff.1 hop).1

/-- After one more operation the writes are those from before and that of the operation. -/
theorem writesAt_concat_iff (hworld : after? ops = some world) :
    WritesAt (ops ++ [op]) frame name i value ↔
      WritesAt ops frame name i value ∨
        i = ops.length ∧ world.write? op = some (frame, name, value) := by
  unfold WritesAt
  rcases Nat.lt_trichotomy i ops.length with hlt | heq | hgt
  · rw [List.getElem?_append_left hlt, List.take_append_of_le_length (Nat.le_of_lt hlt)]
    simp [Nat.ne_of_lt hlt]
  · subst heq
    simp [hworld]
  · have hnone : (ops ++ [op])[i]? = none := List.getElem?_eq_none (by simp; omega)
    simp [hnone, Nat.ne_of_gt hgt, List.getElem?_eq_none (Nat.le_of_lt hgt)]

/-- An operation writes a name of a frame, or the frame keeps what it binds the name to. -/
theorem Effect.lookup_cases (h : world.Effect op next) (hsound : world.Sound)
    (hframe : frame ∈ world.frames) (name : Name) :
    (∃ value, world.write? op = some (frame, name, value) ∧
      next.store.lookup frame name = some value) ∨
    (∀ value, world.write? op ≠ some (frame, name, value)) ∧
      next.store.lookup frame name = world.store.lookup frame name := by
  cases h with
  | @written target key written store hwrite hmem hmakes hsize hnodup hlookup =>
    by_cases hsame : frame = target ∧ key = name
    · obtain ⟨rfl, rfl⟩ := hsame
      exact .inl ⟨written, hwrite, by rw [hlookup, if_pos ⟨rfl, rfl⟩]⟩
    · refine .inr ⟨fun value heq => hsame ?_, by rw [hlookup, if_neg hsame]⟩
      cases hwrite.symm.trans heq
      exact ⟨rfl, rfl⟩
  | nothing hwrite | aliased hwrite => exact .inr ⟨by simp [hwrite], rfl⟩
  | made hwrite hmakes halias hsize hold =>
    refine .inr ⟨by simp [hwrite], ?_⟩
    rw [Handles.hold, Store.lookup, hold frame (hsound.held frame hframe), Store.lookup]

theorem lastWritten_concat {first : Option Value} (hworld : after? ops = some world)
    (heffect : world.Effect op next) (hframe : frame ∈ world.frames)
    (h : LastWritten (WritesAt ops frame name) first (world.store.lookup frame name)) :
    LastWritten (WritesAt (ops ++ [op]) frame name) first (next.store.lookup frame name) := by
  rcases heffect.lookup_cases (sound_of_after? hworld) hframe name with
    ⟨value, hwrite, hlookup⟩ | ⟨hwrite, hlookup⟩
  · refine .inr ⟨ops.length, value, (writesAt_concat_iff hworld).2 (.inr ⟨rfl, hwrite⟩), ?_, hlookup⟩
    intro j other hother
    have hlt := hother.lt_length
    rw [List.length_append, List.length_singleton] at hlt
    omega
  · have hsame : WritesAt (ops ++ [op]) frame name = WritesAt ops frame name := by
      funext j other
      have hnot := hwrite other
      simp [writesAt_concat_iff hworld, hnot]
    rw [hsame, hlookup]
    exact h

/-- The operation that made a frame, and what the frame shows of the operations since. -/
theorem exists_shown (h : after? ops = some world) (hframe : frame ∈ world.frames) :
    ∃ i op before, ops[i]? = some op ∧ op.makesFrame = true ∧
      after? (ops.take i) = some before ∧ world.frames[before.frames.length]? = some frame ∧
      ∀ name, LastWritten (WritesAt ops frame name) (before.initial? op name)
        (world.store.lookup frame name) := by
  induction ops using List.reverseRecOn generalizing world frame with
  | nil =>
    cases h
    cases hframe
  | append_singleton ops op ih =>
    obtain ⟨before, hbefore, hsound, heffect⟩ := effect_of_after?_concat h
    by_cases hold : frame ∈ before.frames
    · obtain ⟨i, made, origin, hop, hmakes, horigin, hmade, hshown⟩ := ih hbefore hold
      have hlt := (List.getElem?_eq_some_iff.1 hop).1
      refine ⟨i, made, origin, (List.getElem?_append_left hlt).trans hop, hmakes, ?_, ?_, ?_⟩
      · rw [List.take_append_of_le_length (Nat.le_of_lt hlt), horigin]
      · exact getElem?_of_grown heffect.frames_grow hmade
      · exact fun name => lastWritten_concat hbefore heffect hold (hshown name)
    · -- A frame that no handle stood for before is made by the last operation.
      cases heffect with
      | written | nothing => exact absurd hframe hold
      | aliased hwrite hmakes halias hshared =>
        rcases List.mem_append.1 hframe with hmem | hmem
        · exact absurd hmem hold
        · rw [List.mem_singleton.1 hmem] at hold
          exact absurd (List.mem_of_getElem? hshared) hold
      | made hwrite hmakes halias hsize hkept hnodup hinitial =>
        obtain rfl := List.mem_singleton.1 ((List.mem_append.1 hframe).resolve_left hold)
        refine ⟨ops.length, op, before, List.getElem?_concat_length, ?_, ?_,
          List.getElem?_concat_length, fun name => .inl ⟨?_, hinitial name⟩⟩
        · rw [Operation.makesFrame, hmakes, halias]
          rfl
        · rw [List.take_left, hbefore]
        · intro j value hwritten
          rcases (writesAt_concat_iff hbefore).1 hwritten with hearlier | ⟨-, hnow⟩
          · exact hold (hearlier.mem_frames hbefore)
          · rw [hwrite] at hnow
            cases hnow

theorem frame_of_writer (h : after? ops = some world) {handle other : Nat}
    (hframe : world.frames[handle]? = some frame) (hop : ops[i]? = some op)
    (hwriter : op = .define other name value ∨ op = .assign other name value)
    (hsame : Connected ops other handle) :
    ∃ before, after? (ops.take i) = some before ∧ before.frames[other]? = some frame := by
  obtain ⟨before, next, hbefore, hperform, hgrown, -⟩ := performed_of_getElem? h hop
  have htarget : ∃ target, before.frames[other]? = some target := by
    rcases hwriter with rfl | rfl <;>
      exact (Option.map_eq_some_iff.1 hperform).imp fun _ htarget => htarget.1
  obtain ⟨target, htarget⟩ := htarget
  have hsame' := frame_eq_of_connected h hsame
  rw [getElem?_of_grown hgrown htarget, hframe] at hsame'
  exact ⟨before, hbefore, htarget.trans hsame'⟩

theorem writtenAt_iff_writesAt (h : after? ops = some world) {handle : Nat}
    (hframe : world.frames[handle]? = some frame) :
    WrittenAt ops handle name i value ↔ WritesAt ops frame name i value := by
  constructor
  · intro hwritten
    cases hwritten with
    | @define other _ hop hsame =>
      obtain ⟨before, hbefore, hother⟩ := frame_of_writer h hframe hop (.inl rfl) hsame
      exact ⟨_, before, hop, hbefore, write?_eq_some_iff.2 ⟨other, hother, .inl rfl⟩⟩
    | @assign other _ before hop hsame hbefore hbound =>
      obtain ⟨before', hbefore', hother⟩ := frame_of_writer h hframe hop (.inr rfl) hsame
      obtain rfl : before = before' := Option.some.inj (hbefore.symm.trans hbefore')
      exact ⟨_, before, hop, hbefore, write?_eq_some_iff.2 ⟨other, hother, .inr ⟨rfl, hbound⟩⟩⟩
  · rintro ⟨op, before, hop, hbefore, hwrite⟩
    obtain ⟨other, hother, hcases⟩ := write?_eq_some_iff.1 hwrite
    have hother' := getElem?_of_grown (frames_of_take h hbefore) hother
    have hsame := connected_of_frame_eq h hother' hframe
    rcases hcases with rfl | ⟨rfl, hbound⟩
    · exact .define hop hsame
    · exact .assign hop hsame hbefore hbound

theorem seen?_of_getElem? {handle : Nat} (hframe : world.frames[handle]? = some frame)
    (name : Name) : world.seen? handle name = world.store.lookup frame name := by
  rw [seen?, hframe, Option.bind_some]

theorem Sound.seen?_written (hsound : world.Sound)
    (hwrite : world.write? op = some (frame, name, value)) (hnext : world.perform? op = some next)
    (handle : Nat) (key : Name) :
    next.seen? handle key =
      if world.frames[handle]? = some frame ∧ name = key then some value
      else world.seen? handle key := by
  cases hsound.effect hnext with
  | nothing hnone | aliased hnone | made hnone =>
    rw [hwrite] at hnone
    cases hnone
  | written hwrite' hmem hmakes hsize hnodup hlookup =>
    cases hwrite.symm.trans hwrite'
    unfold seen?
    cases hframe : world.frames[handle]? with
    | none => simp
    | some other => simp [hlookup]

theorem Sound.len_eq_ncard (hsound : world.Sound) (frame : FrameId) :
    world.store.len frame = {name | (world.store.lookup frame name).isSome}.ncard := by
  have hset : {name | (world.store.lookup frame name).isSome} =
      ((world.store.bindings frame).keys.toFinset : Set Name) := by
    ext name
    rw [Finset.mem_coe, List.mem_toFinset, Bindings.mem_keys_iff]
    exact Iff.rfl
  rw [hset, Set.ncard_coe_finset, List.toFinset_card_of_nodup (hsound.nodup frame), Store.len,
    Bindings.keys, List.length_map]

theorem getElem?_eq_some_iff_connected (h : after? ops = some world) {first : Nat}
    (hfirst : world.frames[first]? = some frame) (second : Nat) :
    world.frames[second]? = some frame ↔ Connected ops first second := by
  refine ⟨fun hsecond => connected_of_frame_eq h hfirst hsecond, fun hconnected => ?_⟩
  rw [← frame_eq_of_connected h hconnected, hfirst]

theorem isSome_assign_iff (store : Store) (frame : FrameId) (name : Name) (value : Value) :
    (store.assign frame name value).isSome ↔ (store.lookup frame name).isSome := by
  show (store.assign frame name value).isSome ↔ store.contains frame name = true
  unfold Store.assign
  by_cases hbound : store.contains frame name <;> simp [hbound]

theorem isSome_perform? (h : after? ops = some world)
    (hthrough : ∀ handle, op.through? = some handle → handle < handlesMade ops) :
    (world.perform? op).isSome := by
  rw [← length_frames h] at hthrough
  cases op with
  | new | fromBindings => rfl
  | clone handle | define handle | assign handle | extend handle =>
    rw [perform?, Option.isSome_map, List.getElem?_eq_getElem (hthrough handle rfl)]
    rfl

theorem exists_write (name : Name) (value : Value) {through : Nat}
    (h : world.perform? (.define through name value) = some next ∨
      (world.seen? through name).isSome ∧
        world.perform? (.assign through name value) = some next) :
    ∃ op frame, world.frames[through]? = some frame ∧ world.perform? op = some next ∧
      world.write? op = some (frame, name, value) := by
  rcases h with hnext | ⟨hbound, hnext⟩
  · obtain ⟨frame, hframe, -⟩ := Option.map_eq_some_iff.1 hnext
    exact ⟨_, frame, hframe, hnext, write?_eq_some_iff.2 ⟨through, hframe, .inl rfl⟩⟩
  · obtain ⟨frame, hframe, -⟩ := Option.map_eq_some_iff.1 hnext
    exact ⟨_, frame, hframe, hnext, write?_eq_some_iff.2 ⟨through, hframe, .inr ⟨rfl, hbound⟩⟩⟩

/-- What was written through the handles of a frame counts, else what the frame was made with. -/
theorem exists_shown_through (h : after? ops = some world) {handle : Nat}
    (hframe : world.frames[handle]? = some frame) :
    ∃ i op before, ops[i]? = some op ∧ op.makesFrame = true ∧
      Connected ops (handlesMade (ops.take i)) handle ∧ after? (ops.take i) = some before ∧
      ∀ name, LastWritten (WrittenAt ops handle name) (before.initial? op name)
        (world.seen? handle name) := by
  obtain ⟨i, op, before, hop, hmakes, hbefore, hmade, hshown⟩ :=
    exists_shown h (List.mem_of_getElem? hframe)
  rw [length_frames hbefore] at hmade
  refine ⟨i, op, before, hop, hmakes, connected_of_frame_eq h hmade hframe, hbefore, ?_⟩
  intro name
  have hwritten : WrittenAt ops handle name = WritesAt ops frame name := by
    funext j value
    exact propext (writtenAt_iff_writesAt h hframe)
  rw [hwritten, seen?_of_getElem? hframe]
  exact hshown name

/-- After any operations handles act as maps of which some are one and the same. -/
theorem handles_are_aliased_maps (h : after? ops = some world) : AliasedMaps ops world := by
  have hsound := sound_of_after? h
  refine ⟨?_, ?_, ?_, ?_, ?_, ?_, ?_⟩
  · exact fun op hthrough => isSome_perform? h hthrough
  · exact fun first second frame hfirst => getElem?_eq_some_iff_connected h hfirst second
  · exact fun i op hop hmakes handle hhandle => not_connected_of_makesFrame h hop hmakes hhandle
  · intro handle hhandle
    rw [← length_frames h] at hhandle
    exact exists_shown_through h (List.getElem?_eq_getElem hhandle)
  · intro handle frame name value hframe
    have hassign := isSome_assign_iff world.store frame name value
    rw [seen?_of_getElem? hframe]
    refine ⟨hassign, fun hnone => ?_⟩
    rw [hnone, Option.isSome_none, Bool.false_eq_true, iff_false, Option.not_isSome_iff_eq_none]
      at hassign
    simp [perform?, hframe, hassign]
  · intro through name value next hnext handle key
    obtain ⟨op, frame, hframe, hperform, hwrite⟩ := exists_write name value hnext
    rw [hsound.seen?_written hwrite hperform, ← getElem?_eq_some_iff_connected h hframe]
    exact ⟨fun hsame => if_pos hsame, fun hsame => if_neg hsame⟩
  · exact fun handle frame hframe => hsound.len_eq_ncard frame

/-- Two branches of a frame, of which the first is then assigned to.  The frame has a second handle,
and the second branch a further one by an extension by nothing. -/
def branches : List Operation :=
  [.new, .define 0 ⟨1⟩ (.str "old"), .clone 0,
    .extend 1 ⟨[(⟨2⟩, .str "own")], by simp [Bindings.keys]⟩,
    .extend 0 ⟨[(⟨3⟩, .str "own")], by simp [Bindings.keys]⟩,
    .extend 3 ⟨[], by simp [Bindings.keys]⟩, .assign 2 ⟨1⟩ (.str "new"), .assign 4 ⟨2⟩ (.str "lost")]

theorem handles_are_aliased_maps_branches :
    ∃ world, after? branches = some world ∧ AliasedMaps branches world ∧
      Connected branches 3 4 ∧ ¬ Connected branches 2 4 ∧ ¬ Connected branches 1 2 ∧
      world.seen? 2 ⟨1⟩ = some (.str "new") ∧ world.seen? 4 ⟨1⟩ = some (.str "old") ∧
      world.seen? 1 ⟨1⟩ = some (.str "old") ∧ world.seen? 4 ⟨2⟩ = none := by
  have hafter : (after? branches).isSome := rfl
  obtain ⟨world, hworld⟩ := Option.isSome_iff_exists.1 hafter
  have hmaps := handles_are_aliased_maps hworld
  cases hworld
  refine ⟨_, rfl, hmaps, (hmaps.same_frame 3 4 _ rfl).1 rfl, ?_, ?_, rfl, rfl, rfl, rfl⟩
  · intro hconnected
    cases (hmaps.same_frame 2 4 _ rfl).2 hconnected
  · intro hconnected
    cases (hmaps.same_frame 1 2 _ rfl).2 hconnected

end Handles

end FlatScope
