import FlatScope.Proofs.Frames.Handles
import FlatScope.Proofs.Frames.Links
import FlatScope.Proofs.Frames.Owners

/-!
# The latest extension of a frame

A caller makes handles and drops them, and keeps values and gives them up.  After every move the
frames that have lost their last owner are freed.  The link of a frame leads to the frame that was
made last from it, as long as that frame is alive, and to nothing from then on.
-/

namespace FlatScope

/-! ### Moves of a caller -/

/-- The frame that a value owns: that of a closure. -/
def Value.captured? : Value → Option FrameId
  | .closure function => some function.frame
  | _ => none

/-- The values that an operation is given. -/
def Operation.values : Operation → List Value
  | new | clone _ => []
  | fromBindings given | extend _ given => given.bindings.map Prod.snd
  | define _ _ value | assign _ _ value => [value]

/-- What a caller can do. -/
inductive Move where
  | perform (op : Operation)
  | drop (handle : Nat)
  /-- Keeps the value that a handle shows under a name. -/
  | look (handle : Nat) (name : Name)
  /-- Keeps a value that the caller makes. -/
  | keep (value : Value)
  /-- Gives up one of the values that are kept. -/
  | release (index : Nat)
  /-- Takes a handle to the latest extension of the frame of a handle. -/
  | follow (handle : Nat)

/-- What a caller has: handles, some of which are dropped, and values. -/
structure Holdings where
  handles : Handles
  dropped : List Nat
  values : List Value

namespace Holdings

def empty : Holdings := ⟨.empty, [], []⟩

def store (holdings : Holdings) : Store := holdings.handles.store

/-- The frame of a handle that is not dropped. -/
def frame? (holdings : Holdings) (handle : Nat) : Option FrameId :=
  if handle ∈ holdings.dropped then none else holdings.handles.frames[handle]?

/-- The frames that the caller owns, by handles and by closures. -/
def held (holdings : Holdings) : List FrameId :=
  (List.range holdings.handles.frames.length).filterMap holdings.frame? ++
    holdings.values.filterMap Value.captured?

def latest? (holdings : Holdings) (base : FrameId) : Option FrameId :=
  holdings.store.latest? holdings.held base

/-- Whether the caller can have a value.  A closure owns its frame, so nobody has one whose frame is
not held. -/
def affords (holdings : Holdings) (value : Value) : Bool :=
  value.captured?.all fun frame => holdings.held.contains frame

/-- What a move leads to; nothing when it needs what the caller does not have. -/
def move? (holdings : Holdings) : Move → Option Holdings
  | .perform op =>
    if op.through?.all (fun handle => (holdings.frame? handle).isSome) &&
        op.values.all holdings.affords then
      (holdings.handles.perform? op).map fun handles => { holdings with handles }
    else none
  | .drop handle => (holdings.frame? handle).map fun _ =>
    { holdings with dropped := handle :: holdings.dropped }
  | .look handle name => do
    let frame ← holdings.frame? handle
    let value ← holdings.store.lookup frame name
    some { holdings with values := holdings.values ++ [value] }
  | .keep value =>
    if holdings.affords value then some { holdings with values := holdings.values ++ [value] }
    else none
  | .release index =>
    if index < holdings.values.length then
      some { holdings with values := holdings.values.eraseIdx index }
    else none
  | .follow handle => do
    let frame ← holdings.frame? handle
    let latest ← holdings.latest? frame
    some { holdings with handles := holdings.handles.hold (latest, holdings.store) }

/-- The frames that are made between two moments. -/
def madeFrames (before after : Holdings) : Set FrameId :=
  {id | after.store.Holds id ∧ ¬ before.store.Holds id}

/-- What moves lead to, from nothing. -/
def after? (moves : List Move) : Option Holdings := moves.foldlM move? empty

end Holdings

/-! ### What moves say -/

section Histories

open Holdings

/-- Over a history, the frames that are alive: those that are made, until they lose their last
owner. -/
inductive Lives : List Move → Holdings → Set FrameId → Prop where
  | nothing : Lives [] .empty ∅
  | move {moves : List Move} {move : Move} {before after : Holdings} {alive left : Set FrameId}
      (hbefore : Lives moves before alive) (hmove : before.move? move = some after)
      (hfrees : after.store.Frees after.held (alive ∪ before.madeFrames after) left) :
      Lives (moves ++ [move]) after left

/-- The move at a position extends a frame by some bindings, which makes another frame. -/
def ExtendedAt (moves : List Move) (base made : FrameId) (i : Nat) : Prop :=
  ∃ handle added before, moves[i]? = some (.perform (.extend handle added)) ∧
    added.bindings ≠ [] ∧ after? (moves.take i) = some before ∧
    before.frame? handle = some base ∧ made = (before.store.extend base added.bindings).1

/-- A frame was made by the most recent extension of another. -/
def LatestMade (moves : List Move) (base made : FrameId) : Prop :=
  ∃ i, ExtendedAt moves base made i ∧ ∀ j other, ExtendedAt moves base other j → j ≤ i

/-- Links lead to the most recent extensions that are alive. -/
structure LinksLeadOn (moves : List Move) (holdings : Holdings) : Prop where
  /-- Every operation can be made through the handles that are not dropped, with closures whose
  frames are held. -/
  performed : ∀ op : Operation,
    (∀ handle, op.through? = some handle → (holdings.frame? handle).isSome) →
    (∀ value ∈ op.values, ∀ frame, value.captured? = some frame → frame ∈ holdings.held) →
    (holdings.move? (.perform op)).isSome
  /-- Every handle that is not dropped can be. -/
  droppable : ∀ handle, (holdings.frame? handle).isSome → (holdings.move? (.drop handle)).isSome
  /-- Frames are freed in some order, -/
  freed : ∃ alive, Lives moves holdings alive
  /-- and in whichever order it is, the same frames are left. -/
  unique : ∀ alive other, Lives moves holdings alive → Lives moves holdings other → alive = other
  /-- The latest extension is the frame that was made last, if it has an owner. -/
  latest : ∀ alive, Lives moves holdings alive → ∀ base made, holdings.latest? base = some made ↔
    LatestMade moves base made ∧ holdings.store.Owned holdings.held alive made
  /-- When that frame has no owner any more, there is no latest extension until the next one is
  made, though an older one may be alive. -/
  gone : ∀ alive, Lives moves holdings alive → ∀ base made, LatestMade moves base made →
    ¬ holdings.store.Owned holdings.held alive made →
    ∀ more later, after? (moves ++ more) = some later → LatestMade (moves ++ more) base made →
      later.latest? base = none
  /-- An extension by nothing leaves the latest extensions as they were. -/
  extend_nil : ∀ handle next,
    holdings.move? (.perform (.extend handle ⟨[], List.nodup_nil⟩)) = some next →
    next.store = holdings.store ∧ ∀ base, next.latest? base = holdings.latest? base

end Histories

namespace Holdings

/-! ### What is held -/

variable {before after holdings : Holdings} {move : Move} {moves : List Move}
  {base made id : FrameId} {handle : Nat} {value : Value} {alive left : Set FrameId}

theorem frame?_eq_some_iff : holdings.frame? handle = some id ↔
    handle ∉ holdings.dropped ∧ holdings.handles.frames[handle]? = some id := by
  unfold frame?
  split <;> simp [*]

theorem getElem?_of_frame? (h : holdings.frame? handle = some id) :
    holdings.handles.frames[handle]? = some id :=
  (frame?_eq_some_iff.1 h).2

theorem mem_held_iff : id ∈ holdings.held ↔
    (∃ handle, holdings.frame? handle = some id) ∨
      ∃ value ∈ holdings.values, value.captured? = some id := by
  rw [held, List.mem_append, List.mem_filterMap, List.mem_filterMap]
  refine or_congr_left ⟨fun ⟨handle, _, hframe⟩ => ⟨handle, hframe⟩, ?_⟩
  rintro ⟨handle, hframe⟩
  exact ⟨handle, List.mem_range.2 (List.getElem?_eq_some_iff.1 (getElem?_of_frame? hframe)).1,
    hframe⟩

theorem mem_held_of_frame? (h : holdings.frame? handle = some id) : id ∈ holdings.held :=
  mem_held_iff.2 (.inl ⟨handle, h⟩)

theorem mem_held_of_affords (h : holdings.affords value = true) (hid : value.captured? = some id) :
    id ∈ holdings.held := by
  simpa [affords, hid] using h

/-- With a further handle, only its frame is held in addition. -/
theorem mem_held_hold (holdings : Holdings) (made : FrameId × Store)
    (h : id ∈ { holdings with handles := holdings.handles.hold made }.held) :
    id ∈ holdings.held ∨ id = made.1 := by
  rcases mem_held_iff.1 h with ⟨handle, hframe⟩ | hvalue
  · obtain ⟨hlive, hframe⟩ := frame?_eq_some_iff.1 hframe
    rcases Handles.getElem?_hold hframe with hold | ⟨-, rfl⟩
    · exact .inl (mem_held_of_frame? (frame?_eq_some_iff.2 ⟨hlive, hold⟩))
    · exact .inr rfl
  · exact .inl (mem_held_iff.2 (.inr hvalue))

/-- With a further value, only its frame is held in addition. -/
theorem mem_held_values (holdings : Holdings) (value : Value)
    (h : id ∈ { holdings with values := holdings.values ++ [value] }.held) :
    id ∈ holdings.held ∨ value.captured? = some id := by
  rcases mem_held_iff.1 h with hhandle | ⟨other, hother, hcaptured⟩
  · exact .inl (mem_held_iff.2 (.inl hhandle))
  · rcases List.mem_append.1 hother with hold | hnew
    · exact .inl (mem_held_iff.2 (.inr ⟨other, hold, hcaptured⟩))
    · exact .inr (List.mem_singleton.1 hnew ▸ hcaptured)

/-! ### One move -/

/-- The frame that a move extends by some bindings. -/
def extended? (holdings : Holdings) : Move → Option FrameId
  | .perform (.extend handle added) =>
    if added.bindings.isEmpty then none else holdings.frame? handle
  | _ => none

/-- A frame that a caller can come to own: it is held, or a held frame captures it, or it is a latest
extension. -/
def Reaches (holdings : Holdings) (id : FrameId) : Prop :=
  id ∈ holdings.held ∨ (∃ owner ∈ holdings.held, holdings.store.Captures owner id) ∨
    ∃ base, holdings.latest? base = some id

/-- What a move can do to owners. -/
structure Changes (before after : Holdings) : Prop where
  sound : after.handles.Sound
  size_le : before.store.frames.size ≤ after.store.frames.size
  held : ∀ id ∈ after.held, before.Reaches id ∨ after.store.Holds id ∧ ¬ before.store.Holds id
  captured : ∀ owner id, after.store.Captures owner id →
    before.store.Captures owner id ∨ before.Reaches id

theorem Changes.of_store_eq (hsound : after.handles.Sound) (hstore : after.store = before.store)
    (hheld : ∀ id ∈ after.held, before.Reaches id) : before.Changes after where
  sound := hsound
  size_le := by rw [hstore]
  held id hid := .inl (hheld id hid)
  captured owner id hcaptures := .inl (hstore ▸ hcaptures)

theorem mem_values_of_write? {op : Operation} {world : Handles} {frame : FrameId} {name : Name}
    (h : world.write? op = some (frame, name, value)) : value ∈ op.values := by
  obtain ⟨handle, -, rfl | ⟨rfl, -⟩⟩ := Handles.write?_eq_some_iff.1 h <;>
    exact List.mem_singleton_self value

/-- What a new frame captures: frames of given closures, and what the frame captures that is
extended. -/
theorem reaches_of_initial? {op : Operation} {name : Name} {closure : Closure}
    (hthrough : ∀ handle, op.through? = some handle → ∃ frame, before.frame? handle = some frame)
    (hvalues : ∀ value ∈ op.values, before.affords value = true)
    (h : before.handles.initial? op name = some (.closure closure)) :
    before.Reaches closure.frame := by
  have hgiven {given : Bindings} (hfind : given.find? name = some (.closure closure))
      (hsub : ∀ value ∈ given.map Prod.snd, before.affords value = true) :
      before.Reaches closure.frame := by
    have hmem : Value.closure closure ∈ given.map Prod.snd :=
      List.mem_map.2 ⟨_, Bindings.mem_of_find? hfind, rfl⟩
    exact .inl (mem_held_of_affords (hsub _ hmem) rfl)
  cases op with
  | fromBindings given => exact hgiven h hvalues
  | extend handle added =>
    rcases Option.or_eq_some_iff.1 h with hfind | ⟨-, hseen⟩
    · exact hgiven hfind hvalues
    · obtain ⟨frame, hframe⟩ := hthrough handle rfl
      rw [Handles.seen?_of_getElem? (getElem?_of_frame? hframe)] at hseen
      exact .inr (.inl ⟨frame, mem_held_of_frame? hframe, name, closure, hseen, rfl⟩)
  | _ => cases h

theorem changes_perform {op : Operation} {handles : Handles} (hsound : before.handles.Sound)
    (hthrough : ∀ handle, op.through? = some handle → ∃ frame, before.frame? handle = some frame)
    (hvalues : ∀ value ∈ op.values, before.affords value = true)
    (h : before.handles.perform? op = some handles) :
    before.Changes { before with handles } := by
  have heffect := hsound.effect h
  have hafter := heffect.sound hsound
  cases heffect with
  | written hwrite hmem hmakes hsize hnodup hlookup =>
    refine ⟨hafter, Nat.le_of_eq hsize.symm, fun id hid => .inl (.inl hid), ?_⟩
    rintro owner id ⟨name, closure, hfound, rfl⟩
    rw [store, hlookup] at hfound
    split at hfound
    · cases hfound
      exact .inr (.inl (mem_held_of_affords (hvalues _ (mem_values_of_write? hwrite)) rfl))
    · exact .inl ⟨name, closure, hfound, rfl⟩
  | nothing => exact .of_store_eq hsound rfl fun id hid => .inl hid
  | @aliased handle frame hwrite hmakes halias hframe =>
    refine .of_store_eq hafter rfl fun id hid => ?_
    rcases mem_held_hold before _ hid with hold | rfl
    · exact .inl hold
    · have hhandle : op.through? = some handle := by
        cases op with
        | clone => exact halias
        | extend other added =>
          simp only [Operation.aliased?] at halias
          split at halias
          · exact halias
          · cases halias
        | _ => cases halias
      obtain ⟨other, hother⟩ := hthrough handle hhandle
      cases hframe.symm.trans (getElem?_of_frame? hother)
      exact .inl (mem_held_of_frame? hother)
  | @made store hwrite hmakes halias hsize hold hnodup hinitial =>
    refine ⟨hafter, Nat.le_of_lt (by simp [Holdings.store, Handles.hold, hsize]), ?_, ?_⟩
    · intro id hid
      rcases mem_held_hold before _ hid with hmem | rfl
      · exact .inl (.inl hmem)
      · refine .inr ⟨?_, Nat.lt_irrefl _⟩
        simp [Holdings.store, Handles.hold, Store.Holds, hsize]
    · rintro owner id ⟨name, closure, hfound, rfl⟩
      by_cases howner : before.store.Holds owner
      · refine .inl ⟨name, closure, ?_, rfl⟩
        rw [Store.lookup, Holdings.store, ← hold owner howner]
        exact hfound
      · have hholds : store.Holds owner := Store.Captures.holds ⟨name, closure, hfound, rfl⟩
        obtain rfl : owner = ⟨before.handles.store.frames.size⟩ := by
          obtain ⟨index⟩ := owner
          simp only [Store.Holds, Holdings.store, FrameId.mk.injEq] at *
          omega
        exact .inr (reaches_of_initial? hthrough hvalues (hinitial name ▸ hfound))

/-- An operation goes through a handle that is not dropped, with values that the caller can have. -/
theorem exists_perform? {op : Operation} (h : before.move? (.perform op) = some after) :
    ∃ handles, before.handles.perform? op = some handles ∧ after = { before with handles } ∧
      (∀ handle, op.through? = some handle → ∃ frame, before.frame? handle = some frame) ∧
      ∀ value ∈ op.values, before.affords value = true := by
  simp only [move?, Option.ite_none_right_eq_some, Bool.and_eq_true, List.all_eq_true,
    Option.map_eq_some_iff] at h
  obtain ⟨⟨hthrough, hvalues⟩, handles, hperform, rfl⟩ := h
  refine ⟨handles, hperform, rfl, fun handle hhandle => ?_, hvalues⟩
  rw [hhandle] at hthrough
  exact Option.isSome_iff_exists.1 hthrough

/-- A move is an operation, or it changes no frame and takes only what can be reached. -/
theorem move?_cases (hsound : before.handles.Sound) (h : before.move? move = some after) :
    (∃ op, move = .perform op) ∨ before.extended? move = none ∧ after.store = before.store ∧
      after.handles.Sound ∧ ∀ id ∈ after.held, before.Reaches id := by
  cases move with
  | perform op => exact .inl ⟨op, rfl⟩
  | drop handle =>
    obtain ⟨frame, -, rfl⟩ := Option.map_eq_some_iff.1 h
    refine .inr ⟨rfl, rfl, hsound, fun id hid => .inl (mem_held_iff.2 ?_)⟩
    refine (mem_held_iff.1 hid).imp_left (Exists.imp fun other hother => ?_)
    obtain ⟨hlive, hframe⟩ := frame?_eq_some_iff.1 hother
    exact frame?_eq_some_iff.2 ⟨fun hmem => hlive (List.mem_cons_of_mem handle hmem), hframe⟩
  | look handle name =>
    simp only [move?, Option.bind_eq_bind, Option.bind_eq_some_iff, Option.some.injEq] at h
    obtain ⟨frame, hframe, value, hvalue, rfl⟩ := h
    refine .inr ⟨rfl, rfl, hsound, fun id hid => ?_⟩
    rcases mem_held_values before value hid with hold | hcaptured
    · exact .inl hold
    · cases value with
      | closure closure =>
        cases hcaptured
        exact .inr (.inl ⟨frame, mem_held_of_frame? hframe, name, closure, hvalue, rfl⟩)
      | _ => cases hcaptured
  | keep value =>
    simp only [move?, Option.ite_none_right_eq_some, Option.some.injEq] at h
    obtain ⟨haffords, rfl⟩ := h
    refine .inr ⟨rfl, rfl, hsound, fun id hid => .inl ?_⟩
    rcases mem_held_values before value hid with hold | hcaptured
    · exact hold
    · exact mem_held_of_affords haffords hcaptured
  | release index =>
    simp only [move?, Option.ite_none_right_eq_some, Option.some.injEq] at h
    obtain ⟨-, rfl⟩ := h
    refine .inr ⟨rfl, rfl, hsound, fun id hid => .inl (mem_held_iff.2 ?_)⟩
    refine (mem_held_iff.1 hid).imp_right (Exists.imp fun value hvalue => ⟨?_, hvalue.2⟩)
    exact List.mem_of_mem_eraseIdx hvalue.1
  | follow handle =>
    simp only [move?, Option.bind_eq_bind, Option.bind_eq_some_iff, Option.some.injEq] at h
    obtain ⟨frame, -, latest, hlatest, rfl⟩ := h
    refine .inr ⟨rfl, rfl, ⟨fun id hid => ?_, hsound.nodup⟩, fun id hid => ?_⟩
    · rcases List.mem_append.1 hid with hold | hnew
      · exact hsound.held id hold
      · rw [List.mem_singleton.1 hnew]
        exact Store.holds_of_mem_survivors (Store.latest?_eq_some_iff.1 hlatest).2
    · rcases mem_held_hold before _ hid with hold | rfl
      · exact .inl hold
      · exact .inr (.inr ⟨frame, hlatest⟩)

/-- A move makes what is owned only from what can be reached. -/
theorem changes_of_move? (hsound : before.handles.Sound) (h : before.move? move = some after) :
    before.Changes after := by
  rcases move?_cases hsound h with ⟨op, rfl⟩ | ⟨-, hstore, hafter, hheld⟩
  · obtain ⟨handles, hperform, rfl, hthrough, hvalues⟩ := exists_perform? h
    exact changes_perform hsound hthrough hvalues hperform
  · exact .of_store_eq hafter hstore hheld

/-! ### Frames that are alive -/

/-- No frame is left to be freed. -/
structure Settled (holdings : Holdings) (alive : Set FrameId) : Prop where
  sound : holdings.handles.Sound
  encloses : holdings.store.Encloses holdings.held alive
  owned : ∀ id ∈ alive, holdings.store.Owned holdings.held alive id

theorem Settled.eq_survivors (h : holdings.Settled alive) :
    alive = {id | id ∈ holdings.store.survivors holdings.held} :=
  h.encloses.eq_survivors h.sound.nodup h.owned

theorem Settled.mem_of_reaches (h : holdings.Settled alive) (hreaches : holdings.Reaches id) :
    id ∈ alive := by
  rcases hreaches with hheld | ⟨owner, howner, hcaptures⟩ | ⟨base, hlatest⟩
  · exact h.encloses.roots id hheld
  · exact h.encloses.captured owner (h.encloses.roots owner howner) id hcaptures
  · rw [h.eq_survivors]
    exact (Store.latest?_eq_some_iff.1 hlatest).2

/-- After a move the frames that were alive and those that were made keep what is owned. -/
theorem Settled.encloses_of_changes (h : before.Settled alive) (hchanges : before.Changes after) :
    after.store.Encloses after.held (alive ∪ before.madeFrames after) := by
  have hroots : ∀ id ∈ after.held, id ∈ alive ∪ before.madeFrames after :=
    fun id hid => (hchanges.held id hid).imp_left h.mem_of_reaches
  have hcaptured : ∀ owner ∈ alive ∪ before.madeFrames after, ∀ id,
      after.store.Captures owner id → id ∈ alive := by
    intro owner howner id hcaptures
    rcases hchanges.captured owner id hcaptures with hold | hreaches
    · have halive : owner ∈ alive := howner.resolve_right fun hnew => hnew.2 hold.holds
      exact h.encloses.captured owner halive id hold
    · exact h.mem_of_reaches hreaches
  refine ⟨?_, hroots, fun owner howner id hid => .inl (hcaptured owner howner id hid), ?_⟩
  · rintro id (halive | ⟨hnew, -⟩)
    · exact Nat.lt_of_lt_of_le (h.encloses.holds id halive) hchanges.size_le
    · exact hnew
  · intro others hothers howned
    -- Frames that own each other now, and are neither alive nor new, owned each other before.
    have hdead : others \ (alive ∪ before.madeFrames after) ⊆ alive := by
      refine h.encloses.greatest _ ?_ ?_
      · rintro id ⟨hid, hgone⟩
        by_contra hnew
        exact hgone (.inr ⟨hothers id hid, hnew⟩)
      · rintro id ⟨hid, hgone⟩
        rcases howned id hid with hheld | ⟨owner, howner, hcaptures⟩
        · exact absurd (hroots id hheld) hgone
        · have hownerGone : owner ∉ alive ∪ before.madeFrames after :=
            fun hnow => hgone (.inl (hcaptured owner hnow id hcaptures))
          refine .inr ⟨owner, ⟨howner, hownerGone⟩, ?_⟩
          refine (hchanges.captured owner id hcaptures).resolve_right fun hreaches => ?_
          exact hgone (.inl (h.mem_of_reaches hreaches))
    intro id hid
    by_contra hgone
    exact hgone (.inl (hdead ⟨hid, hgone⟩))

theorem settled_empty : empty.Settled ∅ := by
  have hnothing : Handles.after? [] = some .empty := rfl
  refine ⟨Handles.sound_of_after? hnothing, ⟨?_, ?_, ?_, ?_⟩, ?_⟩
  · exact fun id hid => absurd hid (Set.notMem_empty id)
  · exact fun _ hid => absurd hid List.not_mem_nil
  · exact fun owner howner => absurd howner (Set.notMem_empty owner)
  · exact fun _ hothers _ id hid => absurd (hothers id hid) (Nat.not_lt_zero _)
  · exact fun id hid => absurd hid (Set.notMem_empty id)

theorem Settled.of_move? (h : before.Settled alive) (hmove : before.move? move = some after)
    (hfrees : after.store.Frees after.held (alive ∪ before.madeFrames after) left) :
    after.Settled left :=
  have hchanges := changes_of_move? h.sound hmove
  ⟨hchanges.sound, hfrees.encloses (h.encloses_of_changes hchanges), hfrees.owned⟩

theorem settled_of_lives (h : Lives moves holdings alive) : holdings.Settled alive := by
  induction h with
  | nothing => exact settled_empty
  | move _ hmove hfrees ih => exact ih.of_move? hmove hfrees

/-! ### Whole histories -/

theorem after?_concat (moves : List Move) (move : Move) :
    after? (moves ++ [move]) = (after? moves).bind fun holdings => holdings.move? move := by
  simp [after?, List.foldlM_append]

theorem exists_of_after?_concat (h : after? (moves ++ [move]) = some after) :
    ∃ before, after? moves = some before ∧ before.move? move = some after := by
  rw [after?_concat] at h
  exact Option.bind_eq_some_iff.1 h

theorem after?_of_lives (h : Lives moves holdings alive) : after? moves = some holdings := by
  induction h with
  | nothing => rfl
  | move _ hmove _ ih => rw [after?_concat, ih, Option.bind_some, hmove]

theorem exists_lives_move (h : Lives moves before alive) (hmove : before.move? move = some after) :
    ∃ left, Lives (moves ++ [move]) after left ∧
      ∀ id ∈ left, before.store.Holds id → id ∈ alive := by
  have hsettled := settled_of_lives h
  have hfinite := after.store.finite_holds.subset
    (hsettled.encloses_of_changes (changes_of_move? hsettled.sound hmove)).holds
  obtain ⟨left, hfrees⟩ := Store.exists_frees after.store after.held hfinite
  refine ⟨left, .move h hmove hfrees, fun id hid hold => ?_⟩
  exact (hfrees.subset hid).resolve_right fun hnew => hnew.2 hold

theorem exists_lives (h : after? moves = some holdings) : ∃ alive, Lives moves holdings alive := by
  induction moves using List.reverseRecOn generalizing holdings with
  | nil =>
    cases h
    exact ⟨∅, .nothing⟩
  | append_singleton moves move ih =>
    obtain ⟨before, hbefore, hmove⟩ := exists_of_after?_concat h
    obtain ⟨alive, halive⟩ := ih hbefore
    obtain ⟨left, hleft, -⟩ := exists_lives_move halive hmove
    exact ⟨left, hleft⟩

theorem sound_of_after? (h : after? moves = some holdings) : holdings.handles.Sound := by
  obtain ⟨alive, halive⟩ := exists_lives h
  exact (settled_of_lives halive).sound

/-- A frame that is freed stays so. -/
theorem exists_lives_append (h : Lives moves holdings alive) {more : List Move} {later : Holdings}
    (hmore : after? (moves ++ more) = some later) :
    holdings.store.frames.size ≤ later.store.frames.size ∧
      ∃ left, Lives (moves ++ more) later left ∧
        ∀ id ∈ left, holdings.store.Holds id → id ∈ alive := by
  induction more using List.reverseRecOn generalizing later with
  | nil =>
    rw [List.append_nil] at hmore ⊢
    cases (after?_of_lives h).symm.trans hmore
    exact ⟨Nat.le_refl _, alive, h, fun id hid _ => hid⟩
  | append_singleton more move ih =>
    rw [← List.append_assoc] at hmore ⊢
    obtain ⟨mid, hmid, hmove⟩ := exists_of_after?_concat hmore
    obtain ⟨hsize, between, hbetween, hkept⟩ := ih hmid
    obtain ⟨left, hleft, hsub⟩ := exists_lives_move hbetween hmove
    have hgrown := (changes_of_move? (settled_of_lives hbetween).sound hmove).size_le
    refine ⟨Nat.le_trans hsize hgrown, left, hleft, fun id hid hold => ?_⟩
    exact hkept id (hsub id hid (Nat.lt_of_lt_of_le hold hsize)) hold

end Holdings

/-! ### Links -/

namespace Store

variable (store : Store) (id : FrameId)

theorem link?_unlinked : store.unlinked.link? id = none := by
  unfold link? frame? unlinked
  cases h : store.frames[id.index]? <;> simp [h]

theorem link?_newFrame (bindings : Bindings) :
    (store.newFrame bindings).2.link? id = store.link? id := by
  unfold link? frame? newFrame
  rw [Array.getElem?_push]
  split
  · rename_i h
    rw [h, Array.getElem?_eq_none (Nat.le_refl _)]
    rfl
  · rfl

theorem link?_update (frame : FrameId) (change : Bindings → Bindings) :
    (store.update frame change).link? id = store.link? id := by
  unfold link? frame? update
  by_cases h : frame.index = id.index <;> cases hid : store.frames[id.index]? <;>
    simp [Array.getElem?_modify, h, hid]

theorem link?_assign (frame : FrameId) (name : Name) (value : Value) :
    ((store.assign frame name value).getD store).link? id = store.link? id := by
  unfold assign
  split
  · exact link?_update store id frame (·.replace name value)
  · rfl

theorem link?_link {base : FrameId} (hbase : store.Holds base) (next : FrameId) :
    (store.link base next).link? id = if base = id then some next else store.link? id := by
  unfold link? frame? link
  by_cases h : base = id
  · subst h
    simp [Array.getElem?_modify, Array.getElem?_eq_getElem hbase]
  · have hindex : base.index ≠ id.index := by
      obtain ⟨index⟩ := base
      obtain ⟨other⟩ := id
      simpa using h
    simp [Array.getElem?_modify, hindex, h]

theorem link?_extend {base : FrameId} (hbase : store.Holds base) {added : Bindings}
    (hadded : added ≠ []) :
    (store.extend base added).2.link? id =
      if base = id then some (store.extend base added).1 else store.link? id := by
  cases added with
  | nil => exact absurd rfl hadded
  | cons entry rest =>
    have hholds : (store.newFrame ((store.bindings base).overlay (entry :: rest))).2.Holds base := by
      simp only [newFrame, Holds, Array.size_push]
      exact Nat.lt_succ_of_lt hbase
    simp only [extend, List.isEmpty_cons, Bool.false_eq_true, if_false]
    rw [link?_link _ _ hholds, link?_newFrame]

end Store

theorem ExtendedAt.lt_length {moves : List Move} {base made : FrameId} {i : Nat}
    (h : ExtendedAt moves base made i) : i < moves.length := by
  obtain ⟨handle, added, before, hmove, -⟩ := h
  exact (List.getElem?_eq_some_iff.1 hmove).1

namespace Holdings

variable {before after holdings : Holdings} {move : Move} {moves : List Move}
  {base made id : FrameId} {handle i : Nat} {alive : Set FrameId}

theorem exists_of_extended? (h : before.move? move = some after)
    (hbase : before.extended? move = some base) :
    ∃ handle added, move = .perform (.extend handle added) ∧ added.bindings ≠ [] ∧
      before.frame? handle = some base ∧
      after.store = (before.store.extend base added.bindings).2 := by
  unfold extended? at hbase
  split at hbase
  · rename_i handle added
    split at hbase
    · cases hbase
    · rename_i hadded
      obtain ⟨handles, hperform, rfl, -⟩ := exists_perform? h
      rw [Handles.perform?, getElem?_of_frame? hbase] at hperform
      cases hperform
      exact ⟨handle, added, rfl, by simpa using hadded, hbase, rfl⟩
  · cases hbase

/-- A move sets the link of the frame that it extends. -/
theorem link?_of_extended? (hsound : before.handles.Sound) (h : before.move? move = some after)
    (hbase : before.extended? move = some base) :
    after.store.Holds ⟨before.store.frames.size⟩ ∧
      ∀ id, after.store.link? id =
        if base = id then some ⟨before.store.frames.size⟩ else before.store.link? id := by
  obtain ⟨handle, added, rfl, hadded, hframe, hstore⟩ := exists_of_extended? h hbase
  obtain ⟨hid, hsize, -⟩ := Setting.extend_of_ne_nil before.store base hadded
  have hheld := hsound.held base (List.mem_of_getElem? (getElem?_of_frame? hframe))
  rw [hstore]
  refine ⟨?_, fun id => ?_⟩
  · rw [Store.Holds, hsize]
    exact Nat.lt_succ_self _
  · rw [← hid]
    exact Store.link?_extend before.store id hheld hadded

/-- A move that extends no frame sets no link. -/
theorem link?_of_not_extended? (hsound : before.handles.Sound)
    (h : before.move? move = some after) (hnone : before.extended? move = none) :
    after.store.link? id = before.store.link? id := by
  rcases move?_cases hsound h with ⟨op, rfl⟩ | ⟨-, hstore, -⟩
  · obtain ⟨handles, hperform, rfl, hthrough, -⟩ := exists_perform? h
    cases op with
    | new | fromBindings =>
      cases hperform
      exact Store.link?_newFrame before.store id _
    | clone handle =>
      obtain ⟨frame, -, rfl⟩ := Option.map_eq_some_iff.1 hperform
      rfl
    | define handle name value =>
      obtain ⟨frame, -, rfl⟩ := Option.map_eq_some_iff.1 hperform
      exact Store.link?_update before.store id frame (·.set name value)
    | assign handle name value =>
      obtain ⟨frame, -, rfl⟩ := Option.map_eq_some_iff.1 hperform
      exact Store.link?_assign before.store id frame name value
    | extend handle added =>
      obtain ⟨frame, hframe⟩ := hthrough handle rfl
      have hadded : added.bindings = [] := by simpa [extended?, hframe] using hnone
      rw [Handles.perform?, getElem?_of_frame? hframe] at hperform
      cases hperform
      simp [hadded, Holdings.store, Handles.hold, Store.extend_nil]
  · rw [hstore]

/-! ### The most recent extension -/

/-- After one more move the extensions are those from before and that of the move. -/
theorem extendedAt_concat_iff (hbefore : after? moves = some before)
    (h : before.move? move = some after) :
    ExtendedAt (moves ++ [move]) base made i ↔ ExtendedAt moves base made i ∨
      i = moves.length ∧ before.extended? move = some base ∧
        made = ⟨before.store.frames.size⟩ := by
  rcases Nat.lt_trichotomy i moves.length with hlt | heq | hgt
  · unfold ExtendedAt
    rw [List.getElem?_append_left hlt, List.take_append_of_le_length (Nat.le_of_lt hlt)]
    simp [Nat.ne_of_lt hlt]
  · subst heq
    constructor
    · rintro ⟨handle, added, other, hmove, hadded, hother, hframe, rfl⟩
      rw [List.getElem?_concat_length] at hmove
      rw [List.take_left, hbefore] at hother
      cases hmove
      cases hother
      refine .inr ⟨rfl, ?_, (Setting.extend_of_ne_nil before.store base hadded).1⟩
      simp [extended?, hadded, hframe]
    · rintro (hold | ⟨-, hextended, rfl⟩)
      · exact absurd hold.lt_length (Nat.lt_irrefl _)
      · obtain ⟨handle, added, rfl, hadded, hframe, -⟩ := exists_of_extended? h hextended
        refine ⟨handle, added, before, List.getElem?_concat_length, hadded, ?_, hframe, ?_⟩
        · rw [List.take_left, hbefore]
        · exact (Setting.extend_of_ne_nil before.store base hadded).1.symm
  · have hne := Nat.ne_of_gt hgt
    constructor
    · intro hat
      have hlt := hat.lt_length
      rw [List.length_append, List.length_singleton] at hlt
      omega
    · rintro (hold | ⟨heq, -⟩)
      · exact absurd hold.lt_length (Nat.lt_asymm hgt)
      · exact absurd heq hne

theorem latestMade_concat_of_extended (hbefore : after? moves = some before)
    (h : before.move? move = some after) (hbase : before.extended? move = some base) :
    LatestMade (moves ++ [move]) base made ↔ made = ⟨before.store.frames.size⟩ := by
  have hnow : ExtendedAt (moves ++ [move]) base ⟨before.store.frames.size⟩ moves.length :=
    (extendedAt_concat_iff hbefore h).2 (.inr ⟨rfl, hbase, rfl⟩)
  constructor
  · rintro ⟨i, hat, hlast⟩
    rcases (extendedAt_concat_iff hbefore h).1 hat with hold | ⟨-, -, hmade⟩
    · exact absurd (hlast _ _ hnow) (Nat.not_le_of_lt hold.lt_length)
    · exact hmade
  · rintro rfl
    refine ⟨moves.length, hnow, fun j other hother => ?_⟩
    have hlt := hother.lt_length
    rw [List.length_append, List.length_singleton] at hlt
    omega

theorem latestMade_concat_of_not_extended (hbefore : after? moves = some before)
    (h : before.move? move = some after) (hbase : before.extended? move ≠ some base) :
    LatestMade (moves ++ [move]) base made ↔ LatestMade moves base made := by
  unfold LatestMade
  simp only [extendedAt_concat_iff hbefore h, hbase, false_and, and_false, or_false]

/-- The link of a frame leads to the frame that was made by its most recent extension. -/
theorem link?_eq_some_iff (h : after? moves = some holdings) :
    holdings.store.link? base = some made ↔ LatestMade moves base made := by
  induction moves using List.reverseRecOn generalizing holdings with
  | nil =>
    cases h
    constructor
    · intro hlink
      cases hlink
    · rintro ⟨i, hat, -⟩
      exact absurd hat.lt_length (Nat.not_lt_zero i)
  | append_singleton moves move ih =>
    obtain ⟨before, hbefore, hmove⟩ := exists_of_after?_concat h
    have hsound := sound_of_after? hbefore
    by_cases hextended : before.extended? move = some base
    · rw [(link?_of_extended? hsound hmove hextended).2, if_pos rfl,
        latestMade_concat_of_extended hbefore hmove hextended, Option.some.injEq, eq_comm]
    · rw [latestMade_concat_of_not_extended hbefore hmove hextended, ← ih hbefore]
      cases hnone : before.extended? move with
      | none => rw [link?_of_not_extended? hsound hmove hnone]
      | some other =>
        have hne : other ≠ base := fun heq => hextended (heq ▸ hnone)
        rw [(link?_of_extended? hsound hmove hnone).2, if_neg hne]

theorem holds_of_latestMade (h : after? moves = some holdings)
    (hmade : LatestMade moves base made) : holdings.store.Holds made := by
  induction moves using List.reverseRecOn generalizing holdings with
  | nil =>
    obtain ⟨i, hat, -⟩ := hmade
    exact absurd hat.lt_length (Nat.not_lt_zero i)
  | append_singleton moves move ih =>
    obtain ⟨before, hbefore, hmove⟩ := exists_of_after?_concat h
    have hsound := sound_of_after? hbefore
    by_cases hextended : before.extended? move = some base
    · rw [(latestMade_concat_of_extended hbefore hmove hextended).1 hmade]
      exact (link?_of_extended? hsound hmove hextended).1
    · have hold := ih hbefore
        ((latestMade_concat_of_not_extended hbefore hmove hextended).1 hmade)
      exact Nat.lt_of_lt_of_le hold (changes_of_move? hsound hmove).size_le

/-- The latest extension is the frame that was made last, if it is alive. -/
theorem latest?_eq_some_iff (h : Lives moves holdings alive) :
    holdings.latest? base = some made ↔ LatestMade moves base made ∧ made ∈ alive := by
  rw [latest?, Store.latest?_eq_some_iff, (settled_of_lives h).eq_survivors]
  exact and_congr_left' (link?_eq_some_iff (after?_of_lives h))

theorem Settled.mem_iff_owned (h : holdings.Settled alive) :
    id ∈ alive ↔ holdings.store.Owned holdings.held alive id :=
  ⟨h.owned id, h.encloses.mem_of_owned⟩

/-- An extension by nothing gives a further handle to a frame that is held already. -/
theorem latest?_of_extend_nil {next : Holdings} {added : BindingMap} (hadded : added.bindings = [])
    (h : holdings.move? (.perform (.extend handle added)) = some next) :
    next.store = holdings.store ∧ ∀ base, next.latest? base = holdings.latest? base := by
  obtain ⟨handles, hperform, rfl, hthrough, -⟩ := exists_perform? h
  obtain ⟨frame, hframe⟩ := hthrough handle rfl
  rw [Handles.perform?, getElem?_of_frame? hframe, hadded, Option.map_some,
    Store.extend_nil] at hperform
  cases hperform
  refine ⟨rfl, fun base => ?_⟩
  have hheld (id : FrameId) :
      id ∈ { holdings with
        handles := holdings.handles.hold (frame, holdings.handles.store) }.held ↔
        id ∈ holdings.held := by
    constructor
    · intro hid
      rcases mem_held_hold holdings _ hid with hold | rfl
      · exact hold
      · exact mem_held_of_frame? hframe
    · intro hid
      refine mem_held_iff.2 ((mem_held_iff.1 hid).imp_left (Exists.imp fun other hother => ?_))
      obtain ⟨hlive, hold⟩ := frame?_eq_some_iff.1 hother
      have hgrown := Handles.getElem?_of_grown (List.prefix_append _ [frame]) hold
      exact frame?_eq_some_iff.2 ⟨hlive, hgrown⟩
  unfold latest? Store.latest?
  rw [Store.survivors_congr hheld]
  rfl

theorem isSome_perform? {op : Operation}
    (hthrough : ∀ handle, op.through? = some handle → (holdings.frame? handle).isSome)
    (hvalues : ∀ value ∈ op.values, ∀ frame, value.captured? = some frame →
      frame ∈ holdings.held) :
    (holdings.move? (.perform op)).isSome := by
  have hframes : op.through?.all (fun handle => (holdings.frame? handle).isSome) = true := by
    cases hop : op.through? with
    | none => rfl
    | some handle => exact hthrough handle hop
  have haffords : op.values.all holdings.affords = true := by
    refine List.all_eq_true.2 fun value hvalue => ?_
    unfold affords
    cases hcaptured : value.captured? with
    | none => rfl
    | some frame => simpa using hvalues value hvalue frame hcaptured
  simp only [move?, hframes, haffords, Bool.and_self, if_true, Option.isSome_map]
  cases op with
  | new | fromBindings => rfl
  | clone handle | define handle | assign handle | extend handle =>
    obtain ⟨frame, hframe⟩ := Option.isSome_iff_exists.1 (hthrough handle rfl)
    rw [Handles.perform?, getElem?_of_frame? hframe]
    rfl

/-- The link of a frame leads to the frame that was made by its most recent extension by some
bindings, as long as that frame has an owner, and then to nothing; and whatever the links of a store
are, operations and evaluation have the same results. -/
theorem links_lead_to_latest_extensions (h : after? moves = some holdings) :
    LinksLeadOn moves holdings ∧
      ∀ first second : Store, first.EqualButLinks second → first.Interchangeable second := by
  refine ⟨⟨fun op => isSome_perform?, ?_, exists_lives h, ?_, ?_, ?_, ?_⟩,
    fun first second hequal => hequal.interchangeable⟩
  · intro handle hframe
    rwa [move?, Option.isSome_map]
  · intro alive other halive hother
    rw [(settled_of_lives halive).eq_survivors, (settled_of_lives hother).eq_survivors]
  · intro alive halive base made
    rw [latest?_eq_some_iff halive, (settled_of_lives halive).mem_iff_owned]
  · intro alive halive base made hmade hgone more later hlater hstill
    obtain ⟨-, left, hleft, hkept⟩ := exists_lives_append halive hlater
    by_contra hnone
    obtain ⟨other, hother⟩ := Option.ne_none_iff_exists'.1 hnone
    obtain ⟨hlatest, halive'⟩ := (latest?_eq_some_iff hleft).1 hother
    obtain rfl : made = other := by
      have hlink := (link?_eq_some_iff hlater).2 hstill
      exact Option.some.inj (hlink.symm.trans ((link?_eq_some_iff hlater).2 hlatest))
    have hmem := hkept made halive' (holds_of_latestMade h hmade)
    exact hgone ((settled_of_lives halive).mem_iff_owned.1 hmem)
  · exact fun handle next hnext => latest?_of_extend_nil rfl hnext

/-- Two extensions of a frame.  The first one binds a closure that was made in it, and so is alive
when its handle is dropped; the second one is gone when its handle is dropped. -/
def abandoned : List Move :=
  [.perform .new,
    .perform (.extend 0 ⟨[(⟨1⟩, .str "first")], by simp [Bindings.keys]⟩),
    .perform (.define 1 ⟨2⟩ (.closure ⟨[], ⟨0⟩, ⟨1⟩, 0⟩)), .drop 1,
    .perform (.extend 0 ⟨[(⟨1⟩, .str "second")], by simp [Bindings.keys]⟩), .drop 2]

theorem links_lead_to_latest_extensions_abandoned :
    ∃ mid holdings, after? (abandoned.take 4) = some mid ∧ after? abandoned = some holdings ∧
      LinksLeadOn (abandoned.take 4) mid ∧ LinksLeadOn abandoned holdings ∧
      mid.latest? ⟨0⟩ = some ⟨1⟩ ∧ LatestMade abandoned ⟨0⟩ ⟨2⟩ ∧
      holdings.latest? ⟨0⟩ = none ∧ ⟨1⟩ ∈ holdings.store.survivors holdings.held ∧
      holdings.store.Interchangeable holdings.store.unlinked ∧
      holdings.store.unlinked.link? ⟨0⟩ = none := by
  have hmid : (after? (abandoned.take 4)).isSome := rfl
  have hafter : (after? abandoned).isSome := rfl
  obtain ⟨mid, hmid⟩ := Option.isSome_iff_exists.1 hmid
  obtain ⟨holdings, hholdings⟩ := Option.isSome_iff_exists.1 hafter
  have hlinks := (links_lead_to_latest_extensions hmid).1
  obtain ⟨hlinks', hequal⟩ := links_lead_to_latest_extensions hholdings
  have hforgotten := hequal holdings.store holdings.store.unlinked
    (Store.unlinked_unlinked holdings.store).symm
  have hmade : LatestMade abandoned ⟨0⟩ ⟨2⟩ := by
    refine (link?_eq_some_iff hholdings).1 ?_
    cases hholdings
    rfl
  cases hmid
  cases hholdings
  exact ⟨_, _, rfl, rfl, hlinks, hlinks', rfl, hmade, rfl, by decide, hforgotten,
    Store.link?_unlinked _ _⟩

end Holdings

end FlatScope
