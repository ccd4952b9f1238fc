import FlatScope.Proofs.Tree.Entry
import FlatScope.Store.Ownership
import Mathlib.Data.Set.Card

/-!
# Frames that lose their last owner

A frame has an owner if it is held, or if a frame that is alive binds a closure that was made in it.
Frames without an owner are freed one after another, in any order.  Whichever order it is, the frames
that remain are the survivors (`Frees.eq_survivors`): the largest set of frames in which each has an
owner.
-/

namespace FlatScope

theorem Bindings.find?_of_mem {bindings : Bindings} {name : Name} {value : Value}
    (hnodup : bindings.keys.Nodup) (h : (name, value) ∈ bindings) :
    bindings.find? name = some value := by
  induction bindings with
  | nil => cases h
  | cons entry rest ih =>
    obtain ⟨key, first⟩ := entry
    obtain ⟨hkey, hrest⟩ := List.nodup_cons.1 hnodup
    rcases List.mem_cons.1 h with heq | hmem
    · cases heq
      simp [find?]
    · have hne : key ≠ name := by
        rintro rfl
        exact hkey (List.mem_map.2 ⟨_, hmem, rfl⟩)
      rw [find?, if_neg hne, ih hrest hmem]

namespace Store

/-! ### Owners -/

/-- A frame binds a name to a closure that was made in a given frame. -/
def Captures (store : Store) (owner owned : FrameId) : Prop :=
  ∃ name closure, store.lookup owner name = some (.closure closure) ∧ closure.frame = owned

/-- A frame has an owner, when the given frames are held and are alive. -/
def Owned (store : Store) (held : List FrameId) (alive : Set FrameId) (id : FrameId) : Prop :=
  id ∈ held ∨ ∃ owner ∈ alive, store.Captures owner id

/-- Frames without an owner are freed one after another, until every frame has an owner. -/
inductive Frees (store : Store) (held : List FrameId) : Set FrameId → Set FrameId → Prop where
  | done {alive : Set FrameId} (howned : ∀ id ∈ alive, store.Owned held alive id) :
      Frees store held alive alive
  | free {alive after : Set FrameId} {id : FrameId} (halive : id ∈ alive)
      (hunowned : ¬ store.Owned held alive id) (rest : Frees store held (alive \ {id}) after) :
      Frees store held alive after

variable {store : Store} {held : List FrameId} {alive after : Set FrameId} {id : FrameId}

theorem Owned.mono {more : Set FrameId} (h : store.Owned held alive id) (hsub : alive ⊆ more) :
    store.Owned held more id :=
  h.imp_right fun ⟨owner, howner, hcaptures⟩ => ⟨owner, hsub howner, hcaptures⟩

theorem Captures.holds {owner : FrameId} (h : store.Captures owner id) : store.Holds owner := by
  obtain ⟨name, closure, hlookup, -⟩ := h
  have hbound : store.contains owner name = true := Option.isSome_iff_exists.2 ⟨_, hlookup⟩
  exact holds_of_contains hbound

theorem exists_frees (store : Store) (held : List FrameId) (hfinite : alive.Finite) :
    ∃ after, store.Frees held alive after := by
  induction hn : alive.ncard using Nat.strong_induction_on generalizing alive with
  | _ n ih =>
    by_cases howned : ∀ id ∈ alive, store.Owned held alive id
    · exact ⟨alive, .done howned⟩
    · push Not at howned
      obtain ⟨id, halive, hunowned⟩ := howned
      have hfewer := Set.ncard_sdiff_singleton_lt_of_mem halive hfinite
      obtain ⟨after, hafter⟩ := ih _ (hn ▸ hfewer) (hfinite.subset Set.sdiff_subset) rfl
      exact ⟨after, .free halive hunowned hafter⟩

theorem finite_holds (store : Store) : {id | store.Holds id}.Finite := by
  refine (Set.finite_lt_nat store.frames.size).preimage (f := FrameId.index) ?_
  intro first _ second _ heq
  cases first
  cases second
  cases heq
  rfl

/-! ### Sets that keep what is owned -/

/-- The frames that are alive include what is held and what they capture, and all frames that own
each other. -/
structure Encloses (store : Store) (held : List FrameId) (alive : Set FrameId) : Prop where
  holds : ∀ id ∈ alive, store.Holds id
  roots : ∀ id ∈ held, id ∈ alive
  captured : ∀ owner ∈ alive, ∀ id, store.Captures owner id → id ∈ alive
  greatest : ∀ others : Set FrameId, (∀ id ∈ others, store.Holds id) →
    (∀ id ∈ others, store.Owned held others id) → others ⊆ alive

theorem Encloses.mem_of_owned (h : store.Encloses held alive) (howned : store.Owned held alive id) :
    id ∈ alive := by
  rcases howned with hheld | ⟨owner, howner, hcaptures⟩
  · exact h.roots id hheld
  · exact h.captured owner howner id hcaptures

theorem Encloses.free (h : store.Encloses held alive) (hunowned : ¬ store.Owned held alive id) :
    store.Encloses held (alive \ {id}) where
  holds other hother := h.holds other hother.1
  roots other hheld := ⟨h.roots other hheld, fun heq => hunowned (heq ▸ .inl hheld)⟩
  captured owner howner other hcaptures :=
    ⟨h.captured owner howner.1 other hcaptures,
      fun heq => hunowned (.inr ⟨owner, howner.1, heq ▸ hcaptures⟩)⟩
  greatest others hholds howned := by
    have hsub := h.greatest others hholds howned
    intro other hother
    refine ⟨hsub hother, ?_⟩
    rintro rfl
    exact hunowned ((howned other hother).mono hsub)

theorem Frees.encloses (h : store.Frees held alive after) (hencloses : store.Encloses held alive) :
    store.Encloses held after := by
  induction h with
  | done => exact hencloses
  | free _ hunowned _ ih => exact ih (hencloses.free hunowned)

theorem Frees.owned (h : store.Frees held alive after) :
    ∀ id ∈ after, store.Owned held after id := by
  induction h with
  | done howned => exact howned
  | free _ _ _ ih => exact ih

theorem Frees.subset (h : store.Frees held alive after) : after ⊆ alive := by
  induction h with
  | done => exact Set.Subset.rfl
  | free _ _ _ ih => exact ih.trans Set.sdiff_subset

/-! ### Survivors -/

/-- The frame that the link of a frame leads to. -/
def link? (store : Store) (id : FrameId) : Option FrameId := (store.frame? id).bind Frame.next

theorem captures_eq_true_iff {owner : FrameId} (hnodup : (store.bindings owner).keys.Nodup) :
    store.captures owner id = true ↔ store.Captures owner id := by
  rw [captures, List.any_eq_true]
  constructor
  · rintro ⟨⟨name, value⟩, hmem, hvalue⟩
    cases value with
    | closure closure =>
      exact ⟨name, closure, Bindings.find?_of_mem hnodup hmem, by simpa using hvalue⟩
    | _ => cases hvalue
  · rintro ⟨name, closure, hlookup, rfl⟩
    exact ⟨(name, .closure closure), Bindings.mem_of_find? hlookup, by simp⟩

variable (hnodup : ∀ frame, (store.bindings frame).keys.Nodup)
include hnodup

theorem isOwned_eq_true_iff {staying : List FrameId} :
    store.isOwned held staying id = true ↔ store.Owned held {frame | frame ∈ staying} id := by
  simp [isOwned, Owned, captures_eq_true_iff (hnodup _)]

omit hnodup in
theorem sweep_subset (store : Store) (held : List FrameId) (rounds : Nat) (staying : List FrameId) :
    store.sweep held rounds staying ⊆ staying := by
  induction rounds generalizing staying with
  | zero => exact List.Subset.refl staying
  | succ rounds ih => exact fun id hid => List.mem_of_mem_filter (ih _ hid)

/-- A frame of a set in which each has an owner is never removed. -/
theorem subset_sweep (howned : ∀ id ∈ alive, store.Owned held alive id) (rounds : Nat)
    {staying : List FrameId} (hsub : ∀ id ∈ alive, id ∈ staying) :
    ∀ id ∈ alive, id ∈ store.sweep held rounds staying := by
  induction rounds generalizing staying with
  | zero => exact hsub
  | succ rounds ih =>
    refine ih fun id hid => List.mem_filter.2 ⟨hsub id hid, ?_⟩
    exact (isOwned_eq_true_iff hnodup).2 ((howned id hid).mono hsub)

omit hnodup in
theorem sweep_eq_self {staying : List FrameId}
    (hstable : staying.filter (store.isOwned held staying) = staying) (rounds : Nat) :
    store.sweep held rounds staying = staying := by
  induction rounds with
  | zero => rfl
  | succ rounds ih => rw [sweep, hstable, ih]

omit hnodup in
/-- There are rounds enough if there is one for each frame. -/
theorem sweep_stable {rounds : Nat} {staying : List FrameId} (h : staying.length ≤ rounds) :
    (store.sweep held rounds staying).filter
      (store.isOwned held (store.sweep held rounds staying)) = store.sweep held rounds staying := by
  induction rounds generalizing staying with
  | zero =>
    obtain rfl := List.eq_nil_of_length_eq_zero (Nat.le_zero.1 h)
    rfl
  | succ rounds ih =>
    by_cases hstable : staying.filter (store.isOwned held staying) = staying
    · rw [sweep_eq_self hstable, hstable]
    · -- A round that removes no frame is the last one that matters.
      refine ih ?_
      have hle := List.length_filter_le (store.isOwned held staying) staying
      have hne : (staying.filter (store.isOwned held staying)).length ≠ staying.length :=
        fun heq => hstable (List.filter_eq_self.2 (List.length_filter_eq_length_iff.1 heq))
      omega

omit hnodup in
theorem holds_of_mem_survivors (h : id ∈ store.survivors held) : store.Holds id := by
  obtain ⟨index, hindex, rfl⟩ := List.mem_map.1 (sweep_subset _ _ _ _ h)
  exact List.mem_range.1 hindex

omit hnodup in
/-- What the link of a frame leads to counts if it survives. -/
theorem latest?_eq_some_iff {base made : FrameId} :
    store.latest? held base = some made ↔
      store.link? base = some made ∧ made ∈ store.survivors held := by
  unfold latest? link?
  cases (store.frame? base).bind Frame.next with
  | none => simp
  | some next =>
    by_cases hnext : next ∈ store.survivors held
    · simp only [List.contains_iff_mem, hnext, if_true, Option.some.injEq]
      exact ⟨fun heq => ⟨heq, heq ▸ hnext⟩, And.left⟩
    · simp only [List.contains_iff_mem, hnext, if_false, Option.some.injEq]
      constructor
      · intro hfound
        cases hfound
      · rintro ⟨rfl, hmem⟩
        exact absurd hmem hnext

omit hnodup in
/-- It plays no part how often and in which order frames are held. -/
theorem survivors_congr {others : List FrameId} (h : ∀ id, id ∈ held ↔ id ∈ others) :
    store.survivors held = store.survivors others := by
  have howned : store.isOwned held = store.isOwned others := by
    funext staying id
    simp [isOwned, h]
  have hsweep (rounds : Nat) (staying : List FrameId) :
      store.sweep held rounds staying = store.sweep others rounds staying := by
    induction rounds generalizing staying with
    | zero => rfl
    | succ rounds ih => rw [sweep, sweep, howned, ih]
  exact hsweep _ _

theorem owned_of_mem_survivors (h : id ∈ store.survivors held) :
    store.Owned held {frame | frame ∈ store.survivors held} id := by
  have hstable : (store.survivors held).filter (store.isOwned held (store.survivors held)) =
      store.survivors held := sweep_stable (Nat.le_refl _)
  exact (isOwned_eq_true_iff hnodup).1 (List.filter_eq_self.1 hstable id h)

theorem mem_survivors_of_owned (hholds : ∀ id ∈ alive, store.Holds id)
    (howned : ∀ id ∈ alive, store.Owned held alive id) (h : id ∈ alive) :
    id ∈ store.survivors held := by
  refine subset_sweep hnodup howned _ (fun other hother => ?_) id h
  exact List.mem_map.2 ⟨other.index, List.mem_range.2 (hholds other hother), rfl⟩

/-- The survivors are the frames that are alive when no frame is left to be freed. -/
theorem Encloses.eq_survivors (h : store.Encloses held alive)
    (howned : ∀ id ∈ alive, store.Owned held alive id) :
    alive = {id | id ∈ store.survivors held} := by
  refine Set.Subset.antisymm ?_ ?_
  · exact fun id hid => mem_survivors_of_owned hnodup h.holds howned hid
  · exact h.greatest _ (fun id hid => holds_of_mem_survivors hid)
      fun id hid => owned_of_mem_survivors hnodup hid

/-- Whatever the order in which frames are freed, the survivors remain. -/
theorem Frees.eq_survivors (h : store.Frees held alive after)
    (hencloses : store.Encloses held alive) : after = {id | id ∈ store.survivors held} :=
  (h.encloses hencloses).eq_survivors hnodup h.owned

end Store

end FlatScope
