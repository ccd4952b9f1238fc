import FlatScope.Store.Bindings

/-!
# Frames and the store

A frame binds all the names that are visible in a scope; it refers to no other frame for its values.
Entering a scope copies the current frame and sets the new names in the copy.  The store keeps every
frame, so a `FrameId` is a handle that can be shared: what is written through one handle is seen
through every handle to the same frame.
-/

namespace FlatScope

/-- One scope: its bindings, and the frame that was made from it last. -/
structure Frame where
  bindings : Bindings
  next : Option FrameId

/-- All frames by id, and the number of closures made so far. -/
structure Store where
  frames : Array Frame
  closures : Nat

namespace Store

def empty : Store := ⟨#[], 0⟩

def frame? (store : Store) (id : FrameId) : Option Frame := store.frames[id.index]?

def Holds (store : Store) (id : FrameId) : Prop := id.index < store.frames.size

def bindings (store : Store) (id : FrameId) : Bindings :=
  match store.frame? id with
  | some frame => frame.bindings
  | none => []

/-- Adds a frame that holds exactly the given bindings. -/
def newFrame (store : Store) (bindings : Bindings) : FrameId × Store :=
  (⟨store.frames.size⟩, { store with frames := store.frames.push ⟨bindings, none⟩ })

/-- Makes a closure, which no other closure is the same as. -/
def newClosure (store : Store) (params : List Name) (body : NodeId) (frame : FrameId) :
    Closure × Store :=
  (⟨params, body, frame, store.closures⟩, { store with closures := store.closures + 1 })

def update (store : Store) (id : FrameId) (change : Bindings → Bindings) : Store :=
  { store with
    frames := store.frames.modify id.index fun frame =>
      { frame with bindings := change frame.bindings } }

/-- Remembers the frame that was made last from a given frame. -/
def link (store : Store) (id next : FrameId) : Store :=
  { store with
    frames := store.frames.modify id.index fun frame => { frame with next := some next } }

def lookup (store : Store) (id : FrameId) (name : Name) : Option Value :=
  (store.bindings id).find? name

def contains (store : Store) (id : FrameId) (name : Name) : Bool := (store.bindings id).binds name

def len (store : Store) (id : FrameId) : Nat := (store.bindings id).length

/-- Binds a name in a frame, whether or not it was bound there. -/
def define (store : Store) (id : FrameId) (name : Name) (value : Value) : Store :=
  store.update id (·.set name value)

/-- Puts another value in the place of the value that a name has in a frame. -/
def reassign (store : Store) (id : FrameId) (name : Name) (value : Value) : Store :=
  store.update id (·.replace name value)

/-- Gives a new value to a name that a frame binds; nothing when the frame does not bind it. -/
def assign (store : Store) (id : FrameId) (name : Name) (value : Value) : Option Store :=
  if store.contains id name then some (store.reassign id name value) else none

/-- The frame for a scope inside a given frame.  With no new bindings it is the given frame itself;
otherwise it is a new frame that holds a copy of the bindings with the new ones set over them. -/
def extend (store : Store) (base : FrameId) (added : Bindings) : FrameId × Store :=
  if added.isEmpty then (base, store)
  else
    let (id, store) := store.newFrame ((store.bindings base).overlay added)
    (id, store.link base id)

def describe (store : Store) (id : FrameId) : String :=
  "Environment \x7b bindings: " ++ toString (store.len id) ++ " \x7d"

/-! ### What the operations do to the bindings -/

theorem bindings_of_not_holds {store : Store} {id : FrameId} (h : ¬ store.Holds id) :
    store.bindings id = [] := by
  unfold bindings frame?
  rw [Array.getElem?_eq_none (Nat.le_of_not_lt h)]

theorem holds_of_contains {store : Store} {id : FrameId} {name : Name}
    (h : store.contains id name = true) : store.Holds id := by
  by_cases hid : store.Holds id
  · exact hid
  · rw [contains, bindings_of_not_holds hid] at h
    cases h

/-- A new frame holds its bindings, and the other frames keep theirs. -/
theorem bindings_newFrame (store : Store) (bindings : Bindings) (id : FrameId) :
    (store.newFrame bindings).2.bindings id =
      if id = (store.newFrame bindings).1 then bindings else store.bindings id := by
  obtain ⟨index⟩ := id
  by_cases h : index = store.frames.size
  · subst h
    simp [newFrame, Store.bindings, frame?]
  · simp [newFrame, Store.bindings, frame?, Array.getElem?_push, h]

theorem bindings_link (store : Store) (id next other : FrameId) :
    (store.link id next).bindings other = store.bindings other := by
  unfold link bindings frame?
  by_cases h : id.index = other.index
  · cases hframe : store.frames[other.index]? <;> simp [Array.getElem?_modify, h, hframe]
  · simp [Array.getElem?_modify, h]

/-- A change of one frame is a change of its bindings alone. -/
theorem bindings_update {store : Store} {id : FrameId} (change : Bindings → Bindings)
    (other : FrameId) (h : store.Holds id) :
    (store.update id change).bindings other =
      if other = id then change (store.bindings id) else store.bindings other := by
  unfold update bindings frame?
  by_cases ho : other = id
  · subst ho
    simp [Array.getElem?_modify, Array.getElem?_eq_getElem h]
  · have hindex : id.index ≠ other.index := fun heq => ho (by
      cases id; cases other; simp_all)
    simp [Array.getElem?_modify, hindex, ho]

/-- Defining a name is seen in the frame it is defined in, under that name. -/
theorem lookup_define {store : Store} {id : FrameId} (name : Name) (value : Value)
    (other : FrameId) (key : Name) (h : store.Holds id) :
    (store.define id name value).lookup other key =
      if other = id ∧ name = key then some value else store.lookup other key := by
  unfold define lookup
  rw [bindings_update _ _ h]
  by_cases ho : other = id
  · subst ho
    by_cases hk : name = key <;> simp [Bindings.find?_set, hk]
  · simp [ho]

/-- Assigning to a bound name is seen in the frame of the name, under that name. -/
theorem lookup_reassign {store : Store} {id : FrameId} {name : Name} (value : Value)
    (other : FrameId) (key : Name) (h : store.contains id name = true) :
    (store.reassign id name value).lookup other key =
      if other = id ∧ name = key then some value else store.lookup other key := by
  unfold reassign lookup
  rw [bindings_update _ _ (holds_of_contains h)]
  by_cases ho : other = id
  · subst ho
    rw [if_pos rfl, Bindings.find?_replace key value h]
    by_cases hk : name = key <;> simp [hk]
  · simp [ho]

theorem extend_nil (store : Store) (base : FrameId) : store.extend base [] = (base, store) := rfl

/-- A frame for a scope with new bindings is a new frame: a copy with the bindings set over it.  The
other frames keep their bindings. -/
theorem bindings_extend (store : Store) (base id : FrameId) {added : Bindings} (h : added ≠ []) :
    (store.extend base added).2.bindings id =
      if id = (store.extend base added).1 then (store.bindings base).overlay added
      else store.bindings id := by
  have hempty : added.isEmpty = false := by
    cases added with
    | nil => exact absurd rfl h
    | cons _ _ => rfl
  simp only [extend, hempty, Bool.false_eq_true, if_false, bindings_link, bindings_newFrame]

end Store

end FlatScope
