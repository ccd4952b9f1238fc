import FlatScope.Store.Basic

/-!
# Owners of frames

A frame is owned by the handles that are held outside the store, and by the closures in the bindings
of frames that are themselves not gone.  A frame is gone when its last owner is gone; frames that own
each other in a circle stay.  The link from a frame to the frame made from it last owns nothing, and
leads nowhere once that frame is gone.
-/

namespace FlatScope.Store

/-- Whether a frame binds a closure that was made in another given frame. -/
def captures (store : Store) (owner : FrameId) (owned : FrameId) : Bool :=
  (store.bindings owner).any fun (_, value) =>
    match value with
    | .closure closure => closure.frame == owned
    | _ => false

/-- Whether a frame has an owner among the held frames and the frames that stay. -/
def isOwned (store : Store) (held staying : List FrameId) (id : FrameId) : Bool :=
  held.contains id || staying.any fun owner => store.captures owner id

/-- Removes frames without an owner, in as many rounds as given. -/
def sweep (store : Store) (held : List FrameId) : (rounds : Nat) → List FrameId → List FrameId
  | 0, staying => staying
  | rounds + 1, staying => store.sweep held rounds (staying.filter (store.isOwned held staying))

/-- The frames that are not gone, when the given frames are held. -/
def survivors (store : Store) (held : List FrameId) : List FrameId :=
  let all := (List.range store.frames.size).map FrameId.mk
  store.sweep held all.length all

/-- The frame that was made last from a given frame, if it is not gone. -/
def latest? (store : Store) (held : List FrameId) (id : FrameId) : Option FrameId :=
  match (store.frame? id).bind Frame.next with
  | some next => if (store.survivors held).contains next then some next else none
  | none => none

end FlatScope.Store
