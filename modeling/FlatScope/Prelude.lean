import FlatScope.Store.Basic

/-!
# Natives and the first frame

What the natives compute, and the frame that every program starts with.  A native checks the number
of its arguments, then their types from left to right, then whether the exact result is a word.
-/

namespace FlatScope

/-! ### Natives -/

namespace Native

/-- The integer that a native called `name` takes as an argument. -/
def expectInt (name : String) : Primitive → Except Fault Word
  | .int value => .ok value
  | other => .error (.typeMismatch name "int" other.typeName)

def oneInt (name : String) : List Primitive → Except Fault Word
  | [a] => expectInt name a
  | args => .error (.arityMismatch name 1 args.length false)

def twoInts (name : String) : List Primitive → Except Fault (Word × Word)
  | [a, b] => do
    let a ← expectInt name a
    let b ← expectInt name b
    .ok (a, b)
  | args => .error (.arityMismatch name 2 args.length false)

/-- The word with an exact result. -/
def exactly (name : String) (result : Int) : Except Fault Word :=
  match Word.ofInt? result with
  | some word => .ok word
  | none => .error (.integerOverflow name)

/-- Multiplies arguments into a product from left to right. -/
def product (name : String) (done : Word) : List Primitive → Except Fault Word
  | [] => .ok done
  | arg :: rest => do
    let factor ← expectInt name arg
    let done ← exactly name (done.val * factor.val)
    product name done rest

def apply (native : Native) (args : List Primitive) : Except Fault Primitive :=
  match native with
  | .add => do
    let (a, b) ← twoInts native.name args
    return .int (← exactly native.name (a.val + b.val))
  | .sub => do
    let (a, b) ← twoInts native.name args
    return .int (← exactly native.name (a.val - b.val))
  | .mul => do
    if args.isEmpty then throw (.arityMismatch native.name 1 0 true)
    return .int (← product native.name ⟨1, by decide⟩ args)
  | .eq => do
    let (a, b) ← twoInts native.name args
    return .bool (a.val == b.val)
  | .isZero => do
    let a ← oneInt native.name args
    return .bool (a.val == 0)

/-- The primitives in the arguments of a native; the first callable is a fault. -/
def unwrap (native : Native) : List Value → Except Fault (List Primitive)
  | [] => .ok []
  | arg :: rest =>
    match arg.toPrimitive? with
    | none => .error (.typeMismatch native.name "primitive" arg.typeName)
    | some first => do
      let others ← unwrap native rest
      .ok (first :: others)

def call (native : Native) (args : List Value) : Except Fault Value := do
  let args ← native.unwrap args
  let result ← native.apply args
  return result.toValue

end Native

/-! ### The first frame -/

namespace Prelude

/-- The names that every program can use, in the order in which they are bound. -/
def entries : List (String × Value) :=
  Native.all.map (fun native => (native.name, .native native)) ++
    [("true", .bool true), ("false", .bool false)]

/-- Binds texts in a frame from left to right; each gets a name first. -/
def defineAll (names : NameTable) (store : Store) (id : FrameId) :
    List (String × Value) → NameTable × Store
  | [] => (names, store)
  | (text, value) :: rest =>
    let (name, names) := names.intern text
    defineAll names (store.define id name value) id rest

def seed (names : NameTable) (store : Store) (id : FrameId) : NameTable × Store :=
  defineAll names store id entries

def frame (names : NameTable) (store : Store) : FrameId × NameTable × Store :=
  let (id, store) := store.newFrame []
  (id, seed names store id)

end Prelude

end FlatScope
