import FlatScope.Expr.Basic
import FlatScope.Expr.Shape
import FlatScope.Json.Basic
import FlatScope.Json.Binary64
import FlatScope.Name

/-!
# Expressions from JSON values

`Expr.read` gives the expression that a JSON value encodes, or the first violation of a shape from
left to right.  Texts get their names as they are met, and keep them even if reading fails later; it
fails at a text for which no index is left.
-/

namespace FlatScope

/-! ### Readings -/

/-- Why reading stops. -/
inductive Stop where
  | shape (error : ShapeError)
  /-- A text cannot get a name. -/
  | full (full : Interner.Full)
deriving DecidableEq

def Stop.message : Stop → String
  | .shape error => error.message
  | .full found => found.message

/-- A part of reading: what was read or why it could not be read, and the names after it. -/
structure Reading (α : Type) where
  run : NameTable → Except Stop α × NameTable

namespace Reading

/-- Reads nothing. -/
protected def pure {α : Type} (value : α) : Reading α := ⟨fun names => (.ok value, names)⟩

/-- Reads on with what was read; a failure keeps the names that were given before it. -/
protected def bind {α β : Type} (first : Reading α) (next : α → Reading β) : Reading β where
  run names :=
    match first.run names with
    | (.error stop, names) => (.error stop, names)
    | (.ok value, names) => (next value).run names

instance : Monad Reading where
  pure := Reading.pure
  bind := Reading.bind

/-- Meets a text, which gets a name unless every index is taken. -/
def visit (text : String) : Reading String where
  run names :=
    match names.tryIntern text with
    | .ok (_, names) => (.ok text, names)
    | .error full => (.error (.full full), names)

/-- Stops at a violation. -/
def fail {α : Type} (error : ShapeError) : Reading α := ⟨fun names => (.error (.shape error), names)⟩

end Reading

/-! ### Literals -/

/-- The largest integer literal, `2^127 - 1`. -/
def maxLiteral : Int := 170141183460469231731687303715884105727

/-- The smallest integer literal, `-2^127`. -/
def minLiteral : Int := -170141183460469231731687303715884105728

/-- The integer literal that a number stands for, if the number is whole.  A whole number beyond the
smallest or the largest literal stands for that literal. -/
def Number.literal? : Number → Option Int
  | .exact value => some value
  | .real negative magnitude =>
    (Json.Binary64.whole? magnitude).map fun n =>
      if negative then max minLiteral (-(n : Int)) else min maxLiteral n

namespace Expr

open Reading

/-! ### Parts of forms -/

/-- The text under the key of an identifier. -/
def readName (form : Form) : Json → Reading String
  | .string text => visit text
  | _ => fail (.identifier form)

/-- An identifier in a binding position. -/
def readBinder (form : Form) : Json → Reading String
  | .object [(key, payload)] =>
    if key = Form.identifier.key then readName form payload else fail (.identifier form)
  | _ => fail (.identifier form)

/-- Identifiers in binding positions, from left to right. -/
def readBinders (form : Form) : List Json → Reading (List String)
  | [] => pure []
  | item :: rest => do
    let name ← readBinder form item
    let names ← readBinders form rest
    pure (name :: names)

def readParams : Json → Reading (List String)
  | .object [(key, .array items)] =>
    if key = Form.parameters.key then readBinders .parameters items
    else fail (.wrapper .lambda .parameters)
  | _ => fail (.wrapper .lambda .parameters)

/-! ### Expressions -/

mutual

/-- The expression that a JSON value encodes. -/
def read : Json → Reading Expr
  | .null => do return .unknown (← visit "null")
  | .bool _ => do return .unknown (← visit "bool")
  | .number value =>
    match value.literal? with
    | some literal => pure (.int literal)
    | none => do return .unknown (← visit "number")
  | .string text => do return .str (← visit text)
  | .array _ => do return .unknown (← visit "array")
  | .object [(key, payload)] =>
    match Form.ofKey? key, payload with
    | some .identifier, payload => do return .ident (← readName .identifier payload)
    | some .application, .array [] => fail (.count .application (.atLeast 1) 0)
    | some .application, .array (operator :: operands) => do
      let operator ← read operator
      let operands ← readList operands
      return .apply operator operands
    | some .lambda, .array [params, body] => do
      let params ← readParams params
      let body ← read body
      return .lambda params body
    | some .lambda, .array items => fail (.count .lambda (.exactly 2) items.length)
    | some .block, .array items => do return .block (← readList items)
    | some .cond, .array items => do return .cond (← readClauses items)
    | some .letIn, .array [name, init, body] => do
      let name ← readBinder .letIn name
      let init ← read init
      let body ← read body
      return .letIn name init body
    | some .letIn, .array items => fail (.count .letIn (.exactly 3) items.length)
    | some .assignment, .array [name, value] => do
      let name ← readBinder .assignment name
      let value ← read value
      return .assign name value
    | some .assignment, .array items => fail (.count .assignment (.exactly 2) items.length)
    | some form, _ => fail (.payload form)
    | none, _ => do return .unknown (← visit key)
  | .object fields => fail (.keys fields.length)

def readList : List Json → Reading (List Expr)
  | [] => pure []
  | item :: rest => do
    let item ← read item
    let items ← readList rest
    return item :: items

def readClauses : List Json → Reading (List (Expr × Expr))
  | [] => pure []
  | .object [(key, .array items)] :: rest =>
    if key = Form.clause.key then
      match items with
      | [test, consequence] => do
        let test ← read test
        let consequence ← read consequence
        let clauses ← readClauses rest
        return (test, consequence) :: clauses
      | items => fail (.count .clause (.exactly 2) items.length)
    else fail (.wrapper .cond .clause)
  | _ :: _ => fail (.wrapper .cond .clause)

end

end Expr

end FlatScope
