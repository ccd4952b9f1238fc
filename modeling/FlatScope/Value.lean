import FlatScope.Fault
import FlatScope.Program.Code
import FlatScope.Text.Quoted
import FlatScope.Word

/-!
# Values

Integers, strings and booleans are primitive; natives and closures can be called.  A closure refers
to the frame it was made in, and has a serial number that tells it apart from every other closure.
-/

namespace FlatScope

/-! ### Primitives -/

/-- A value that natives can work on. -/
inductive Primitive where
  | int (value : Word)
  | str (text : String)
  | bool (value : Bool)
deriving DecidableEq

def Primitive.typeName : Primitive → String
  | .int _ => "int"
  | .str _ => "str"
  | .bool _ => "bool"

/-! ### Callables -/

/-- The functions that every program can use. -/
inductive Native where
  | add
  | sub
  | mul
  | eq
  | isZero
deriving DecidableEq

namespace Native

/-- Every native, in the order in which they are bound. -/
def all : List Native := [add, sub, mul, eq, isZero]

def name : Native → String
  | add => "add"
  | sub => "sub"
  | mul => "mul"
  | eq => "eq"
  | isZero => "zero?"

def ofName? (name : String) : Option Native := all.find? fun native => native.name == name

def describe (native : Native) : String := "NativeFn(" ++ Text.quoted native.name ++ ")"

end Native

/-- The position of a frame in a store. -/
structure FrameId where
  index : Nat
deriving DecidableEq

/-- A function of the program, with the frame that was current when it was made. -/
structure Closure where
  params : List Name
  body : NodeId
  frame : FrameId
  serial : Nat
deriving DecidableEq

/-! ### Values -/

/-- What an expression evaluates to. -/
inductive Value where
  | int (value : Word)
  | str (text : String)
  | bool (value : Bool)
  | native (function : Native)
  | closure (function : Closure)
deriving DecidableEq

def Primitive.toValue : Primitive → Value
  | .int value => .int value
  | .str text => .str text
  | .bool value => .bool value

namespace Value

def typeName : Value → String
  | .int _ => "int"
  | .str _ => "str"
  | .bool _ => "bool"
  | .native _ => "native"
  | .closure _ => "closure"

/-- Whether a value can stand in operator position. -/
def isCallable : Value → Bool
  | .native _ | .closure _ => true
  | _ => false

def toPrimitive? : Value → Option Primitive
  | .int value => some (.int value)
  | .str text => some (.str text)
  | .bool value => some (.bool value)
  | .native _ | .closure _ => none

def text : Value → String
  | .int value => value.decimal
  | .str text => text
  | .bool value => if value then "true" else "false"
  | .native f => "<native " ++ f.name ++ ">"
  | .closure f => "<closure/" ++ toString f.params.length ++ ">"

def describe : Value → String
  | .int value => "Int(" ++ value.decimal ++ ")"
  | .str text => "Str(" ++ Text.quoted text ++ ")"
  | .bool value => "Bool(" ++ (if value then "true" else "false") ++ ")"
  | .native f => "Native(" ++ f.name ++ ")"
  | .closure f =>
    "Closure(params=" ++ toString f.params.length ++ ", body=" ++ f.body.describe ++ ")"

/-- Whether two values are the same: closures by identity, natives by name, all else by content. -/
def same : Value → Value → Bool
  | .int a, .int b => a == b
  | .str a, .str b => a == b
  | .bool a, .bool b => a == b
  | .native a, .native b => a.name == b.name
  | .closure a, .closure b => a.serial == b.serial
  | _, _ => false

/-- The boolean that a conditional test gives. -/
def test : Value → Except Fault Bool
  | .bool value => .ok value
  | other => .error (.nonBooleanTest other.typeName)

theorem isCallable_eq_isNone (value : Value) : value.isCallable = value.toPrimitive?.isNone := by
  cases value <;> rfl

end Value

end FlatScope
