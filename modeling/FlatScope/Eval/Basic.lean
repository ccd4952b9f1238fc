import FlatScope.CallStack
import FlatScope.Config
import FlatScope.Prelude

/-!
# Evaluation: what is fixed, what changes, how it ends

A `Setting` is fixed while a program runs: its code, its names and its scoping mode.  A `Memory`
changes: the frames and the open calls.  An `Outcome` is a value or the reason why there is none: a
fault of the program, or a breach, which is an access outside a table.
-/

namespace FlatScope

/-! ### Outcomes -/

/-- Which table an access left. -/
inductive Breach where
  /-- A span that its table does not reach. -/
  | span
  /-- A name that has no text. -/
  | name
  /-- The end of a call when no call is open. -/
  | calls
deriving DecidableEq

/-- Why an evaluation gives no value. -/
inductive Halt where
  | raised (raised : Raised)
  | breach (breach : Breach)
deriving DecidableEq

/-- A fault that has just arisen, before it has left any call. -/
def Halt.fault (fault : Fault) : Halt := .raised ⟨fault, none⟩

/-- A fault that mentions the text of a name. -/
def NameTable.faultFor (names : NameTable) (name : Name) (fault : String → Fault) : Halt :=
  match names.text? name with
  | some text => .fault (fault text)
  | none => .breach .name

/-- A value, or why there is none. -/
abbrev Outcome : Type := Except Halt Value

/-- An outcome from a computation that can only fault. -/
def Outcome.ofFault (result : Except Fault Value) : Outcome :=
  match result with
  | .ok value => .ok value
  | .error fault => .error (.fault fault)

/-! ### Settings and memories -/

/-- What changes while a program runs. -/
structure Memory where
  store : Store
  calls : CallStack

/-- What is fixed while a program runs. -/
structure Setting where
  code : Code
  names : NameTable
  scoping : Scoping

/-! ### Forms that evaluate nothing else -/

/-- The value of an integer literal.  The least and the greatest word are refused with everything
beyond them. -/
def literalWord (literal : Int) : Except Fault Word :=
  match Word.ofInt? literal with
  | some word =>
    if literal = -9223372036854775808 ∨ literal = 9223372036854775807 then
      .error (.integerRange literal)
    else .ok word
  | none => .error (.integerRange literal)

def evalInt (literal : Int) : Outcome := .ofFault ((literalWord literal).map Value.int)

namespace Setting

def evalStr (setting : Setting) (text : Name) : Outcome :=
  match setting.names.text? text with
  | some text => .ok (.str text)
  | none => .error (.breach .name)

/-- The outcome of an identifier: its value in the current frame. -/
def evalIdent (setting : Setting) (name : Name) (frame : FrameId) (memory : Memory) : Outcome :=
  match memory.store.lookup frame name with
  | some value => .ok value
  | none => .error (setting.names.faultFor name .unboundIdentifier)

def evalUnknown (setting : Setting) (tag : Name) : Outcome :=
  .error (setting.names.faultFor tag .unknownForm)

/-- The outcome of a lambda: a closure that keeps the current frame. -/
def evalLambda (setting : Setting) (params : Span Name) (body : NodeId) (frame : FrameId)
    (memory : Memory) : Outcome × Memory :=
  match params.read? setting.code.params with
  | some params =>
    let (closure, store) := memory.store.newClosure params body frame
    (.ok (.closure closure), { memory with store })
  | none => (.error (.breach .span), memory)

/-- Gives a name of the current frame a new value, which is also the outcome. -/
def assignName (setting : Setting) (name : Name) (value : Value) (frame : FrameId)
    (memory : Memory) : Outcome × Memory :=
  if memory.store.contains frame name then
    (.ok value, { memory with store := memory.store.reassign frame name value })
  else (.error (setting.names.faultFor name .unassignedVariable), memory)

end Setting

end FlatScope
