import FlatScope.Eval.Basic

/-!
# Entering and leaving calls

A call of a closure checks the number of arguments, pairs the parameters with them, extends the base
frame and opens a call on the stack, in this order.  Leaving it gives a fault the backtrace of the
open calls and closes the call.
-/

namespace FlatScope

namespace Closure

/-- The text by which an arity fault knows a callee; empty for a callee without a label. -/
def calleeText? (names : NameTable) : Option Name → Option String
  | none => some ""
  | some name => names.text? name

def checkCount (closure : Closure) (names : NameTable) (args : List Value) (label : Option Name) :
    Except Halt Unit :=
  if closure.params.length = args.length then .ok ()
  else
    match calleeText? names label with
    | some text => .error (.fault (.arityMismatch text closure.params.length args.length false))
    | none => .error (.breach .name)

/-- Pairs parameters with arguments from left to right, up to the shorter list.  A parameter that is
paired already is a fault. -/
def pairUp (names : NameTable) (done : Bindings) : List Name → List Value → Except Halt Bindings
  | param :: params, arg :: args =>
    if done.binds param then .error (names.faultFor param .duplicateParameter)
    else pairUp names (done.set param arg) params args
  | _, _ => .ok done

def bindParams (closure : Closure) (names : NameTable) (args : List Value) :
    Except Halt Bindings :=
  pairUp names [] closure.params args

end Closure

/-- How a call starts: it is over at once, or a body is to be evaluated in a frame. -/
inductive Entry where
  | done (outcome : Outcome)
  | body (node : NodeId) (frame : FrameId)

namespace Setting

/-- A halt with the backtrace of the open calls. -/
def attach (setting : Setting) (calls : CallStack) : Halt → Halt
  | .raised raised =>
    match calls.attach? setting.names raised with
    | some raised => .raised raised
    | none => .breach .name
  | .breach breach => .breach breach

/-- The frame that the body of a closure extends. -/
def baseFrame (setting : Setting) (closure : Closure) (caller : FrameId) : FrameId :=
  match setting.scoping with
  | .lexical => closure.frame
  | .dynamic => caller

def enterClosure (setting : Setting) (closure : Closure) (args : List Value) (caller : FrameId)
    (label : Option Name) (memory : Memory) : Entry × Memory :=
  match closure.checkCount setting.names args label with
  | .error halt => (.done (.error halt), memory)
  | .ok () =>
    match closure.bindParams setting.names args with
    | .error halt => (.done (.error halt), memory)
    | .ok bindings =>
      let (frame, store) := memory.store.extend (setting.baseFrame closure caller) bindings
      match memory.calls.overflow? with
      | some fault =>
        (.done (.error (setting.attach memory.calls (.fault fault))), { memory with store })
      | none => (.body closure.body frame, ⟨store, memory.calls.enter label⟩)

def enter (setting : Setting) (callee : Value) (args : List Value) (caller : FrameId)
    (label : Option Name) (memory : Memory) : Entry × Memory :=
  match callee with
  | .native native => (.done (.ofFault (native.call args)), memory)
  | .closure closure => setting.enterClosure closure args caller label memory
  | other => (.done (.error (.fault (.notCallable other.typeName))), memory)

/-- The outcome of a call whose body had a given outcome. -/
def leaveOutcome (setting : Setting) (calls : CallStack) : Outcome → Outcome
  | .ok value => .ok value
  | .error halt => .error (setting.attach calls halt)

/-- Ends a call of a closure whose body had a given outcome. -/
def leave (setting : Setting) (outcome : Outcome) (memory : Memory) : Outcome × Memory :=
  if memory.calls.isEmpty then (.error (.breach .calls), memory)
  else
    (setting.leaveOutcome memory.calls outcome, { memory with calls := memory.calls.leave })

end Setting

end FlatScope
