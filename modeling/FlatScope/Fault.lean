/-!
# Faults

What can go wrong in a program that is evaluated, the texts that report it, and the backtrace of the
calls that were open.
-/

namespace FlatScope

/-! ### Causes -/

/-- Why an evaluation fails.  Names and types are given by their texts. -/
inductive Fault where
  /-- An integer literal that is too large or too small. -/
  | integerRange (literal : Int)
  /-- A reference to a name that the current frame does not bind. -/
  | unboundIdentifier (name : String)
  /-- An assignment to a name that the current frame does not bind. -/
  | unassignedVariable (name : String)
  /-- A form that the language does not know. -/
  | unknownForm (tag : String)
  /-- A value of the wrong type. -/
  | typeMismatch (context expected got : String)
  /-- A value in operator position that is neither native nor closure. -/
  | notCallable (typeName : String)
  /-- A call with the wrong number of arguments. -/
  | arityMismatch (name : String) (expected got : Nat) (atLeast : Bool)
  /-- A parameter list that names a parameter twice. -/
  | duplicateParameter (name : String)
  /-- A call deeper than the limit. -/
  | stackOverflow (depth : Nat)
  /-- A result that does not fit in a word. -/
  | integerOverflow (operation : String)
deriving DecidableEq

namespace Fault

/-- The fault of a conditional test that is no boolean. -/
def nonBooleanTest (got : String) : Fault :=
  .typeMismatch "conditional test must be boolean" "bool" got

def argumentWords (count : Nat) (atLeast : Bool) : String :=
  (if atLeast then "at least " else "") ++ toString count ++
    (if count = 1 then " argument" else " arguments")

def message : Fault → String
  | .integerRange literal => "improper number " ++ toString literal ++ ": not a 64-bit integer"
  | .unboundIdentifier name => "unbound identifier: " ++ name
  | .unassignedVariable name => "cannot assign to " ++ name ++ ": no existing binding"
  | .unknownForm tag => "unknown expression type: " ++ tag
  | .typeMismatch context expected got => context ++ ": expected " ++ expected ++ ", got " ++ got
  | .notCallable typeName => typeName ++ " is not callable"
  | .arityMismatch name expected got atLeast =>
    (if name = "" then "expected " else name ++ " expects ") ++
      argumentWords expected atLeast ++ ", got " ++ toString got
  | .duplicateParameter name => "duplicate parameter name: " ++ name
  | .stackOverflow depth => "maximum recursion depth exceeded (limit: " ++ toString depth ++ ")"
  | .integerOverflow operation => "integer overflow in " ++ operation

end Fault

/-! ### Backtraces -/

/-- The names of open calls, the innermost first. -/
structure Backtrace where
  frames : List String
deriving DecidableEq

/-- The text of a backtrace: nothing for no calls, else a heading and a numbered line for each. -/
def Backtrace.text (backtrace : Backtrace) : String :=
  if backtrace.frames.isEmpty then ""
  else "stack backtrace:\n" ++
    String.join (backtrace.frames.zipIdx.map fun (name, i) => "  " ++ toString i ++ ": " ++ name ++ "\n")

/-- A fault on its way out of the calls it arose in. -/
structure Raised where
  fault : Fault
  backtrace : Option Backtrace
deriving DecidableEq

end FlatScope
