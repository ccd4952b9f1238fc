import FlatScope.Fault
import FlatScope.Name

/-!
# The stack of calls

The closure calls that are open, the innermost last, with a limit on their number.  A call is known
by the name of its operator, if the operator is an identifier.
-/

namespace FlatScope

/-- The open calls and the limit on their number; no limit when there is none. -/
structure CallStack where
  frames : Array (Option Name)
  limit : Option Nat
deriving DecidableEq

namespace CallStack

def new (limit : Option Nat) : CallStack := ⟨#[], limit⟩

def depth (calls : CallStack) : Nat := calls.frames.size

def isEmpty (calls : CallStack) : Bool := calls.frames.isEmpty

/-- The fault of a further call, if the limit admits none. -/
def overflow? (calls : CallStack) : Option Fault :=
  match calls.limit with
  | some limit => if limit ≤ calls.depth then some (.stackOverflow limit) else none
  | none => none

def enter (calls : CallStack) (label : Option Name) : CallStack :=
  { calls with frames := calls.frames.push label }

def leave (calls : CallStack) : CallStack := { calls with frames := calls.frames.pop }

/-- Opens a call; a call beyond the limit is a fault and is not opened. -/
def push (calls : CallStack) (label : Option Name) : Except Fault CallStack :=
  match calls.overflow? with
  | some fault => .error fault
  | none => .ok (calls.enter label)

/-- Closes the innermost call, if a call is open. -/
def pop? (calls : CallStack) : Option CallStack :=
  if calls.isEmpty then none else some calls.leave

/-- The text by which a backtrace lists a call. -/
def labelText? (names : NameTable) : Option Name → Option String
  | none => some "<lambda>"
  | some name => names.text? name

/-- The texts of calls, if every name among them has a text. -/
def labelTexts? (names : NameTable) : List (Option Name) → Option (List String)
  | [] => some []
  | label :: rest => do
    let first ← labelText? names label
    let others ← labelTexts? names rest
    some (first :: others)

def capture? (calls : CallStack) (names : NameTable) : Option Backtrace :=
  (labelTexts? names calls.frames.toList.reverse).map Backtrace.mk

/-- Gives a fault the backtrace of the open calls, unless it has one or no call is open. -/
def attach? (calls : CallStack) (names : NameTable) (raised : Raised) : Option Raised :=
  if calls.isEmpty || raised.backtrace.isSome then some raised
  else (calls.capture? names).map fun backtrace => { raised with backtrace := some backtrace }

@[simp] theorem leave_enter (calls : CallStack) (label : Option Name) :
    (calls.enter label).leave = calls := by
  simp [enter, leave]

theorem depth_enter (calls : CallStack) (label : Option Name) :
    (calls.enter label).depth = calls.depth + 1 := by
  simp [enter, depth]

@[simp] theorem isEmpty_enter (calls : CallStack) (label : Option Name) :
    (calls.enter label).isEmpty = false := by
  simp [enter, isEmpty]

/-- A limit that admits a further call is not reached by the calls that are open. -/
theorem overflow?_eq_none_iff {calls : CallStack} :
    calls.overflow? = none ↔ ∀ limit ∈ calls.limit, calls.depth < limit := by
  unfold overflow?
  split
  · rename_i limit hlimit
    simp [hlimit]
  · rename_i hlimit
    simp [hlimit]

end CallStack

end FlatScope
