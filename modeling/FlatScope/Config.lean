import FlatScope.Text.Blank

/-!
# Scoping and limits

How a program is evaluated: which frame a call extends, and how many calls may be open.
-/

namespace FlatScope

/-- Which frame the body of a closure extends. -/
inductive Scoping where
  /-- The frame in which the closure was made. -/
  | lexical
  /-- The frame in which the closure is called. -/
  | dynamic
deriving DecidableEq

namespace Scoping

def text : Scoping → String
  | lexical => "lexical"
  | dynamic => "dynamic"

/-- The mode that a text names, with blanks around it and letters of either case. -/
def parse? (text : String) : Option Scoping :=
  let word := (Text.trim text).map Char.toLower
  if word = lexical.text then some lexical
  else if word = dynamic.text then some dynamic
  else none

/-- The text that reports a word that names no mode. -/
def unknownMessage (text : String) : String :=
  "unknown scoping mode `" ++ text ++ "` (expected `lexical` or `dynamic`)"

end Scoping

structure Config where
  scoping : Scoping
  /-- The number of calls that may be open; no limit when there is none. -/
  maxDepth : Option Nat
deriving DecidableEq

namespace Config

/-- The number of calls that may be open unless another limit is chosen. -/
def defaultMaxDepth : Nat := 10000

/-- The configuration for a mode with the usual limit. -/
def ofScoping (scoping : Scoping) : Config := ⟨scoping, some defaultMaxDepth⟩

def default : Config := ofScoping .lexical

end Config

end FlatScope
