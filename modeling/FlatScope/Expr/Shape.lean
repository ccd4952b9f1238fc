/-!
# Forms and their shapes

The forms by which JSON objects encode expressions, and the ways in which an object can fail to have
the shape of its form.
-/

namespace FlatScope

/-- The forms that have a shape of their own. -/
inductive Form where
  | identifier
  | application
  | lambda
  | parameters
  | block
  | cond
  | clause
  | letIn
  | assignment
deriving DecidableEq

namespace Form

def key : Form → String
  | identifier => "Identifier"
  | application => "Application"
  | lambda => "Lambda"
  | parameters => "Parameters"
  | block => "Block"
  | cond => "Cond"
  | clause => "Clause"
  | letIn => "Let"
  | assignment => "Assignment"

/-- The forms that are expressions; `parameters` and `clause` are parts of expressions. -/
def expressions : List Form := [identifier, application, lambda, block, cond, letIn, assignment]

/-- The form of expression that a key marks. -/
def ofKey? (key : String) : Option Form := expressions.find? fun form => form.key == key

end Form

/-- How many elements a form takes. -/
inductive Count where
  | exactly (n : Nat)
  | atLeast (n : Nat)
deriving DecidableEq

def Count.words : Count → String
  | exactly n => toString n
  | atLeast n => "at least " ++ toString n

/-- Why a JSON value encodes no expression. -/
inductive ShapeError where
  /-- A form has the wrong number of elements. -/
  | count (form : Form) (expected : Count) (got : Nat)
  /-- The payload of a form is no array. -/
  | payload (form : Form)
  /-- A form lacks an identifier where it needs one. -/
  | identifier (form : Form)
  /-- A form lacks an array under the key of one of its parts. -/
  | wrapper (form part : Form)
  /-- An object has no key or several keys. -/
  | keys (found : Nat)
deriving DecidableEq

def ShapeError.message : ShapeError → String
  | count form expected got =>
    form.key ++ " expects " ++ expected.words ++ " elements, got " ++ toString got
  | payload form => form.key ++ " payload must be an array"
  | identifier form => "expected \x7b\"Identifier\": <string>\x7d in " ++ form.key
  | wrapper form part => "expected \x7b\"" ++ part.key ++ "\": [...]\x7d in " ++ form.key
  | keys found => "expression object must have exactly one key, found " ++ toString found

end FlatScope
