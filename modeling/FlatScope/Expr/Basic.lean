/-!
# Expressions

The syntax tree of the language, with names as texts.  `Expr.names` lists the texts of a tree from
left to right: names, string literals and tags, each as often as it occurs.
-/

namespace FlatScope

inductive Expr where
  /-- An integer literal of any size; whether it is a `Word` is asked when it is evaluated. -/
  | int (literal : Int)
  | str (text : String)
  | ident (name : String)
  | apply (operator : Expr) (operands : List Expr)
  | lambda (params : List String) (body : Expr)
  | block (items : List Expr)
  /-- Pairs of a test and a consequence. -/
  | cond (clauses : List (Expr × Expr))
  | letIn (name : String) (init body : Expr)
  | assign (name : String) (value : Expr)
  /-- A form that the language does not know; it fails when it is evaluated. -/
  | unknown (tag : String)

namespace Expr

mutual

/-- The texts of an expression, from left to right. -/
def names : Expr → List String
  | .int _ => []
  | .str text => [text]
  | .ident name => [name]
  | .apply operator operands => names operator ++ namesOfList operands
  | .lambda params body => params ++ names body
  | .block items => namesOfList items
  | .cond clauses => namesOfClauses clauses
  | .letIn name init body => name :: (names init ++ names body)
  | .assign name value => name :: names value
  | .unknown tag => [tag]

def namesOfList : List Expr → List String
  | [] => []
  | item :: rest => names item ++ namesOfList rest

def namesOfClauses : List (Expr × Expr) → List String
  | [] => []
  | (test, consequence) :: rest => names test ++ (names consequence ++ namesOfClauses rest)

end

end Expr

end FlatScope
