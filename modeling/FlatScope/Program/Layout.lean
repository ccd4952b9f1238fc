import FlatScope.Expr.Reading
import FlatScope.Json.Reader
import FlatScope.Program.Code

/-!
# Laying out expressions

`Expr.layout` puts an expression into flat code: the children of a node from left to right, then the
list that refers to them, then the node itself.  `Program.ofJson` and `Program.ofText` read a program
and lay it out; the texts that were met before a violation keep their names.
-/

namespace FlatScope

/-- Code in the making.  The texts that it uses got their names when they were read. -/
structure Builder where
  names : NameTable
  code : Code

namespace Builder

/-- Adds what a function adds to the code. -/
def build (builder : Builder) (add : Code → NodeId × Code) : NodeId × Builder :=
  let (id, code) := add builder.code
  (id, { builder with code })

end Builder

namespace Expr

mutual

/-- Lays out an expression and gives the id of its node. -/
def layout : Expr → Builder → NodeId × Builder
  | .int literal, builder => builder.build (·.alloc (.int literal))
  | .str text, builder => builder.build (·.alloc (.str (builder.names.nameOf text)))
  | .ident name, builder => builder.build (·.alloc (.ident (builder.names.nameOf name)))
  | .apply operator operands, builder =>
    let (operator, builder) := layout operator builder
    let (operands, builder) := layoutList operands builder
    builder.build (·.allocApply operator operands)
  | .lambda params body, builder =>
    let (body, builder) := layout body builder
    builder.build (·.allocLambda (params.map builder.names.nameOf) body)
  | .block items, builder =>
    let (items, builder) := layoutList items builder
    builder.build (·.allocBlock items)
  | .cond clauses, builder =>
    let (clauses, builder) := layoutClauses clauses builder
    builder.build (·.allocCond clauses)
  | .letIn name init body, builder =>
    let (init, builder) := layout init builder
    let (body, builder) := layout body builder
    builder.build (·.alloc (.letIn (builder.names.nameOf name) init body))
  | .assign name value, builder =>
    let (value, builder) := layout value builder
    builder.build (·.alloc (.assign (builder.names.nameOf name) value))
  | .unknown tag, builder => builder.build (·.alloc (.unknown (builder.names.nameOf tag)))

def layoutList : List Expr → Builder → List NodeId × Builder
  | [], builder => ([], builder)
  | item :: rest, builder =>
    let (id, builder) := layout item builder
    let (ids, builder) := layoutList rest builder
    (id :: ids, builder)

/-- Lays out clauses from left to right, each test before its consequence. -/
def layoutClauses : List (Expr × Expr) → Builder → List Clause × Builder
  | [], builder => ([], builder)
  | (test, consequence) :: rest, builder =>
    let (test, builder) := layout test builder
    let (consequence, builder) := layout consequence builder
    let (clauses, builder) := layoutClauses rest builder
    (⟨test, consequence⟩ :: clauses, builder)

end

end Expr

/-! ### Programs -/

/-- Flat code and the node where evaluation starts. -/
structure Program where
  code : Code
  root : NodeId

/-- Why a text is no program. -/
inductive DecodeError where
  /-- The text is no JSON value. -/
  | json (defect : Json.Defect)
  /-- No expression is read from the JSON value. -/
  | stop (stop : Stop)
deriving DecidableEq

def DecodeError.message : DecodeError → String
  | .json .truncated => "invalid JSON: eof"
  | .json .malformed => "invalid JSON: syntax"
  | .stop found => found.message

namespace Program

/-- The program of an expression whose texts have names. -/
def ofExpr (expr : Expr) (names : NameTable) : Program :=
  let (root, builder) := expr.layout ⟨names, .empty⟩
  ⟨builder.code, root⟩

/-- The program that a JSON value encodes, and the names after reading it. -/
def ofJson (json : Json) (names : NameTable) : Except Stop Program × NameTable :=
  match (Expr.read json).run names with
  | (.error stop, names) => (.error stop, names)
  | (.ok expr, names) => (.ok (ofExpr expr names), names)

/-- The program that a text encodes, and the names after reading it. -/
def ofText (numbers : Json.NumberReader) (text : String) (names : NameTable) :
    Except DecodeError Program × NameTable :=
  match Json.parse numbers text with
  | .error defect => (.error (.json defect), names)
  | .ok json =>
    match ofJson json names with
    | (.error stop, names) => (.error (.stop stop), names)
    | (.ok program, names) => (.ok program, names)

end Program

end FlatScope
