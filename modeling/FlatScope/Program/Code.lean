import FlatScope.Name
import FlatScope.Program.Span

/-!
# Flat code

The nodes of a program stand in one table, and each node refers to the nodes below it by their ids.
Lists of children, clauses and parameters are spans of three more tables.  The tables only grow:
nothing that was put into one of them ever changes.
-/

namespace FlatScope

/-! ### Node ids -/

/-- The position of a node in the table of nodes. -/
structure NodeId where
  raw : Nat
deriving DecidableEq

namespace NodeId

/-- The id that no node has. -/
def invalid : NodeId := ⟨4294967295⟩

def isValid (id : NodeId) : Bool := id ≠ invalid

def describe (id : NodeId) : String :=
  if id.isValid then "NodeId(" ++ toString id.raw ++ ")" else "NodeId::INVALID"

end NodeId

/-! ### Nodes -/

/-- A test, and the node that it selects. -/
structure Clause where
  test : NodeId
  consequence : NodeId
deriving DecidableEq

instance : SpanLabel NodeId := ⟨"NodeRange"⟩
instance : SpanLabel Clause := ⟨"ClauseRange"⟩
instance : SpanLabel Name := ⟨"ParamRange"⟩

inductive Node where
  | int (literal : Int)
  | str (text : Name)
  | ident (name : Name)
  | apply (operator : NodeId) (operands : Span NodeId)
  | lambda (params : Span Name) (body : NodeId)
  | block (items : Span NodeId)
  | cond (clauses : Span Clause)
  | letIn (name : Name) (init body : NodeId)
  | assign (name : Name) (value : NodeId)
  | unknown (tag : Name)
deriving DecidableEq

/-! ### Tables -/

/-- The tables that hold a program. -/
structure Code where
  nodes : Array Node
  /-- The operands of applications and the items of blocks. -/
  lists : Array NodeId
  clauses : Array Clause
  params : Array Name

namespace Code

def empty : Code := ⟨#[], #[], #[], #[]⟩

def size (code : Code) : Nat := code.nodes.size

def node? (code : Code) (id : NodeId) : Option Node := code.nodes[id.raw]?

def alloc (code : Code) (node : Node) : NodeId × Code :=
  (⟨code.nodes.size⟩, { code with nodes := code.nodes.push node })

def allocList (code : Code) (ids : List NodeId) : Span NodeId × Code :=
  let (span, lists) := Span.alloc code.lists ids
  (span, { code with lists })

def allocClauses (code : Code) (clauses : List Clause) : Span Clause × Code :=
  let (span, clauses) := Span.alloc code.clauses clauses
  (span, { code with clauses })

def allocParams (code : Code) (params : List Name) : Span Name × Code :=
  let (span, params) := Span.alloc code.params params
  (span, { code with params })

def allocApply (code : Code) (operator : NodeId) (operands : List NodeId) : NodeId × Code :=
  let (span, code) := code.allocList operands
  code.alloc (.apply operator span)

def allocLambda (code : Code) (params : List Name) (body : NodeId) : NodeId × Code :=
  let (span, code) := code.allocParams params
  code.alloc (.lambda span body)

def allocBlock (code : Code) (items : List NodeId) : NodeId × Code :=
  let (span, code) := code.allocList items
  code.alloc (.block span)

def allocCond (code : Code) (clauses : List Clause) : NodeId × Code :=
  let (span, code) := code.allocClauses clauses
  code.alloc (.cond span)

/-- The name by which a call through a given operator is known: an operator that is an identifier
gives its name. -/
def callLabel (code : Code) (operator : NodeId) : Option Name :=
  match code.node? operator with
  | some (.ident name) => some name
  | _ => none

/-- A node that was added is found under the id it was given. -/
theorem node?_alloc (code : Code) (node : Node) :
    (code.alloc node).2.node? (code.alloc node).1 = some node := by
  simp [alloc, node?]

theorem node?_alloc_of_node? {code : Code} {id : NodeId} {old : Node} (node : Node)
    (h : code.node? id = some old) : (code.alloc node).2.node? id = some old := by
  unfold node? at h ⊢
  obtain ⟨hlt, heq⟩ := Array.getElem?_eq_some_iff.1 h
  simp [alloc, Array.getElem?_push, Nat.ne_of_lt hlt, h]

end Code

end FlatScope
