import FlatScope.Config
import FlatScope.Expr.Basic
import FlatScope.Prelude

/-!
# The meaning of expressions

Rules that say what an expression evaluates to, with names as texts and without code, ids of nodes or
names, open calls and backtraces.  A scope is a function from texts to values; scopes are numbered
from zero in the order in which they are made.
-/

namespace FlatScope.Tree

/-! ### Values and scopes -/

inductive Value where
  | int (value : Word)
  | str (text : String)
  | bool (value : Bool)
  | native (function : Native)
  | closure (params : List String) (body : Expr) (frame : FrameId) (serial : Nat)

namespace Value

def typeName : Value → String
  | .int _ => "int"
  | .str _ => "str"
  | .bool _ => "bool"
  | .native _ => "native"
  | .closure .. => "closure"

def ofPrimitive : Primitive → Value
  | .int value => .int value
  | .str text => .str text
  | .bool value => .bool value

inductive Callable : Value → Prop where
  | native (function : Native) : Callable (.native function)
  | closure (params : List String) (body : Expr) (frame : FrameId) (serial : Nat) :
      Callable (.closure params body frame serial)

end Value

abbrev Result : Type := Except Fault Value

/-- What each scope binds, how many scopes there are and how many closures were made. -/
@[ext] structure Heap where
  scopes : FrameId → String → Option Value
  size : Nat
  closures : Nat

namespace Heap

def assign (heap : Heap) (frame : FrameId) (name : String) (value : Value) : Heap where
  scopes other key := if other = frame ∧ key = name then some value else heap.scopes other key
  size := heap.size
  closures := heap.closures

/-- Makes a scope that is a copy of another one, with some names set over the copy. -/
def copy (heap : Heap) (base : FrameId) (added : String → Option Value) : Heap where
  scopes other key :=
    if other = ⟨heap.size⟩ then (added key).or (heap.scopes base key) else heap.scopes other key
  size := heap.size + 1
  closures := heap.closures

/-- The scope in which the body of a closure runs.  A closure without parameters runs in the base
scope itself; any other closure runs in a copy of it. -/
def enter (heap : Heap) (base : FrameId) (params : List String) (args : List Value) :
    FrameId × Heap :=
  if params = [] then (base, heap)
  else (⟨heap.size⟩, heap.copy base fun key => (params.zip args).lookup key)

end Heap

/-- The name by which an application knows its callee. -/
def label : Expr → Option String
  | .ident name => some name
  | _ => none

/-- The scope that a call extends. -/
def base (scoping : Scoping) (captured caller : FrameId) : FrameId :=
  match scoping with
  | .lexical => captured
  | .dynamic => caller

/-! ### Rules -/

mutual

/-- `Eval config depth frame expr heap result heap'`: in the scope `frame`, with `depth` calls open,
an expression has a result and turns one heap into another. -/
inductive Eval (config : Config) :
    Nat → FrameId → Expr → Heap → Result → Heap → Prop where
  -- An integer literal must lie strictly between the least and the greatest word.
  | int {depth : Nat} {frame : FrameId} {heap : Heap} (word : Word)
      (hlow : -9223372036854775808 < word.val) (hhigh : word.val < 9223372036854775807) :
      Eval config depth frame (.int word.val) heap (.ok (.int word)) heap
  | intRange {depth : Nat} {frame : FrameId} {heap : Heap} {literal : Int}
      (h : literal ≤ -9223372036854775808 ∨ 9223372036854775807 ≤ literal) :
      Eval config depth frame (.int literal) heap (.error (.integerRange literal)) heap
  | str {depth : Nat} {frame : FrameId} {heap : Heap} (text : String) :
      Eval config depth frame (.str text) heap (.ok (.str text)) heap
  | unknown {depth : Nat} {frame : FrameId} {heap : Heap} (tag : String) :
      Eval config depth frame (.unknown tag) heap (.error (.unknownForm tag)) heap
  | ident {depth : Nat} {frame : FrameId} {heap : Heap} {name : String} {value : Value}
      (h : heap.scopes frame name = some value) :
      Eval config depth frame (.ident name) heap (.ok value) heap
  | unbound {depth : Nat} {frame : FrameId} {heap : Heap} {name : String}
      (h : heap.scopes frame name = none) :
      Eval config depth frame (.ident name) heap (.error (.unboundIdentifier name)) heap
  | lambda {depth : Nat} {frame : FrameId} {heap : Heap} (params : List String) (body : Expr) :
      Eval config depth frame (.lambda params body) heap
        (.ok (.closure params body frame heap.closures))
        { heap with closures := heap.closures + 1 }
  | block {depth : Nat} {frame : FrameId} {heap heap' : Heap} {items : List Expr} {result : Result}
      (h : EvalBlock config depth frame items heap result heap') :
      Eval config depth frame (.block items) heap result heap'
  | cond {depth : Nat} {frame : FrameId} {heap heap' : Heap} {clauses : List (Expr × Expr)}
      {result : Result} (h : EvalCond config depth frame clauses heap result heap') :
      Eval config depth frame (.cond clauses) heap result heap'
  -- The first part of a `let` does not see the new name.
  | letIn {depth : Nat} {frame : FrameId} {heap mid heap' : Heap} {name : String} {init body : Expr}
      {value : Value} {result : Result} (hinit : Eval config depth frame init heap (.ok value) mid)
      (hbody : Eval config depth ⟨mid.size⟩ body
        (mid.copy frame fun key => if key = name then some value else none) result heap') :
      Eval config depth frame (.letIn name init body) heap result heap'
  | letInFault {depth : Nat} {frame : FrameId} {heap heap' : Heap} {name : String}
      {init body : Expr} {fault : Fault}
      (hinit : Eval config depth frame init heap (.error fault) heap') :
      Eval config depth frame (.letIn name init body) heap (.error fault) heap'
  -- An assignment evaluates its right side first, and binds no new name.
  | assign {depth : Nat} {frame : FrameId} {heap mid : Heap} {name : String} {expr : Expr}
      {value old : Value} (hvalue : Eval config depth frame expr heap (.ok value) mid)
      (hbound : mid.scopes frame name = some old) :
      Eval config depth frame (.assign name expr) heap (.ok value) (mid.assign frame name value)
  | assignUnbound {depth : Nat} {frame : FrameId} {heap mid : Heap} {name : String} {expr : Expr}
      {value : Value} (hvalue : Eval config depth frame expr heap (.ok value) mid)
      (hunbound : mid.scopes frame name = none) :
      Eval config depth frame (.assign name expr) heap (.error (.unassignedVariable name)) mid
  | assignFault {depth : Nat} {frame : FrameId} {heap mid : Heap} {name : String} {expr : Expr}
      {fault : Fault} (hvalue : Eval config depth frame expr heap (.error fault) mid) :
      Eval config depth frame (.assign name expr) heap (.error fault) mid
  -- An application: the operator, whether it can be called, the operands, the call.
  | apply {depth : Nat} {frame : FrameId} {heap mid last heap' : Heap} {operator : Expr}
      {operands : List Expr} {callee : Value} {args : List Value} {result : Result}
      (hoperator : Eval config depth frame operator heap (.ok callee) mid)
      (hcallable : callee.Callable) (hoperands : EvalList config depth frame operands mid (.ok args) last)
      (hcall : Call config depth frame (label operator) callee args last result heap') :
      Eval config depth frame (.apply operator operands) heap result heap'
  | applyOperatorFault {depth : Nat} {frame : FrameId} {heap mid : Heap} {operator : Expr}
      {operands : List Expr} {fault : Fault}
      (hoperator : Eval config depth frame operator heap (.error fault) mid) :
      Eval config depth frame (.apply operator operands) heap (.error fault) mid
  | applyNotCallable {depth : Nat} {frame : FrameId} {heap mid : Heap} {operator : Expr}
      {operands : List Expr} {callee : Value}
      (hoperator : Eval config depth frame operator heap (.ok callee) mid)
      (hcallable : ¬ callee.Callable) :
      Eval config depth frame (.apply operator operands) heap
        (.error (.notCallable callee.typeName)) mid
  | applyOperandFault {depth : Nat} {frame : FrameId} {heap mid last : Heap} {operator : Expr}
      {operands : List Expr} {callee : Value} {fault : Fault}
      (hoperator : Eval config depth frame operator heap (.ok callee) mid)
      (hcallable : callee.Callable)
      (hoperands : EvalList config depth frame operands mid (.error fault) last) :
      Eval config depth frame (.apply operator operands) heap (.error fault) last

/-- The items of a block from left to right; the last one gives the result. -/
inductive EvalBlock (config : Config) :
    Nat → FrameId → List Expr → Heap → Result → Heap → Prop where
  | nil {depth : Nat} {frame : FrameId} {heap : Heap} :
      EvalBlock config depth frame [] heap (.ok (.bool false)) heap
  | last {depth : Nat} {frame : FrameId} {heap heap' : Heap} {item : Expr} {result : Result}
      (h : Eval config depth frame item heap result heap') :
      EvalBlock config depth frame [item] heap result heap'
  | cons {depth : Nat} {frame : FrameId} {heap mid heap' : Heap} {item next : Expr}
      {rest : List Expr} {value : Value} {result : Result}
      (hitem : Eval config depth frame item heap (.ok value) mid)
      (hrest : EvalBlock config depth frame (next :: rest) mid result heap') :
      EvalBlock config depth frame (item :: next :: rest) heap result heap'
  | fault {depth : Nat} {frame : FrameId} {heap mid : Heap} {item next : Expr}
      {rest : List Expr} {fault : Fault}
      (hitem : Eval config depth frame item heap (.error fault) mid) :
      EvalBlock config depth frame (item :: next :: rest) heap (.error fault) mid

/-- The clauses of a conditional from left to right; the first true test selects the result. -/
inductive EvalCond (config : Config) :
    Nat → FrameId → List (Expr × Expr) → Heap → Result → Heap → Prop where
  | nil {depth : Nat} {frame : FrameId} {heap : Heap} :
      EvalCond config depth frame [] heap (.ok (.bool false)) heap
  | selected {depth : Nat} {frame : FrameId} {heap mid heap' : Heap} {test consequence : Expr}
      {rest : List (Expr × Expr)} {result : Result}
      (htest : Eval config depth frame test heap (.ok (.bool true)) mid)
      (hconsequence : Eval config depth frame consequence mid result heap') :
      EvalCond config depth frame ((test, consequence) :: rest) heap result heap'
  | skipped {depth : Nat} {frame : FrameId} {heap mid heap' : Heap} {test consequence : Expr}
      {rest : List (Expr × Expr)} {result : Result}
      (htest : Eval config depth frame test heap (.ok (.bool false)) mid)
      (hrest : EvalCond config depth frame rest mid result heap') :
      EvalCond config depth frame ((test, consequence) :: rest) heap result heap'
  | notBoolean {depth : Nat} {frame : FrameId} {heap mid : Heap} {test consequence : Expr}
      {rest : List (Expr × Expr)} {value : Value}
      (htest : Eval config depth frame test heap (.ok value) mid) (h : ∀ b, value ≠ .bool b) :
      EvalCond config depth frame ((test, consequence) :: rest) heap
        (.error (.typeMismatch "conditional test must be boolean" "bool" value.typeName)) mid
  | fault {depth : Nat} {frame : FrameId} {heap mid : Heap} {test consequence : Expr}
      {rest : List (Expr × Expr)} {fault : Fault}
      (htest : Eval config depth frame test heap (.error fault) mid) :
      EvalCond config depth frame ((test, consequence) :: rest) heap (.error fault) mid

/-- Operands from left to right: all their values, or the first fault. -/
inductive EvalList (config : Config) :
    Nat → FrameId → List Expr → Heap → Except Fault (List Value) → Heap → Prop where
  | nil {depth : Nat} {frame : FrameId} {heap : Heap} :
      EvalList config depth frame [] heap (.ok []) heap
  | cons {depth : Nat} {frame : FrameId} {heap mid heap' : Heap} {item : Expr} {rest : List Expr}
      {value : Value} {values : List Value}
      (hitem : Eval config depth frame item heap (.ok value) mid)
      (hrest : EvalList config depth frame rest mid (.ok values) heap') :
      EvalList config depth frame (item :: rest) heap (.ok (value :: values)) heap'
  | fault {depth : Nat} {frame : FrameId} {heap mid : Heap} {item : Expr} {rest : List Expr}
      {fault : Fault} (hitem : Eval config depth frame item heap (.error fault) mid) :
      EvalList config depth frame (item :: rest) heap (.error fault) mid
  | restFault {depth : Nat} {frame : FrameId} {heap mid heap' : Heap} {item : Expr}
      {rest : List Expr} {value : Value} {fault : Fault}
      (hitem : Eval config depth frame item heap (.ok value) mid)
      (hrest : EvalList config depth frame rest mid (.error fault) heap') :
      EvalList config depth frame (item :: rest) heap (.error fault) heap'

/-- A call from the scope `frame`, whose callee is known by a name or by none. -/
inductive Call (config : Config) :
    Nat → FrameId → Option String → Value → List Value → Heap → Result → Heap → Prop where
  | native {depth : Nat} {frame : FrameId} {known : Option String} {heap : Heap}
      {function : Native} {args : List Value} {prims : List Primitive}
      (hargs : args = prims.map Value.ofPrimitive) :
      Call config depth frame known (.native function) args heap
        ((function.apply prims).map Value.ofPrimitive) heap
  | nativeMismatch {depth : Nat} {frame : FrameId} {known : Option String} {heap : Heap}
      {function : Native} {args : List Value} {prims : List Primitive} {arg : Value}
      {rest : List Value} (hargs : args = prims.map Value.ofPrimitive ++ arg :: rest)
      (hcallable : arg.Callable) :
      Call config depth frame known (.native function) args heap
        (.error (.typeMismatch function.name "primitive" arg.typeName)) heap
  | arity {depth : Nat} {frame : FrameId} {known : Option String} {heap : Heap}
      {params : List String} {body : Expr} {captured : FrameId} {serial : Nat} {args : List Value}
      (hcount : params.length ≠ args.length) :
      Call config depth frame known (.closure params body captured serial) args heap
        (.error (.arityMismatch (known.getD "") params.length args.length false)) heap
  | duplicate {depth : Nat} {frame : FrameId} {known : Option String} {heap : Heap}
      {params before after : List String} {param : String} {body : Expr} {captured : FrameId}
      {serial : Nat} {args : List Value} (hcount : params.length = args.length)
      (hsplit : params = before ++ param :: after) (hbefore : before.Nodup)
      (hparam : param ∈ before) :
      Call config depth frame known (.closure params body captured serial) args heap
        (.error (.duplicateParameter param)) heap
  -- The scope of a call is made before the depth is checked.
  | overflow {depth : Nat} {frame scope : FrameId} {known : Option String} {heap heap' : Heap}
      {params : List String} {body : Expr} {captured : FrameId} {serial : Nat} {args : List Value}
      {limit : Nat} (hcount : params.length = args.length) (hparams : params.Nodup)
      (hscope : heap.enter (base config.scoping captured frame) params args = (scope, heap'))
      (hlimit : config.maxDepth = some limit) (hdepth : limit ≤ depth) :
      Call config depth frame known (.closure params body captured serial) args heap
        (.error (.stackOverflow limit)) heap'
  | body {depth : Nat} {frame scope : FrameId} {known : Option String} {heap mid heap' : Heap}
      {params : List String} {body : Expr} {captured : FrameId} {serial : Nat} {args : List Value}
      {result : Result} (hcount : params.length = args.length) (hparams : params.Nodup)
      (hscope : heap.enter (base config.scoping captured frame) params args = (scope, mid))
      (hdepth : ∀ limit, config.maxDepth = some limit → depth < limit)
      (hbody : Eval config (depth + 1) scope body mid result heap') :
      Call config depth frame known (.closure params body captured serial) args heap result heap'

end

end FlatScope.Tree
