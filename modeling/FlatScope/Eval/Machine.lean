import FlatScope.Eval.Call

/-!
# Evaluation step by step

The machine evaluates code without nested calls of its own: what remains to be done when the node in
focus has its outcome stands in a list, the innermost first.  So the depth of a program is bounded by
memory alone.  A value goes to the innermost pending part; a halt drops pending parts, except that it
leaves the calls that are open.
-/

namespace FlatScope

/-- What remains to be done with the outcome of the node in focus. -/
inductive Pending where
  /-- Drop the value and go on with the other items of a block. -/
  | block (rest : List NodeId) (frame : FrameId)
  /-- Take the value as a test; select the consequence or go on with the other clauses. -/
  | cond (consequence : NodeId) (rest : List Clause) (frame : FrameId)
  /-- Bind the value and evaluate the body. -/
  | letIn (name : Name) (body : NodeId) (frame : FrameId)
  /-- Assign the value. -/
  | assign (name : Name) (frame : FrameId)
  /-- Take the value as a callee and go on with the operands. -/
  | operator (operator : NodeId) (operands : Span NodeId) (frame : FrameId)
  /-- Take the value as an argument and go on with the other operands; `done` holds the arguments
  before it, the last one first. -/
  | operand (callee : Value) (label : Option Name) (done : List Value) (rest : List NodeId)
      (frame : FrameId)
  /-- End a call. -/
  | leave

/-- What the machine attends to: a node to evaluate in a frame, or an outcome. -/
inductive Focus where
  | node (id : NodeId) (frame : FrameId)
  | outcome (outcome : Outcome)

structure Machine where
  focus : Focus
  pending : List Pending
  memory : Memory

namespace Setting

def startBlock (items : List NodeId) (frame : FrameId) (pending : List Pending) (memory : Memory) :
    Machine :=
  match items with
  | [] => ⟨.outcome (.ok (.bool false)), pending, memory⟩
  | [last] => ⟨.node last frame, pending, memory⟩
  | item :: rest => ⟨.node item frame, .block rest frame :: pending, memory⟩

def startCond (clauses : List Clause) (frame : FrameId) (pending : List Pending)
    (memory : Memory) : Machine :=
  match clauses with
  | [] => ⟨.outcome (.ok (.bool false)), pending, memory⟩
  | clause :: rest =>
    ⟨.node clause.test frame, .cond clause.consequence rest frame :: pending, memory⟩

def startCall (setting : Setting) (callee : Value) (args : List Value) (caller : FrameId)
    (label : Option Name) (pending : List Pending) (memory : Memory) : Machine :=
  match setting.enter callee args caller label memory with
  | (.done outcome, memory) => ⟨.outcome outcome, pending, memory⟩
  | (.body node frame, memory) => ⟨.node node frame, .leave :: pending, memory⟩

def startOperands (setting : Setting) (callee : Value) (label : Option Name) (done : List Value)
    (operands : List NodeId) (frame : FrameId) (pending : List Pending) (memory : Memory) :
    Machine :=
  match operands with
  | [] => setting.startCall callee done.reverse frame label pending memory
  | operand :: rest =>
    ⟨.node operand frame, .operand callee label done rest frame :: pending, memory⟩

def startNode (setting : Setting) (id : NodeId) (frame : FrameId) (pending : List Pending)
    (memory : Memory) : Machine :=
  match setting.code.node? id with
  | none => ⟨.outcome (.error (.fault (.unknownForm id.describe))), pending, memory⟩
  | some (.int literal) => ⟨.outcome (evalInt literal), pending, memory⟩
  | some (.str text) => ⟨.outcome (setting.evalStr text), pending, memory⟩
  | some (.ident name) => ⟨.outcome (setting.evalIdent name frame memory), pending, memory⟩
  | some (.apply operator operands) =>
    ⟨.node operator frame, .operator operator operands frame :: pending, memory⟩
  | some (.lambda params body) =>
    let (outcome, memory) := setting.evalLambda params body frame memory
    ⟨.outcome outcome, pending, memory⟩
  | some (.block items) =>
    match items.read? setting.code.lists with
    | some items => startBlock items frame pending memory
    | none => ⟨.outcome (.error (.breach .span)), pending, memory⟩
  | some (.cond clauses) =>
    match clauses.read? setting.code.clauses with
    | some clauses => startCond clauses frame pending memory
    | none => ⟨.outcome (.error (.breach .span)), pending, memory⟩
  | some (.letIn name init body) => ⟨.node init frame, .letIn name body frame :: pending, memory⟩
  | some (.assign name value) => ⟨.node value frame, .assign name frame :: pending, memory⟩
  | some (.unknown tag) => ⟨.outcome (setting.evalUnknown tag), pending, memory⟩

/-- Gives a value to the innermost pending part. -/
def resume (setting : Setting) (part : Pending) (value : Value) (pending : List Pending)
    (memory : Memory) : Machine :=
  match part with
  | .block rest frame => startBlock rest frame pending memory
  | .cond consequence rest frame =>
    match value.test with
    | .error fault => ⟨.outcome (.error (.fault fault)), pending, memory⟩
    | .ok true => ⟨.node consequence frame, pending, memory⟩
    | .ok false => startCond rest frame pending memory
  | .letIn name body frame =>
    let (scope, store) := memory.store.extend frame [(name, value)]
    ⟨.node body scope, pending, { memory with store }⟩
  | .assign name frame =>
    let (outcome, memory) := setting.assignName name value frame memory
    ⟨.outcome outcome, pending, memory⟩
  | .operator operator operands frame =>
    if value.isCallable then
      match operands.read? setting.code.lists with
      | some operands =>
        setting.startOperands value (setting.code.callLabel operator) [] operands frame pending
          memory
      | none => ⟨.outcome (.error (.breach .span)), pending, memory⟩
    else ⟨.outcome (.error (.fault (.notCallable value.typeName))), pending, memory⟩
  | .operand callee label done rest frame =>
    setting.startOperands callee label (value :: done) rest frame pending memory
  | .leave =>
    let (outcome, memory) := setting.leave (.ok value) memory
    ⟨.outcome outcome, pending, memory⟩

/-- Lets a halt pass the innermost pending part. -/
def unwind (setting : Setting) (part : Pending) (halt : Halt) (pending : List Pending)
    (memory : Memory) : Machine :=
  match part with
  | .leave =>
    let (outcome, memory) := setting.leave (.error halt) memory
    ⟨.outcome outcome, pending, memory⟩
  | _ => ⟨.outcome (.error halt), pending, memory⟩

/-- One step of the machine.  A state with an outcome and nothing pending is final. -/
def step (setting : Setting) (machine : Machine) : Machine :=
  match machine with
  | ⟨.node id frame, pending, memory⟩ => setting.startNode id frame pending memory
  | ⟨.outcome outcome, [], memory⟩ => ⟨.outcome outcome, [], memory⟩
  | ⟨.outcome (.ok value), part :: pending, memory⟩ => setting.resume part value pending memory
  | ⟨.outcome (.error halt), part :: pending, memory⟩ => setting.unwind part halt pending memory

/-- Runs the machine until it is final, for at most `steps` steps. -/
def run (setting : Setting) : (steps : Nat) → Machine → Option (Outcome × Memory)
  | 0, _ => none
  | _ + 1, ⟨.outcome outcome, [], memory⟩ => some (outcome, memory)
  | steps + 1, machine => setting.run steps (setting.step machine)

def evaluateWithin (setting : Setting) (steps : Nat) (id : NodeId) (frame : FrameId)
    (memory : Memory) : Option (Outcome × Memory) :=
  setting.run steps ⟨.node id frame, [], memory⟩

/-- The number of steps after which an evaluation is given up. -/
def maxSteps : Nat := 4611686018427387904

def evaluate (setting : Setting) (id : NodeId) (frame : FrameId) (memory : Memory) :
    Option (Outcome × Memory) :=
  setting.evaluateWithin maxSteps id frame memory

def call (setting : Setting) (callee : Value) (args : List Value) (caller : FrameId)
    (label : Option Name) (memory : Memory) : Option (Outcome × Memory) :=
  setting.run maxSteps (setting.startCall callee args caller label [] memory)

end Setting

end FlatScope
