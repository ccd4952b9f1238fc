import FlatScope.Eval.Call

/-!
# Evaluation by depth

The same evaluation as a recursion on nodes, bounded by a depth of nesting: `Setting.eval depth` is
the outcome of a node when no more than `depth` evaluations are nested in each other, and nothing
when more would be needed.  `Setting.evalNode` is one level of it, with the evaluation of the nodes
below given as a function.  A greater depth keeps every outcome (`eval_mono`).
-/

namespace FlatScope

/-- An outcome with the memory after it, unless the depth was too small. -/
abbrev Attempt : Type := Option (Outcome × Memory)

/-- Goes on with the value of an attempt; a halt stays as it is. -/
def Attempt.andThen (attempt : Attempt) (next : Value → Memory → Attempt) : Attempt :=
  match attempt with
  | some (.ok value, memory) => next value memory
  | some (.error halt, memory) => some (.error halt, memory)
  | none => none

abbrev Evaluator : Type := NodeId → FrameId → Memory → Attempt

namespace Evaluator

/-- Evaluates the items of a block from left to right; the last one gives the outcome. -/
def block (eval : Evaluator) (frame : FrameId) : List NodeId → Memory → Attempt
  | [], memory => some (.ok (.bool false), memory)
  | [last], memory => eval last frame memory
  | item :: rest, memory => (eval item frame memory).andThen fun _ memory =>
    block eval frame rest memory

/-- Evaluates tests from left to right; the first true one selects the outcome. -/
def cond (eval : Evaluator) (frame : FrameId) : List Clause → Memory → Attempt
  | [], memory => some (.ok (.bool false), memory)
  | clause :: rest, memory => (eval clause.test frame memory).andThen fun value memory =>
    match value.test with
    | .error fault => some (.error (.fault fault), memory)
    | .ok true => eval clause.consequence frame memory
    | .ok false => cond eval frame rest memory

end Evaluator

namespace Setting

def evalCall (setting : Setting) (eval : Evaluator) (callee : Value) (args : List Value)
    (caller : FrameId) (label : Option Name) (memory : Memory) : Attempt :=
  match setting.enter callee args caller label memory with
  | (.done outcome, memory) => some (outcome, memory)
  | (.body node frame, memory) =>
    (eval node frame memory).map fun (outcome, memory) => setting.leave outcome memory

/-- Evaluates operands from left to right, then calls the callee; `done` holds the arguments so far,
the last one first. -/
def evalOperands (setting : Setting) (eval : Evaluator) (callee : Value) (label : Option Name)
    (frame : FrameId) (done : List Value) : List NodeId → Memory → Attempt
  | [], memory => setting.evalCall eval callee done.reverse frame label memory
  | operand :: rest, memory => (eval operand frame memory).andThen fun value memory =>
    setting.evalOperands eval callee label frame (value :: done) rest memory

/-- Goes on with an application once its operator has a value. -/
def evalApply (setting : Setting) (eval : Evaluator) (operator : NodeId) (operands : Span NodeId)
    (frame : FrameId) (callee : Value) (memory : Memory) : Attempt :=
  if callee.isCallable then
    match operands.read? setting.code.lists with
    | some operands =>
      setting.evalOperands eval callee (setting.code.callLabel operator) frame [] operands memory
    | none => some (.error (.breach .span), memory)
  else some (.error (.fault (.notCallable callee.typeName)), memory)

/-- Evaluates a node, with an evaluator for the nodes below it. -/
def evalNode (setting : Setting) (eval : Evaluator) : Evaluator := fun id frame memory =>
  match setting.code.node? id with
  | none => some (.error (.fault (.unknownForm id.describe)), memory)
  | some (.int literal) => some (evalInt literal, memory)
  | some (.str text) => some (setting.evalStr text, memory)
  | some (.ident name) => some (setting.evalIdent name frame memory, memory)
  | some (.apply operator operands) =>
    (eval operator frame memory).andThen fun callee memory =>
      setting.evalApply eval operator operands frame callee memory
  | some (.lambda params body) => some (setting.evalLambda params body frame memory)
  | some (.block items) =>
    match items.read? setting.code.lists with
    | some items => eval.block frame items memory
    | none => some (.error (.breach .span), memory)
  | some (.cond clauses) =>
    match clauses.read? setting.code.clauses with
    | some clauses => eval.cond frame clauses memory
    | none => some (.error (.breach .span), memory)
  | some (.letIn name init body) =>
    (eval init frame memory).andThen fun value memory =>
      let (scope, store) := memory.store.extend frame [(name, value)]
      eval body scope { memory with store }
  | some (.assign name value) =>
    (eval value frame memory).andThen fun value memory =>
      some (setting.assignName name value frame memory)
  | some (.unknown tag) => some (setting.evalUnknown tag, memory)

/-- Evaluates a node with at most `depth` evaluations nested in each other. -/
def eval (setting : Setting) : (depth : Nat) → Evaluator
  | 0 => fun _ _ _ => none
  | depth + 1 => setting.evalNode (setting.eval depth)

end Setting

/-! ### More depth keeps every outcome -/

/-- Every outcome of one evaluator is an outcome of another. -/
def Evaluator.LE (first second : Evaluator) : Prop :=
  ∀ id frame memory result, first id frame memory = some result → second id frame memory = some result

theorem Attempt.andThen_eq_some {attempt : Attempt} {next : Value → Memory → Attempt}
    {result : Outcome × Memory} :
    attempt.andThen next = some result ↔
      (∃ value memory, attempt = some (.ok value, memory) ∧ next value memory = some result) ∨
        (∃ halt memory, attempt = some (.error halt, memory) ∧ (.error halt, memory) = result) := by
  rcases attempt with _ | ⟨halt | value, memory⟩
  · simp [andThen]
  · constructor
    · intro h
      exact .inr ⟨halt, memory, rfl, Option.some.inj h⟩
    · rintro (⟨_, _, h, _⟩ | ⟨_, _, h, rfl⟩)
      · cases h
      · exact h
  · constructor
    · intro h
      exact .inl ⟨value, memory, rfl, h⟩
    · rintro (⟨_, _, h, hr⟩ | ⟨_, _, h, _⟩)
      · cases h
        exact hr
      · cases h

theorem Attempt.andThen_mono {first second : Attempt} {next next' : Value → Memory → Attempt}
    {result : Outcome × Memory} (hfirst : ∀ r, first = some r → second = some r)
    (hnext : ∀ value memory r, next value memory = some r → next' value memory = some r)
    (h : first.andThen next = some result) : second.andThen next' = some result := by
  rcases Attempt.andThen_eq_some.1 h with ⟨value, memory, h₁, h₂⟩ | ⟨halt, memory, h₁, h₂⟩
  · exact Attempt.andThen_eq_some.2 (.inl ⟨value, memory, hfirst _ h₁, hnext _ _ _ h₂⟩)
  · exact Attempt.andThen_eq_some.2 (.inr ⟨halt, memory, hfirst _ h₁, h₂⟩)

namespace Evaluator

variable {first second : Evaluator}

theorem block_mono (h : first.LE second) {frame : FrameId} {items : List NodeId} {memory : Memory}
    {result : Outcome × Memory} (hr : first.block frame items memory = some result) :
    second.block frame items memory = some result := by
  induction items generalizing memory result with
  | nil => exact hr
  | cons item rest ih =>
    cases rest with
    | nil => exact h _ _ _ _ hr
    | cons next rest => exact Attempt.andThen_mono (h _ _ _) (fun _ _ _ hn => ih hn) hr

theorem cond_mono (h : first.LE second) {frame : FrameId} {clauses : List Clause}
    {memory : Memory} {result : Outcome × Memory}
    (hr : first.cond frame clauses memory = some result) :
    second.cond frame clauses memory = some result := by
  induction clauses generalizing memory result with
  | nil => exact hr
  | cons clause rest ih =>
    refine Attempt.andThen_mono (h _ _ _) (fun value memory r hn => ?_) hr
    cases htest : value.test with
    | error fault => simpa only [htest] using hn
    | ok test =>
      simp only [htest] at hn ⊢
      cases test with
      | true => exact h _ _ _ _ hn
      | false => exact ih hn

end Evaluator

namespace Setting

variable {setting : Setting} {first second : Evaluator}

theorem evalCall_mono (h : first.LE second) {callee : Value} {args : List Value}
    {caller : FrameId} {label : Option Name} {memory : Memory} {result : Outcome × Memory}
    (hr : setting.evalCall first callee args caller label memory = some result) :
    setting.evalCall second callee args caller label memory = some result := by
  unfold evalCall at hr ⊢
  split at hr
  · exact hr
  · obtain ⟨r, hr₁, hr₂⟩ := Option.map_eq_some_iff.1 hr
    exact Option.map_eq_some_iff.2 ⟨r, h _ _ _ _ hr₁, hr₂⟩

theorem evalOperands_mono (h : first.LE second) {callee : Value} {label : Option Name}
    {frame : FrameId} {done : List Value} {operands : List NodeId} {memory : Memory}
    {result : Outcome × Memory}
    (hr : setting.evalOperands first callee label frame done operands memory = some result) :
    setting.evalOperands second callee label frame done operands memory = some result := by
  induction operands generalizing memory done result with
  | nil => exact evalCall_mono h hr
  | cons operand rest ih =>
    exact Attempt.andThen_mono (h _ _ _) (fun _ _ _ hn => ih hn) hr

theorem evalApply_mono (h : first.LE second) {operator : NodeId} {operands : Span NodeId}
    {frame : FrameId} {callee : Value} {memory : Memory} {result : Outcome × Memory}
    (hr : setting.evalApply first operator operands frame callee memory = some result) :
    setting.evalApply second operator operands frame callee memory = some result := by
  unfold evalApply at hr ⊢
  by_cases hc : callee.isCallable = true
  · rw [if_pos hc] at hr ⊢
    cases hread : operands.read? setting.code.lists with
    | none => simpa only [hread] using hr
    | some ids =>
      simp only [hread] at hr ⊢
      exact evalOperands_mono h hr
  · rw [if_neg hc] at hr ⊢
    exact hr

/-- One level of evaluation keeps the order of evaluators. -/
theorem evalNode_mono (h : first.LE second) :
    (setting.evalNode first).LE (setting.evalNode second) := by
  intro id frame memory result hr
  unfold evalNode at hr ⊢
  cases hnode : setting.code.node? id with
  | none => simpa only [hnode] using hr
  | some node =>
    simp only [hnode] at hr ⊢
    cases node with
    | int | str | ident | lambda | unknown => exact hr
    | apply => exact Attempt.andThen_mono (h _ _ _) (fun _ _ _ hn => evalApply_mono h hn) hr
    | block items =>
      cases hread : items.read? setting.code.lists with
      | none => simpa only [hread] using hr
      | some ids =>
        simp only [hread] at hr ⊢
        exact Evaluator.block_mono h hr
    | cond clauses =>
      cases hread : clauses.read? setting.code.clauses with
      | none => simpa only [hread] using hr
      | some clauses =>
        simp only [hread] at hr ⊢
        exact Evaluator.cond_mono h hr
    | letIn => exact Attempt.andThen_mono (h _ _ _) (fun _ _ _ hn => h _ _ _ _ hn) hr
    | assign => exact Attempt.andThen_mono (h _ _ _) (fun _ _ _ hn => hn) hr

theorem eval_le_succ (setting : Setting) (depth : Nat) :
    (setting.eval depth).LE (setting.eval (depth + 1)) := by
  induction depth with
  | zero => intro id frame memory result hr; cases hr
  | succ depth ih => exact evalNode_mono ih

theorem eval_mono {depth deeper : Nat} (hle : depth ≤ deeper) :
    (setting.eval depth).LE (setting.eval deeper) := by
  induction hle with
  | refl => intro id frame memory result hr; exact hr
  | step _ ih =>
    intro id frame memory result hr
    exact eval_le_succ setting _ _ _ _ _ (ih _ _ _ _ hr)

end Setting

end FlatScope
