import FlatScope.Eval.Agreement
import FlatScope.Proofs.Tree.Soundness

/-!
# The machine reaches what the rules derive

Each rule for trees is a run of the machine on the nodes at which the trees stand, whatever is
pending (`realises_of_eval`).  The run of a rule is put together from the runs of its premises.
-/

namespace FlatScope.Setting

variable {setting : Setting} {known : FrameId → Prop}

/-! ### Runs that end as a result says -/

/-- The machine comes to an outcome that agrees with a result, in a store that stands for a heap. -/
def Lands (setting : Setting) (known : FrameId → Prop) (machine : Machine) (pending : List Pending)
    (calls : CallStack) (result : Tree.Result) (heap : Tree.Heap) : Prop :=
  ∃ outcome store, setting.Reaches machine (finished (outcome, ⟨store, calls⟩) pending) ∧
    setting.Agrees known outcome result ∧ setting.Legal known store ∧ setting.heap store = heap

variable {machine : Machine} {pending : List Pending} {calls : CallStack} {result : Tree.Result}
  {heap mid : Tree.Heap} {store : Store}

theorem Lands.of_reaches {first : Machine} (hreach : setting.Reaches first machine)
    (h : setting.Lands known machine pending calls result heap) :
    setting.Lands known first pending calls result heap := by
  obtain ⟨outcome, store, hrest, hends⟩ := h
  exact ⟨outcome, store, hreach.trans hrest, hends⟩

theorem Lands.of_step (h : setting.Lands known (setting.step machine) pending calls result heap) :
    setting.Lands known machine pending calls result heap :=
  .of_reaches (.step (.refl _)) h

theorem lands_value {value : Value} (hlegal : setting.Legal known store)
    (hvalue : setting.Legible known value) (hheap : setting.heap store = heap) :
    setting.Lands known ⟨.outcome (.ok value), pending, ⟨store, calls⟩⟩ pending calls
      (.ok (setting.value value)) heap :=
  ⟨.ok value, store, .refl _, .value hvalue, hlegal, hheap⟩

theorem lands_fault {fault : Fault} (hlegal : setting.Legal known store)
    (hheap : setting.heap store = heap) :
    setting.Lands known ⟨.outcome (.error (.fault fault)), pending, ⟨store, calls⟩⟩ pending calls
      (.error fault) heap :=
  ⟨.error (.fault fault), store, .refl _, agrees_fault fault, hlegal, hheap⟩

theorem Lands.exists_resume {part : Pending} {expected : Tree.Value}
    (h : setting.Lands known machine (part :: pending) calls (.ok expected) heap) :
    ∃ value store, setting.Reaches machine (setting.resume part value pending ⟨store, calls⟩) ∧
      setting.value value = expected ∧ setting.Legible known value ∧ setting.Legal known store ∧
      setting.heap store = heap := by
  obtain ⟨outcome, store, hreach, hagrees, hlegal, hheap⟩ := h
  cases hagrees with
  | @value value hvalue =>
    exact ⟨value, store, hreach.trans (.step (.refl _)), rfl, hvalue, hlegal, hheap⟩

theorem Lands.resume {part : Pending} {expected : Tree.Value}
    (h : setting.Lands known machine (part :: pending) calls (.ok expected) mid)
    (hnext : ∀ value store, setting.value value = expected → setting.Legible known value →
      setting.Legal known store → setting.heap store = mid →
      setting.Lands known (setting.resume part value pending ⟨store, calls⟩) pending calls result
        heap) :
    setting.Lands known machine pending calls result heap := by
  obtain ⟨value, store, hreach, hvalue, hlegible, hlegal, hheap⟩ := h.exists_resume
  exact .of_reaches hreach (hnext value store hvalue hlegible hlegal hheap)

theorem Lands.unwind {part : Pending} {fault : Fault} (hpart : part ≠ .leave)
    (h : setting.Lands known machine (part :: pending) calls (.error fault) heap) :
    setting.Lands known machine pending calls (.error fault) heap := by
  obtain ⟨outcome, store, hreach, hagrees, hlegal, hheap⟩ := h
  cases hagrees with
  | fault raised =>
    have hunwind : setting.step (finished (.error (.raised raised), ⟨store, calls⟩)
        (part :: pending)) = finished (.error (.raised raised), ⟨store, calls⟩) pending := by
      cases part with
      | leave => exact absurd rfl hpart
      | _ => rfl
    refine ⟨.error (.raised raised), store, hreach.trans (.step ?_), .fault raised, hlegal, hheap⟩
    rw [hunwind]
    exact .refl _

/-- The end of a call gives back the calls that were open before it. -/
theorem Lands.leave {label : Option Name} (hlabels : setting.AllLabelled (calls.enter label))
    (h : setting.Lands known machine (.leave :: pending) (calls.enter label) result heap) :
    setting.Lands known machine pending calls result heap := by
  obtain ⟨outcome, store, hreach, hagrees, hlegal, hheap⟩ := h
  have hleave : setting.step (finished (outcome, ⟨store, calls.enter label⟩) (.leave :: pending)) =
      finished (setting.leaveOutcome (calls.enter label) outcome, ⟨store, calls⟩) pending := by
    rw [← leave_enter]
    cases outcome <;> rfl
  refine ⟨_, store, hreach.trans (.step ?_), hagrees.leaveOutcome hlabels, hlegal, hheap⟩
  rw [hleave]
  exact .refl _

/-! ### Starting points -/

/-- A memory in which a derivation can start. -/
structure Ready (setting : Setting) (known : FrameId → Prop) (config : Config) (depth : Nat)
    (frame : FrameId) (heap : Tree.Heap) (store : Store) (calls : CallStack) : Prop where
  heap_eq : setting.heap store = heap
  rules_eq : setting.rules calls = config
  depth_eq : calls.depth = depth
  frame : known frame
  legal : setting.Legal known store
  labels : setting.AllLabelled calls

variable {config : Config} {depth : Nat} {frame : FrameId}

theorem Ready.next {store' : Store}
    (h : setting.Ready known config depth frame heap store calls)
    (hlegal : setting.Legal known store') (hheap : setting.heap store' = mid) :
    setting.Ready known config depth frame mid store' calls :=
  { h with heap_eq := hheap, legal := hlegal }

theorem Ready.scopes_eq (h : setting.Ready known config depth frame heap store calls) {name : Name}
    {text : String} (htext : setting.names.text? name = some text) :
    heap.scopes frame text = (store.lookup frame name).map setting.value := by
  rw [← h.heap_eq]
  exact scopes_heap setting store frame htext

/-! ### What the machine owes to a rule -/

/-- From every node at which a tree stands, in every memory that stands for a heap, the machine
comes to a result and a heap. -/
def Realises (setting : Setting) (known : FrameId → Prop) (config : Config) (depth : Nat)
    (frame : FrameId) (expr : Expr) (heap : Tree.Heap) (result : Tree.Result)
    (heap' : Tree.Heap) : Prop :=
  ∀ id store calls pending, setting.exprAt id = expr →
    setting.Ready known config depth frame heap store calls →
    setting.Lands known ⟨.node id frame, pending, ⟨store, calls⟩⟩ pending calls result heap'

def RealisesBlock (setting : Setting) (known : FrameId → Prop) (config : Config) (depth : Nat)
    (frame : FrameId) (items : List Expr) (heap : Tree.Heap) (result : Tree.Result)
    (heap' : Tree.Heap) : Prop :=
  ∀ ids store calls pending, ids.map setting.exprAt = items →
    setting.Ready known config depth frame heap store calls →
    setting.Lands known (startBlock ids frame pending ⟨store, calls⟩) pending calls result heap'

def RealisesCond (setting : Setting) (known : FrameId → Prop) (config : Config) (depth : Nat)
    (frame : FrameId) (clauses : List (Expr × Expr)) (heap : Tree.Heap) (result : Tree.Result)
    (heap' : Tree.Heap) : Prop :=
  ∀ found store calls pending, found.map setting.pairAt = clauses →
    setting.Ready known config depth frame heap store calls →
    setting.Lands known (startCond found frame pending ⟨store, calls⟩) pending calls result heap'

/-- The machine comes to the start of a call with the values of the operands that were left, or to
their first fault. -/
def Collects (setting : Setting) (known : FrameId → Prop) (machine : Machine) (callee : Value)
    (label : Option Name) (done : List Value) (frame : FrameId) (pending : List Pending)
    (calls : CallStack) : Except Fault (List Tree.Value) → Tree.Heap → Prop
  | .error fault, heap => setting.Lands known machine pending calls (.error fault) heap
  | .ok values, heap => ∃ args store, args.map setting.value = values ∧
    (∀ arg ∈ args, setting.Legible known arg) ∧ setting.Legal known store ∧
    setting.heap store = heap ∧ setting.Reaches machine
      (setting.startCall callee (done.reverse ++ args) frame label pending ⟨store, calls⟩)

def RealisesList (setting : Setting) (known : FrameId → Prop) (config : Config) (depth : Nat)
    (frame : FrameId) (items : List Expr) (heap : Tree.Heap)
    (values : Except Fault (List Tree.Value)) (heap' : Tree.Heap) : Prop :=
  ∀ ids callee label done store calls pending, ids.map setting.exprAt = items →
    setting.Ready known config depth frame heap store calls →
    setting.Collects known
      (setting.startOperands callee label done ids frame pending ⟨store, calls⟩) callee label done
      frame pending calls values heap'

def RealisesCall (setting : Setting) (known : FrameId → Prop) (config : Config) (depth : Nat)
    (frame : FrameId) (text : Option String) (function : Tree.Value) (values : List Tree.Value)
    (heap : Tree.Heap) (result : Tree.Result) (heap' : Tree.Heap) : Prop :=
  ∀ callee args label store calls pending, setting.value callee = function →
    args.map setting.value = values → label.map setting.textOf = text →
    setting.Legible known callee → (∀ arg ∈ args, setting.Legible known arg) →
    setting.Labelled label → setting.Ready known config depth frame heap store calls →
    setting.Lands known (setting.startCall callee args frame label pending ⟨store, calls⟩) pending
      calls result heap'

variable {heap' : Tree.Heap} {expr : Expr}

/-- The machine looks at the node, and what it finds is one layer of the tree. -/
theorem realises_of_stands (hread : setting.Readable)
    (h : ∀ id store calls pending, setting.Stands id expr →
      setting.Ready known config depth frame heap store calls →
      setting.Lands known (setting.startNode id frame pending ⟨store, calls⟩) pending calls result
        heap') :
    setting.Realises known config depth frame expr heap result heap' := by
  intro id store calls pending hexpr hready
  have hstands := stands hread id
  rw [hexpr] at hstands
  exact .of_step (h id store calls pending hstands hready)

/-! ### Forms that evaluate nothing else -/

theorem realises_int (hread : setting.Readable) (word : Word)
    (hlow : -9223372036854775808 < word.val) (hhigh : word.val < 9223372036854775807) :
    setting.Realises known config depth frame (.int word.val) heap (.ok (.int word)) heap := by
  refine realises_of_stands hread fun id store calls pending hstands hready => ?_
  cases hstands with
  | int hnode =>
    simp only [startNode, hnode, evalInt_of_between word hlow hhigh]
    exact lands_value hready.legal trivial hready.heap_eq

theorem realises_intRange (hread : setting.Readable) {literal : Int}
    (hrange : literal ≤ -9223372036854775808 ∨ 9223372036854775807 ≤ literal) :
    setting.Realises known config depth frame (.int literal) heap (.error (.integerRange literal))
      heap := by
  refine realises_of_stands hread fun id store calls pending hstands hready => ?_
  cases hstands with
  | int hnode =>
    simp only [startNode, hnode, evalInt_of_range hrange]
    exact lands_fault hready.legal hready.heap_eq

theorem realises_str (hread : setting.Readable) (text : String) :
    setting.Realises known config depth frame (.str text) heap (.ok (.str text)) heap := by
  refine realises_of_stands hread fun id store calls pending hstands hready => ?_
  cases hstands with
  | str hnode htext =>
    simp only [startNode, hnode, evalStr, htext]
    exact lands_value hready.legal trivial hready.heap_eq

theorem realises_unknown (hread : setting.Readable) (tag : String) :
    setting.Realises known config depth frame (.unknown tag) heap (.error (.unknownForm tag))
      heap := by
  refine realises_of_stands hread fun id store calls pending hstands hready => ?_
  cases hstands with
  | outside hnode =>
    simp only [startNode, hnode]
    exact lands_fault hready.legal hready.heap_eq
  | unknown hnode htext =>
    simp only [startNode, hnode, evalUnknown, NameTable.faultFor, htext]
    exact lands_fault hready.legal hready.heap_eq

theorem realises_ident (hread : setting.Readable) {name : String} {value : Tree.Value}
    (hbound : heap.scopes frame name = some value) :
    setting.Realises known config depth frame (.ident name) heap (.ok value) heap := by
  refine realises_of_stands hread fun id store calls pending hstands hready => ?_
  cases hstands with
  | ident hnode htext =>
    rw [hready.scopes_eq htext] at hbound
    obtain ⟨found, hlookup, rfl⟩ := Option.map_eq_some_iff.1 hbound
    have hlegible := hready.legal.values _ _ _ hready.frame hlookup
    simp only [startNode, hnode, evalIdent, hlookup]
    exact lands_value hready.legal hlegible hready.heap_eq

theorem realises_unbound (hread : setting.Readable) {name : String}
    (hfree : heap.scopes frame name = none) :
    setting.Realises known config depth frame (.ident name) heap
      (.error (.unboundIdentifier name)) heap := by
  refine realises_of_stands hread fun id store calls pending hstands hready => ?_
  cases hstands with
  | ident hnode htext =>
    rw [hready.scopes_eq htext] at hfree
    simp only [startNode, hnode, evalIdent, Option.map_eq_none_iff.1 hfree, NameTable.faultFor,
      htext]
    exact lands_fault hready.legal hready.heap_eq

theorem realises_lambda (hread : setting.Readable) (params : List String) (body : Expr) :
    setting.Realises known config depth frame (.lambda params body) heap
      (.ok (.closure params body frame heap.closures))
      { heap with closures := heap.closures + 1 } := by
  refine realises_of_stands hread fun id store calls pending hstands hready => ?_
  cases hstands with
  | lambda hnode hparams hnamed htexts hbody =>
    subst htexts hbody
    simp only [startNode, hnode, evalLambda, hparams]
    rw [← hready.heap_eq]
    exact lands_value (hready.legal.newClosure _ _) ⟨hready.frame, hnamed⟩ rfl

/-! ### Binding and assigning -/

variable {name : String} {init body : Expr} {value : Tree.Value} {fault : Fault}

theorem realises_letIn (hread : setting.Readable)
    (hinit : setting.Realises known config depth frame init heap (.ok value) mid)
    (hbody : setting.Realises known config depth ⟨mid.size⟩ body
      (mid.copy frame fun key => if key = name then some value else none) result heap') :
    setting.Realises known config depth frame (.letIn name init body) heap result heap' := by
  refine realises_of_stands hread fun id store calls pending hstands hready => ?_
  cases hstands with
  | @letIn key _ _ bodyId _ _ hnode htext hfirst hsecond =>
    simp only [startNode, hnode]
    refine (hinit _ _ _ _ hfirst hready).resume ?_
    rintro found mid' rfl hlegible hlegal rfl
    have hscope := hlegal.extend_one key hready.frame hlegible
    exact hbody bodyId (mid'.extend frame [(key, found)]).2 calls pending hsecond
      { hready with
        heap_eq := heap_extend_one mid' frame found htext
        frame := hscope.2
        legal := hscope.1 }

theorem realises_letInFault (hread : setting.Readable)
    (hinit : setting.Realises known config depth frame init heap (.error fault) heap') :
    setting.Realises known config depth frame (.letIn name init body) heap (.error fault)
      heap' := by
  refine realises_of_stands hread fun id store calls pending hstands hready => ?_
  cases hstands with
  | letIn hnode htext hfirst hsecond =>
    simp only [startNode, hnode]
    exact (hinit _ _ _ _ hfirst hready).unwind Pending.noConfusion

theorem realises_assign (hread : setting.Readable) {old : Tree.Value}
    (hvalue : setting.Realises known config depth frame expr heap (.ok value) mid)
    (hbound : mid.scopes frame name = some old) :
    setting.Realises known config depth frame (.assign name expr) heap (.ok value)
      (mid.assign frame name value) := by
  refine realises_of_stands hread fun id store calls pending hstands hready => ?_
  cases hstands with
  | @assign key _ _ _ hnode htext hexpr =>
    simp only [startNode, hnode]
    refine (hvalue _ _ _ _ hexpr hready).resume ?_
    rintro found mid' rfl hlegible hlegal rfl
    rw [scopes_heap setting mid' frame htext] at hbound
    obtain ⟨previous, hlookup, -⟩ := Option.map_eq_some_iff.1 hbound
    have hcontains : mid'.contains frame key = true := congrArg Option.isSome hlookup
    simp only [Setting.resume, assignName, hcontains, if_true]
    exact lands_value (hlegal.reassign hlegible hcontains) hlegible (heap_reassign htext hcontains)

theorem realises_assignUnbound (hread : setting.Readable)
    (hvalue : setting.Realises known config depth frame expr heap (.ok value) mid)
    (hfree : mid.scopes frame name = none) :
    setting.Realises known config depth frame (.assign name expr) heap
      (.error (.unassignedVariable name)) mid := by
  refine realises_of_stands hread fun id store calls pending hstands hready => ?_
  cases hstands with
  | @assign key _ _ _ hnode htext hexpr =>
    simp only [startNode, hnode]
    refine (hvalue _ _ _ _ hexpr hready).resume ?_
    rintro found mid' - - hlegal rfl
    rw [scopes_heap setting mid' frame htext] at hfree
    have hcontains : mid'.contains frame key = false :=
      congrArg Option.isSome (Option.map_eq_none_iff.1 hfree)
    simp only [Setting.resume, assignName, hcontains, NameTable.faultFor, htext]
    exact lands_fault hlegal rfl

theorem realises_assignFault (hread : setting.Readable)
    (hvalue : setting.Realises known config depth frame expr heap (.error fault) mid) :
    setting.Realises known config depth frame (.assign name expr) heap (.error fault) mid := by
  refine realises_of_stands hread fun id store calls pending hstands hready => ?_
  cases hstands with
  | assign hnode htext hexpr =>
    simp only [startNode, hnode]
    exact (hvalue _ _ _ _ hexpr hready).unwind Pending.noConfusion

/-! ### Blocks -/

variable {items rest : List Expr} {item next : Expr}

theorem realises_block (hread : setting.Readable)
    (hitems : setting.RealisesBlock known config depth frame items heap result heap') :
    setting.Realises known config depth frame (.block items) heap result heap' := by
  refine realises_of_stands hread fun id store calls pending hstands hready => ?_
  cases hstands with
  | block hnode hlist hexprs =>
    simp only [startNode, hnode, hlist]
    exact hitems _ _ _ _ hexprs hready

theorem realisesBlock_nil :
    setting.RealisesBlock known config depth frame [] heap (.ok (.bool false)) heap := by
  intro ids store calls pending hids hready
  rw [List.map_eq_nil_iff.1 hids]
  exact lands_value hready.legal trivial hready.heap_eq

theorem realisesBlock_last
    (hitem : setting.Realises known config depth frame item heap result heap') :
    setting.RealisesBlock known config depth frame [item] heap result heap' := by
  intro ids store calls pending hids hready
  obtain ⟨id, others, rfl, hid, hothers⟩ := List.map_eq_cons_iff.1 hids
  rw [List.map_eq_nil_iff.1 hothers]
  exact hitem _ _ _ _ hid hready

theorem realisesBlock_cons
    (hitem : setting.Realises known config depth frame item heap (.ok value) mid)
    (hrest : setting.RealisesBlock known config depth frame (next :: rest) mid result heap') :
    setting.RealisesBlock known config depth frame (item :: next :: rest) heap result heap' := by
  intro ids store calls pending hids hready
  obtain ⟨id, others, rfl, hid, hothers⟩ := List.map_eq_cons_iff.1 hids
  obtain ⟨second, last, rfl, -, -⟩ := List.map_eq_cons_iff.1 hothers
  refine (hitem _ _ _ (.block (second :: last) frame :: pending) hid hready).resume ?_
  intro found mid' _ _ hlegal hheap
  exact hrest _ _ _ _ hothers (hready.next hlegal hheap)

theorem realisesBlock_fault
    (hitem : setting.Realises known config depth frame item heap (.error fault) mid) :
    setting.RealisesBlock known config depth frame (item :: next :: rest) heap (.error fault)
      mid := by
  intro ids store calls pending hids hready
  obtain ⟨id, others, rfl, hid, hothers⟩ := List.map_eq_cons_iff.1 hids
  obtain ⟨second, last, rfl, -, -⟩ := List.map_eq_cons_iff.1 hothers
  exact (hitem _ _ _ (.block (second :: last) frame :: pending) hid hready).unwind
    Pending.noConfusion

/-! ### Conditionals -/

variable {clauses : List (Expr × Expr)} {test consequence : Expr}

theorem realises_cond (hread : setting.Readable)
    (hclauses : setting.RealisesCond known config depth frame clauses heap result heap') :
    setting.Realises known config depth frame (.cond clauses) heap result heap' := by
  refine realises_of_stands hread fun id store calls pending hstands hready => ?_
  cases hstands with
  | cond hnode hlist hpairs =>
    simp only [startNode, hnode, hlist]
    exact hclauses _ _ _ _ hpairs hready

theorem realisesCond_nil :
    setting.RealisesCond known config depth frame [] heap (.ok (.bool false)) heap := by
  intro found store calls pending hfound hready
  rw [List.map_eq_nil_iff.1 hfound]
  exact lands_value hready.legal trivial hready.heap_eq

/-- A first test that has a value, which decides how the conditional goes on. -/
theorem realisesCond_cons
    (htest : setting.Realises known config depth frame test heap (.ok value) mid)
    (hnext : ∀ found (clause : Clause) others store calls pending, setting.value found = value →
      setting.exprAt clause.consequence = consequence → others.map setting.pairAt = clauses →
      setting.Ready known config depth frame mid store calls →
      setting.Lands known (setting.resume (.cond clause.consequence others frame) found pending
        ⟨store, calls⟩) pending calls result heap') :
    setting.RealisesCond known config depth frame ((test, consequence) :: clauses) heap result
      heap' := by
  intro found store calls pending hfound hready
  obtain ⟨clause, others, rfl, hpair, hothers⟩ := List.map_eq_cons_iff.1 hfound
  obtain ⟨hfirst, hsecond⟩ := Prod.mk.inj hpair
  refine (htest _ _ _ (.cond clause.consequence others frame :: pending) hfirst hready).resume ?_
  intro found mid' hvalue _ hlegal hheap
  exact hnext found clause others mid' calls pending hvalue hsecond hothers
    (hready.next hlegal hheap)

theorem realisesCond_selected
    (htest : setting.Realises known config depth frame test heap (.ok (.bool true)) mid)
    (hconsequence : setting.Realises known config depth frame consequence mid result heap') :
    setting.RealisesCond known config depth frame ((test, consequence) :: clauses) heap result
      heap' := by
  refine realisesCond_cons htest ?_
  intro found clause others store calls pending hvalue hsecond _ hready
  rw [eq_bool_of_value hvalue]
  exact hconsequence _ _ _ _ hsecond hready

theorem realisesCond_skipped
    (htest : setting.Realises known config depth frame test heap (.ok (.bool false)) mid)
    (hrest : setting.RealisesCond known config depth frame clauses mid result heap') :
    setting.RealisesCond known config depth frame ((test, consequence) :: clauses) heap result
      heap' := by
  refine realisesCond_cons htest ?_
  intro found clause others store calls pending hvalue _ hothers hready
  rw [eq_bool_of_value hvalue]
  exact hrest _ _ _ _ hothers hready

theorem realisesCond_notBoolean
    (htest : setting.Realises known config depth frame test heap (.ok value) mid)
    (hbool : ∀ b, value ≠ .bool b) :
    setting.RealisesCond known config depth frame ((test, consequence) :: clauses) heap
      (.error (.typeMismatch "conditional test must be boolean" "bool" value.typeName)) mid := by
  refine realisesCond_cons htest ?_
  rintro found clause others store calls pending rfl _ _ hready
  rw [typeName_value]
  cases found with
  | bool b => exact absurd rfl (hbool b)
  | int _ | str _ | native _ | closure _ => exact lands_fault hready.legal hready.heap_eq

theorem realisesCond_fault
    (htest : setting.Realises known config depth frame test heap (.error fault) mid) :
    setting.RealisesCond known config depth frame ((test, consequence) :: clauses) heap
      (.error fault) mid := by
  intro found store calls pending hfound hready
  obtain ⟨clause, others, rfl, hpair, -⟩ := List.map_eq_cons_iff.1 hfound
  have hfirst := (Prod.mk.inj hpair).1
  exact (htest _ _ _ (.cond clause.consequence others frame :: pending) hfirst hready).unwind
    Pending.noConfusion

/-! ### Operands -/

variable {values : List Tree.Value}

theorem realisesList_nil :
    setting.RealisesList known config depth frame [] heap (.ok []) heap := by
  intro ids callee label done store calls pending hids hready
  rw [List.map_eq_nil_iff.1 hids]
  refine ⟨[], store, rfl, by simp, hready.legal, hready.heap_eq, ?_⟩
  rw [List.append_nil]
  exact .refl _

theorem realisesList_cons
    (hitem : setting.Realises known config depth frame item heap (.ok value) mid)
    (hrest : setting.RealisesList known config depth frame rest mid (.ok values) heap') :
    setting.RealisesList known config depth frame (item :: rest) heap (.ok (value :: values))
      heap' := by
  intro ids callee label done store calls pending hids hready
  obtain ⟨id, others, rfl, hid, hothers⟩ := List.map_eq_cons_iff.1 hids
  obtain ⟨found, mid', hfirst, rfl, hlegible, hlegal, hheap⟩ :=
    (hitem _ _ _ (.operand callee label done others frame :: pending) hid hready).exists_resume
  obtain ⟨args, last, rfl, hargs, hlegal', hheap', hlast⟩ :=
    hrest others callee label (found :: done) mid' calls pending hothers (hready.next hlegal hheap)
  refine ⟨found :: args, last, rfl, ?_, hlegal', hheap', ?_⟩
  · intro arg harg
    rcases List.mem_cons.1 harg with rfl | hmem
    · exact hlegible
    · exact hargs arg hmem
  · rw [List.reverse_cons, List.append_assoc] at hlast
    exact hfirst.trans hlast

theorem realisesList_fault
    (hitem : setting.Realises known config depth frame item heap (.error fault) mid) :
    setting.RealisesList known config depth frame (item :: rest) heap (.error fault) mid := by
  intro ids callee label done store calls pending hids hready
  obtain ⟨id, others, rfl, hid, -⟩ := List.map_eq_cons_iff.1 hids
  exact (hitem _ _ _ (.operand callee label done others frame :: pending) hid hready).unwind
    Pending.noConfusion

theorem realisesList_restFault
    (hitem : setting.Realises known config depth frame item heap (.ok value) mid)
    (hrest : setting.RealisesList known config depth frame rest mid (.error fault) heap') :
    setting.RealisesList known config depth frame (item :: rest) heap (.error fault) heap' := by
  intro ids callee label done store calls pending hids hready
  obtain ⟨id, others, rfl, hid, hothers⟩ := List.map_eq_cons_iff.1 hids
  refine (hitem _ _ _ (.operand callee label done others frame :: pending) hid hready).resume ?_
  intro found mid' _ _ hlegal hheap
  exact hrest others callee label (found :: done) mid' calls pending hothers
    (hready.next hlegal hheap)

/-! ### Applications -/

variable {operator : Expr} {operands : List Expr} {last : Tree.Heap}

/-- An operator that has a value, which decides whether the operands are looked at. -/
theorem realises_applyWith (hread : setting.Readable)
    (hoperator : setting.Realises known config depth frame operator heap (.ok value) mid)
    (hnext : ∀ callee id span ids store calls pending, setting.value callee = value →
      setting.Legible known callee → setting.exprAt id = operator →
      Span.read? span setting.code.lists = some ids → ids.map setting.exprAt = operands →
      setting.Ready known config depth frame mid store calls →
      setting.Lands known (setting.resume (.operator id span frame) callee pending ⟨store, calls⟩)
        pending calls result heap') :
    setting.Realises known config depth frame (.apply operator operands) heap result heap' := by
  refine realises_of_stands hread fun id store calls pending hstands hready => ?_
  cases hstands with
  | @apply first span ids _ _ hnode hlist hfirst hrest =>
    simp only [startNode, hnode]
    refine (hoperator _ _ _ _ hfirst hready).resume ?_
    intro callee mid' hvalue hlegible hlegal hheap
    exact hnext callee first span ids mid' calls pending hvalue hlegible hfirst hlist hrest
      (hready.next hlegal hheap)

theorem realises_apply (hread : setting.Readable)
    (hoperator : setting.Realises known config depth frame operator heap (.ok value) mid)
    (hcallable : value.Callable)
    (hoperands : setting.RealisesList known config depth frame operands mid (.ok values) last)
    (hcall : setting.RealisesCall known config depth frame (Tree.label operator) value values last
      result heap') :
    setting.Realises known config depth frame (.apply operator operands) heap result heap' := by
  refine realises_applyWith hread hoperator ?_
  rintro callee id span ids store calls pending rfl hlegible rfl hlist hrest hready
  rw [callable_value_iff] at hcallable
  simp only [Setting.resume, hcallable, if_true, hlist]
  obtain ⟨hlabel, htext⟩ := callLabel_spec hread id
  obtain ⟨args, store', hargs, hlegibles, hlegal, hheap, hreach⟩ :=
    hoperands ids callee (setting.code.callLabel id) [] store calls pending hrest hready
  exact .of_reaches hreach (hcall _ _ _ _ _ _ rfl hargs htext hlegible hlegibles hlabel
    (hready.next hlegal hheap))

theorem realises_applyOperatorFault (hread : setting.Readable)
    (hoperator : setting.Realises known config depth frame operator heap (.error fault) mid) :
    setting.Realises known config depth frame (.apply operator operands) heap (.error fault)
      mid := by
  refine realises_of_stands hread fun id store calls pending hstands hready => ?_
  cases hstands with
  | apply hnode hlist hfirst hrest =>
    simp only [startNode, hnode]
    exact (hoperator _ _ _ _ hfirst hready).unwind Pending.noConfusion

theorem realises_applyNotCallable (hread : setting.Readable)
    (hoperator : setting.Realises known config depth frame operator heap (.ok value) mid)
    (hcallable : ¬ value.Callable) :
    setting.Realises known config depth frame (.apply operator operands) heap
      (.error (.notCallable value.typeName)) mid := by
  refine realises_applyWith hread hoperator ?_
  rintro callee id span ids store calls pending rfl _ _ _ _ hready
  rw [callable_value_iff] at hcallable
  rw [typeName_value]
  simp only [Setting.resume, hcallable]
  exact lands_fault hready.legal hready.heap_eq

theorem realises_applyOperandFault (hread : setting.Readable)
    (hoperator : setting.Realises known config depth frame operator heap (.ok value) mid)
    (hcallable : value.Callable)
    (hoperands : setting.RealisesList known config depth frame operands mid (.error fault) last) :
    setting.Realises known config depth frame (.apply operator operands) heap (.error fault)
      last := by
  refine realises_applyWith hread hoperator ?_
  rintro callee id span ids store calls pending rfl _ _ hlist hrest hready
  rw [callable_value_iff] at hcallable
  simp only [Setting.resume, hcallable, if_true, hlist]
  exact hoperands ids callee (setting.code.callLabel id) [] store calls pending hrest hready

/-! ### Calls -/

variable {text : Option String} {function : Native} {prims : List Primitive}
  {params : List String} {captured : FrameId} {serial : Nat}

theorem eq_map_toValue_of_map_value {args : List Value}
    (h : args.map setting.value = prims.map Tree.Value.ofPrimitive) :
    args = prims.map Primitive.toValue := by
  induction args generalizing prims with
  | nil => cases prims with
    | nil => rfl
    | cons _ _ => cases h
  | cons arg rest ih =>
    cases prims with
    | nil => cases h
    | cons first others =>
      obtain ⟨harg, hrest⟩ := List.cons_eq_cons.1 h
      rw [List.map_cons, eq_toValue_of_value harg, ih hrest]

theorem realisesCall_native (hargs : values = prims.map Tree.Value.ofPrimitive) :
    setting.RealisesCall known config depth frame text (.native function) values heap
      ((function.apply prims).map Tree.Value.ofPrimitive) heap := by
  intro callee args label store calls pending hcallee hvalues _ _ _ _ hready
  obtain rfl := eq_native_of_value hcallee
  have hcall : function.call args = (function.apply prims).map Primitive.toValue := by
    rw [eq_map_toValue_of_map_value (hvalues.trans hargs), Native.call_map_toValue]
  refine ⟨.ofFault (function.call args), store, .refl _, ?_, hready.legal, hready.heap_eq⟩
  rw [hcall]
  exact agrees_ofFault_map _

theorem realisesCall_nativeMismatch {arg : Tree.Value} {rest : List Tree.Value}
    (hargs : values = prims.map Tree.Value.ofPrimitive ++ arg :: rest)
    (hcallable : arg.Callable) :
    setting.RealisesCall known config depth frame text (.native function) values heap
      (.error (.typeMismatch function.name "primitive" arg.typeName)) heap := by
  intro callee args label store calls pending hcallee hvalues _ _ _ _ hready
  obtain rfl := eq_native_of_value hcallee
  obtain ⟨before, others, rfl, hbefore, hothers⟩ := List.map_eq_append_iff.1 (hvalues.trans hargs)
  obtain ⟨first, last, rfl, rfl, -⟩ := List.map_eq_cons_iff.1 hothers
  obtain rfl := eq_map_toValue_of_map_value hbefore
  have hcall := function.call_of_callable prims last (callable_value_iff.1 hcallable)
  rw [typeName_value]
  refine ⟨.ofFault (function.call _), store, .refl _, ?_, hready.legal, hready.heap_eq⟩
  rw [hcall]
  exact agrees_fault _

theorem realisesCall_arity (hcount : params.length ≠ values.length) :
    setting.RealisesCall known config depth frame text (.closure params body captured serial) values
      heap (.error (.arityMismatch (text.getD "") params.length values.length false)) heap := by
  rintro callee args label store calls pending hcallee rfl rfl _ _ hlabel hready
  obtain ⟨closure, rfl, rfl, -, -, -⟩ := eq_closure_of_value hcallee
  rw [List.length_map, List.length_map] at hcount ⊢
  simp only [startCall, enter, enterClosure_of_count_ne hlabel hcount]
  exact lands_fault hready.legal hready.heap_eq

theorem realisesCall_duplicate {before after : List String} {param : String}
    (hcount : params.length = values.length) (hsplit : params = before ++ param :: after)
    (hbefore : before.Nodup) (hparam : param ∈ before) :
    setting.RealisesCall known config depth frame text (.closure params body captured serial) values
      heap (.error (.duplicateParameter param)) heap := by
  rintro callee args label store calls pending hcallee rfl rfl hlegible _ _ hready
  obtain ⟨closure, rfl, rfl, -, -, -⟩ := eq_closure_of_value hcallee
  rw [List.length_map, List.length_map] at hcount
  simp only [startCall, enter, enterClosure_of_duplicate hlegible.2 hcount hsplit hbefore hparam]
  exact lands_fault hready.legal hready.heap_eq

/-- What a call finds that gets as far as its scope. -/
theorem exists_callFrame {callee : Value} {args : List Value} {scope : FrameId}
    (hcallee : setting.value callee = .closure params body captured serial)
    (hvalues : args.map setting.value = values) (hlegible : setting.Legible known callee)
    (hlegibles : ∀ arg ∈ args, setting.Legible known arg)
    (hready : setting.Ready known config depth frame heap store calls)
    (hcount : params.length = values.length) (hparams : params.Nodup)
    (hscope : heap.enter (Tree.base config.scoping captured frame) params values = (scope, mid)) :
    ∃ closure : Closure, callee = .closure closure ∧ closure.params.length = args.length ∧
      closure.params.Nodup ∧ setting.exprAt closure.body = body ∧
      (setting.callFrame closure args frame store).1 = scope ∧
      setting.heap (setting.callFrame closure args frame store).2 = mid ∧
      setting.Legal known (setting.callFrame closure args frame store).2 ∧ known scope := by
  obtain ⟨closure, rfl, rfl, hbody, rfl, -⟩ := eq_closure_of_value hcallee
  have hnodup : closure.params.Nodup := nodup_of_nodup_map_textOf hparams
  rw [← hvalues, List.length_map, List.length_map] at hcount
  rw [← hready.rules_eq, ← hready.heap_eq, ← hvalues, rules,
    enter_eq_callFrame setting store frame hlegible.2 hcount hnodup] at hscope
  obtain ⟨hframe, hheap⟩ := Prod.mk.inj hscope
  obtain ⟨hlegal, hknown⟩ := hready.legal.callFrame hlegible hready.frame hlegibles hcount hnodup
  rw [hframe] at hknown
  exact ⟨closure, rfl, hcount, hnodup, hbody, hframe, hheap, hlegal, hknown⟩

theorem realisesCall_overflow {scope : FrameId} {limit : Nat}
    (hcount : params.length = values.length) (hparams : params.Nodup)
    (hscope : heap.enter (Tree.base config.scoping captured frame) params values = (scope, heap'))
    (hlimit : config.maxDepth = some limit) (hdepth : limit ≤ depth) :
    setting.RealisesCall known config depth frame text (.closure params body captured serial) values
      heap (.error (.stackOverflow limit)) heap' := by
  intro callee args label store calls pending hcallee hvalues _ hlegible hlegibles _ hready
  obtain ⟨closure, rfl, hcount', hnodup, -, -, hheap, hlegal, -⟩ :=
    exists_callFrame hcallee hvalues hlegible hlegibles hready hcount hparams hscope
  have hover : calls.overflow? = some (.stackOverflow limit) := by
    rw [← hready.rules_eq] at hlimit
    rw [← hready.depth_eq] at hdepth
    exact overflow?_of_le hlimit hdepth
  have henter : setting.enterClosure closure args frame label ⟨store, calls⟩ = _ :=
    enterClosure_of_overflow hcount' hnodup hover
  simp only [startCall, enter, henter]
  exact ⟨_, _, .refl _, agrees_attach hready.labels ⟨.stackOverflow limit, none⟩, hlegal, hheap⟩

theorem realisesCall_body {scope : FrameId} (hcount : params.length = values.length)
    (hparams : params.Nodup)
    (hscope : heap.enter (Tree.base config.scoping captured frame) params values = (scope, mid))
    (hdepth : ∀ limit, config.maxDepth = some limit → depth < limit)
    (hbody : setting.Realises known config (depth + 1) scope body mid result heap') :
    setting.RealisesCall known config depth frame text (.closure params body captured serial) values
      heap result heap' := by
  intro callee args label store calls pending hcallee hvalues _ hlegible hlegibles hlabel hready
  obtain ⟨closure, rfl, hcount', hnodup, hexpr, hframe, hheap, hlegal, hknown⟩ :=
    exists_callFrame hcallee hvalues hlegible hlegibles hready hcount hparams hscope
  have hroom : calls.overflow? = none := by
    rw [CallStack.overflow?_eq_none_iff, hready.depth_eq]
    rw [← hready.rules_eq] at hdepth
    exact hdepth
  have henter : setting.enterClosure closure args frame label ⟨store, calls⟩ = _ :=
    enterClosure_of_room hcount' hnodup hroom
  have hlabels := allLabelled_enter hready.labels hlabel
  have hdepth' : (calls.enter label).depth = depth + 1 := by
    rw [CallStack.depth_enter, hready.depth_eq]
  -- The body runs with the end of the call pending, one call deeper.
  simp only [startCall, enter, henter]
  rw [hframe]
  refine (hbody _ _ _ (.leave :: pending) hexpr ?_).leave hlabels
  exact ⟨hheap, hready.rules_eq, hdepth', hknown, hlegal, hlabels⟩

/-! ### Derivations -/

/-- Whatever the rules derive for a tree, the machine comes to from a node at which it stands. -/
theorem realises_of_eval (hread : setting.Readable) {frame : FrameId} {result : Tree.Result}
    (h : Tree.Eval config depth frame expr heap result heap') :
    setting.Realises known config depth frame expr heap result heap' := by
  -- The rules of the five relations in their order, each with what the machine owes to it.
  exact @Tree.Eval.rec config
    (fun depth frame expr heap result heap' _ =>
      setting.Realises known config depth frame expr heap result heap')
    (fun depth frame items heap result heap' _ =>
      setting.RealisesBlock known config depth frame items heap result heap')
    (fun depth frame clauses heap result heap' _ =>
      setting.RealisesCond known config depth frame clauses heap result heap')
    (fun depth frame items heap values heap' _ =>
      setting.RealisesList known config depth frame items heap values heap')
    (fun depth frame text function values heap result heap' _ =>
      setting.RealisesCall known config depth frame text function values heap result heap')
    (realises_int hread) (realises_intRange hread) (realises_str hread) (realises_unknown hread)
    (realises_ident hread) (realises_unbound hread) (realises_lambda hread)
    (fun _ => realises_block hread) (fun _ => realises_cond hread)
    (fun _ _ => realises_letIn hread) (fun _ => realises_letInFault hread)
    (fun _ hbound hvalue => realises_assign hread hvalue hbound)
    (fun _ hfree hvalue => realises_assignUnbound hread hvalue hfree)
    (fun _ => realises_assignFault hread)
    (fun _ hcallable _ _ hoperator => realises_apply hread hoperator hcallable)
    (fun _ => realises_applyOperatorFault hread)
    (fun _ hcallable hoperator => realises_applyNotCallable hread hoperator hcallable)
    (fun _ hcallable _ hoperator => realises_applyOperandFault hread hoperator hcallable)
    realisesBlock_nil (fun _ => realisesBlock_last) (fun _ _ => realisesBlock_cons)
    (fun _ => realisesBlock_fault)
    realisesCond_nil (fun _ _ => realisesCond_selected) (fun _ _ => realisesCond_skipped)
    (fun _ hbool htest => realisesCond_notBoolean htest hbool) (fun _ => realisesCond_fault)
    realisesList_nil (fun _ _ => realisesList_cons) (fun _ => realisesList_fault)
    (fun _ _ => realisesList_restFault)
    realisesCall_native realisesCall_nativeMismatch realisesCall_arity realisesCall_duplicate
    realisesCall_overflow
    (fun hcount hparams hscope hdepth _ => realisesCall_body hcount hparams hscope hdepth)
    depth frame expr heap result heap' h

end FlatScope.Setting
