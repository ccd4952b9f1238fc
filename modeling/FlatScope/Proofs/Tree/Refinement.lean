import FlatScope.Proofs.Tree.Completeness

/-!
# Running a decoded program is evaluating its tree

The machine on the nodes of a decoded program and the rules on the tree that the program encodes give
the same values, faults and bindings, or neither comes to an end.  Nothing is asked of the frame in
which a program starts but that the parameters of the closures it can reach have texts.
-/

namespace FlatScope

/-! ### What a frame can reach -/

/-- A frame is reached through the closures that frames bind. -/
inductive Store.Reachable (store : Store) (start : FrameId) : FrameId → Prop where
  | refl : Reachable store start start
  | step {id : FrameId} {name : Name} {closure : Closure} (hid : Reachable store start id)
      (hbound : store.lookup id name = some (.closure closure)) :
      Reachable store start closure.frame

namespace Setting

variable {setting : Setting} {store : Store} {frame : FrameId}

/-- The parameters of every closure that a frame can reach have texts. -/
def NamesParams (setting : Setting) (store : Store) (start : FrameId) : Prop :=
  ∀ id name closure, store.Reachable start id → store.lookup id name = some (.closure closure) →
    ∀ param ∈ closure.params, (setting.names.text? param).isSome

/-- The frames that a program can come to: those it reaches at its start and those it makes. -/
def Scope (store : Store) (start id : FrameId) : Prop :=
  store.Reachable start id ∨ store.frames.size ≤ id.index

theorem legal_of_namesParams (h : setting.NamesParams store frame) :
    setting.Legal (Scope store frame) store := by
  refine ⟨fun id hid => .inr hid, ?_⟩
  intro id name value hid hlookup
  cases value with
  | int _ | str _ | bool _ | native _ => trivial
  | closure closure =>
    rcases hid with hreach | hfresh
    · exact ⟨.inl (hreach.step hlookup), h id name closure hreach hlookup⟩
    · have hempty : store.bindings id = [] :=
        Store.bindings_of_not_holds (Nat.not_lt.2 hfresh)
      rw [Store.lookup, hempty] at hlookup
      cases hlookup

/-! ### Agreement -/

/-- The result that an outcome stands for; none for a breach. -/
def result? (setting : Setting) : Outcome → Option Tree.Result
  | .ok value => some (.ok (setting.value value))
  | .error (.raised raised) => some (.error raised.fault)
  | .error (.breach _) => none

theorem Agrees.result? {known : FrameId → Prop} {outcome : Outcome} {result : Tree.Result}
    (h : setting.Agrees known outcome result) : setting.result? outcome = some result := by
  cases h <;> rfl

/-- Evaluating a node in a frame, from no open calls and with any limit on them, comes to an end
exactly when the rules derive a result for the tree, and then with that result and with the bindings
that the rules leave in every frame.  It never ends in a breach. -/
def Computes (setting : Setting) (id : NodeId) (expr : Expr) : Prop :=
  ∀ limit store frame, setting.NamesParams store frame →
    (∀ result heap,
      Tree.Eval ⟨setting.scoping, limit⟩ 0 frame expr (setting.heap store) result heap ↔
        ∃ steps outcome memory,
          setting.run steps ⟨.node id frame, [], ⟨store, .new limit⟩⟩ = some (outcome, memory) ∧
            setting.result? outcome = some result ∧ setting.heap memory.store = heap) ∧
      ∀ steps outcome memory,
        setting.run steps ⟨.node id frame, [], ⟨store, .new limit⟩⟩ = some (outcome, memory) →
          (setting.result? outcome).isSome

theorem exists_eval_of_run (hread : setting.Readable) {id : NodeId} {limit : Option Nat}
    {steps : Nat} {outcome : Outcome} {memory : Memory}
    (hparams : setting.NamesParams store frame)
    (h : setting.run steps ⟨.node id frame, [], ⟨store, .new limit⟩⟩ = some (outcome, memory)) :
    ∃ result, setting.result? outcome = some result ∧
      Tree.Eval ⟨setting.scoping, limit⟩ 0 frame (setting.exprAt id) (setting.heap store) result
        (setting.heap memory.store) := by
  obtain ⟨depth, heval⟩ := exists_run_eq_some_iff.1 ⟨steps, h⟩
  have hlabels : setting.AllLabelled (.new limit) := fun label hlabel => nomatch hlabel
  have hfollows : setting.Follows (Scope store frame) (setting.eval depth) :=
    follows_eval hread depth
  obtain ⟨result, hagrees, -, -, hderives⟩ := hfollows id frame store (.new limit) _ (.inl .refl)
    (legal_of_namesParams hparams) hlabels heval
  exact ⟨result, hagrees.result?, hderives⟩

theorem exists_run_of_eval (hread : setting.Readable) {id : NodeId} {limit : Option Nat}
    {result : Tree.Result} {heap : Tree.Heap} (hparams : setting.NamesParams store frame)
    (h : Tree.Eval ⟨setting.scoping, limit⟩ 0 frame (setting.exprAt id) (setting.heap store) result
      heap) :
    ∃ steps outcome memory,
      setting.run steps ⟨.node id frame, [], ⟨store, .new limit⟩⟩ = some (outcome, memory) ∧
        setting.result? outcome = some result ∧ setting.heap memory.store = heap := by
  have hready : setting.Ready (Scope store frame) ⟨setting.scoping, limit⟩ 0 frame
      (setting.heap store) store (.new limit) :=
    ⟨rfl, rfl, rfl, .inl .refl, legal_of_namesParams hparams, fun label hlabel => nomatch hlabel⟩
  obtain ⟨outcome, store', hreach, hagrees, -, hheap⟩ :=
    realises_of_eval hread h id store (.new limit) [] rfl hready
  obtain ⟨steps, hrun⟩ := Reaches.exists_run hreach
  exact ⟨steps, outcome, ⟨store', .new limit⟩, hrun, hagrees.result?, hheap⟩

theorem computes_exprAt (setting : Setting) (hread : setting.Readable) (id : NodeId) :
    setting.Computes id (setting.exprAt id) := by
  intro limit store frame hparams
  refine ⟨fun result heap => ⟨exists_run_of_eval hread hparams, ?_⟩, ?_⟩
  · rintro ⟨steps, outcome, memory, hrun, hresult, rfl⟩
    obtain ⟨other, hother, hderives⟩ := exists_eval_of_run hread hparams hrun
    obtain rfl : other = result := Option.some.inj (hother.symm.trans hresult)
    exact hderives
  · intro steps outcome memory hrun
    obtain ⟨other, hother, -⟩ := exists_eval_of_run hread hparams hrun
    rw [hother]
    rfl

end Setting

/-! ### Decoded programs -/

namespace Program

variable {json : Json} {before after names : NameTable} {program : Program}

/-- In any code whose nodes all have trees, a node computes the tree that stands at it. -/
theorem computes_of_expr? {code : Code} (scoping : Scoping) (hread : code.Readable names)
    {id : NodeId} {expr : Expr} (hexpr : code.expr? names id = some expr) :
    Setting.Computes ⟨code, names, scoping⟩ id expr := by
  let setting : Setting := ⟨code, names, scoping⟩
  have hat : setting.exprAt id = expr := Setting.exprAt_of_expr? hexpr
  rw [← hat]
  exact setting.computes_exprAt hread id

theorem encodesList_get {items : List Json} {exprs : List Expr} (h : EncodesList items exprs)
    {i : Nat} {item : Json} (hitem : items[i]? = some item) :
    ∃ expr, exprs[i]? = some expr ∧ Encodes item expr := by
  induction items generalizing exprs i with
  | nil => cases hitem
  | cons first rest ih =>
    cases h with
    | cons hfirst hrest =>
      cases i with
      | zero =>
        cases hitem
        exact ⟨_, rfl, hfirst⟩
      | succ i => exact ih hrest hitem

theorem length_eq_of_encodesList {items : List Json} {exprs : List Expr}
    (h : EncodesList items exprs) : items.length = exprs.length := by
  induction items generalizing exprs with
  | nil =>
    cases h
    rfl
  | cons first rest ih =>
    cases h with
    | cons hfirst hrest => rw [List.length_cons, List.length_cons, ih hrest]

/-- The node of a block lists the roots of its items. -/
theorem exists_roots_of_expr? {exprs : List Expr}
    (h : program.code.expr? names program.root = some (.block exprs)) :
    ∃ span roots, program.code.node? program.root = some (.block span) ∧
      span.read? program.code.lists = some roots ∧ roots.length = exprs.length ∧
      ∀ (i : Nat) root expr, roots[i]? = some root → exprs[i]? = some expr →
        program.code.expr? names root = some expr := by
  obtain ⟨node, hnode, hlayer⟩ := Code.expr?_eq_some_iff.1 h
  cases hlayer with
  | @block span roots _ hread hexprs =>
    refine ⟨span, roots, hnode, hread, by simpa using congrArg List.length hexprs, ?_⟩
    intro i root expr hroot hexpr
    have hget := congrArg (fun list => list[i]?) hexprs
    simp only [List.getElem?_map, hroot, hexpr, Option.map_some, Option.some.injEq] at hget
    exact (Code.before_eq_some_iff.1 hget).2

theorem exists_block_of_encodes {items : List Json} {expr : Expr}
    (h : Encodes (.object [("Block", .array items)]) expr) :
    ∃ exprs, expr = .block exprs ∧ EncodesList items exprs := by
  generalize hjson : Json.object [("Block", .array items)] = json at h
  cases h with
  | block hitems =>
    cases hjson
    exact ⟨_, rfl, hitems⟩
  | other payload hkey =>
    cases hjson
    exact absurd (by decide) hkey
  | _ => simp at hjson

/-- Running a decoded program is evaluating its tree.  For every JSON value that is decoded, with
whatever names there are before and after, and for either scoping: the root computes the expression
that the value encodes; where the value is a block of programs, which then share the code, so does
the root of each program; and every node computes the tree that stands at it. -/
theorem run_agrees_with_tree_semantics (scoping : Scoping)
    (hdecode : ofJson json before = (.ok program, after)) (hnames : after.KeptBy names) :
    (∃ expr, Encodes json expr ∧
        Setting.Computes ⟨program.code, names, scoping⟩ program.root expr) ∧
      (∀ programs, json = .object [("Block", .array programs)] →
        ∃ span roots, program.code.node? program.root = some (.block span) ∧
          span.read? program.code.lists = some roots ∧ roots.length = programs.length ∧
          ∀ (i : Nat) root item, roots[i]? = some root → programs[i]? = some item →
            ∃ expr, Encodes item expr ∧
              Setting.Computes ⟨program.code, names, scoping⟩ root expr) ∧
      ∀ id expr, program.code.expr? names id = some expr →
        Setting.Computes ⟨program.code, names, scoping⟩ id expr := by
  obtain ⟨expr, hencodes⟩ := exists_encodes_of_ofJson hdecode
  obtain ⟨hroot, hread, -⟩ := ofJson_reads_back hdecode hencodes
  -- The names may have grown since the program was decoded; the trees are the same.
  have hread' : program.code.Readable names := hread.keptBy (.refl _) hnames rfl
  have hroot' := Code.expr?_keptBy (.refl program.code) hnames hroot
  refine ⟨⟨expr, hencodes, computes_of_expr? scoping hread' hroot'⟩, ?_,
    fun id tree htree => computes_of_expr? scoping hread' htree⟩
  rintro programs rfl
  obtain ⟨exprs, rfl, hitems⟩ := exists_block_of_encodes hencodes
  obtain ⟨span, roots, hnode, hlist, hlength, hroots⟩ := exists_roots_of_expr? hroot'
  refine ⟨span, roots, hnode, hlist, hlength.trans (length_eq_of_encodesList hitems).symm, ?_⟩
  -- A program of the block is a node below the root, which computes like any node of the code.
  intro i root item hget hitem
  obtain ⟨tree, htree, hencoded⟩ := encodesList_get hitems hitem
  exact ⟨tree, hencoded, computes_of_expr? scoping hread' (hroots i root tree hget htree)⟩

/-- Two programs in one block: an assignment to `x`, and the call of a closure that reads `x`. -/
def sharedPrograms : List Json :=
  [.object [("Assignment", .array [.identifier "x", .number (.exact 5)])],
    .object [("Application", .array [.object [("Lambda", .array
      [.object [("Parameters", .array [.identifier "y"])], .identifier "x"])],
      .number (.exact 1)])]]

/-- The expression of `sharedPrograms`. -/
def sharedExpr : Expr :=
  .block [.assign "x" (.int 5), .apply (.lambda ["y"] (.ident "x")) [.int 1]]

theorem encodes_sharedPrograms :
    Encodes (.object [("Block", .array sharedPrograms)]) sharedExpr := by
  have hassign := Encodes.assignment "x" (.whole (.exact 5))
  have happly := Encodes.application (.lambda ["y"] (.identifier "x"))
    (.cons (.whole (.exact 1)) .nil)
  exact .block (.cons hassign (.cons happly .nil))

/-- The closure reads what the program before it has assigned. -/
theorem eval_sharedExpr (scoping : Scoping) {frame : FrameId} {heap : Tree.Heap}
    {old : Tree.Value} (hbound : heap.scopes frame "x" = some old) :
    ∃ heap', Tree.Eval ⟨scoping, none⟩ 0 frame sharedExpr heap (.ok (.int ⟨5, by decide⟩))
      heap' := by
  let five : Word := ⟨5, by decide⟩
  let one : Word := ⟨1, by decide⟩
  have hfive : Tree.Eval ⟨scoping, none⟩ 0 frame (.int five.val) heap (.ok (.int five)) heap :=
    .int five (by decide) (by decide)
  refine ⟨_, .block (.cons (.assign hfive hbound) (.last
    (.apply (.lambda ["y"] (.ident "x")) (.closure _ _ _ _)
      (.cons (.int one (by decide) (by decide)) .nil)
      (.body rfl (by decide) rfl (fun limit hlimit => nomatch hlimit) (.ident ?_)))))⟩
  have hbase : Tree.base scoping frame frame = frame := by cases scoping <;> rfl
  simp [Tree.Heap.copy, Tree.Heap.assign, hbase, List.lookup_cons, five]

/-- A store of one frame, in which the second name is bound to zero. -/
def zeroFrame : Store := (Store.empty.newFrame [(⟨1⟩, .int ⟨0, by decide⟩)]).2

theorem namesParams_zeroFrame (setting : Setting) : setting.NamesParams zeroFrame ⟨0⟩ := by
  intro id name closure _ hlookup
  have hmem := Bindings.mem_of_find? hlookup
  -- Only the first frame binds anything, and what it binds is no closure.
  rcases id with ⟨_ | index⟩ <;>
    simp [zeroFrame, Store.newFrame, Store.bindings, Store.frame?, Store.empty] at hmem

/-- Run in a frame that binds `x`, the block ends with what its first program assigns. -/
theorem run_agrees_with_tree_semantics_sharedPrograms :
    ∃ program after, ofJson (.object [("Block", .array sharedPrograms)]) .new =
        (.ok program, after) ∧
      (∃ steps outcome memory,
        Setting.run ⟨program.code, after, .dynamic⟩ steps
            ⟨.node program.root ⟨0⟩, [], ⟨zeroFrame, .new none⟩⟩ = some (outcome, memory) ∧
          Setting.result? ⟨program.code, after, .dynamic⟩ outcome =
            some (.ok (.int ⟨5, by decide⟩))) ∧
      ∃ span roots, program.code.node? program.root = some (.block span) ∧
        span.read? program.code.lists = some roots ∧ roots.length = 2 ∧
        ∀ (i : Nat) root item, roots[i]? = some root → sharedPrograms[i]? = some item →
          ∃ expr, Encodes item expr ∧
            Setting.Computes ⟨program.code, after, .dynamic⟩ root expr := by
  let after := NameTable.new.withTexts sharedExpr.names
  let setting : Setting := ⟨(ofExpr sharedExpr after).code, after, .dynamic⟩
  have hdecode : ofJson (.object [("Block", .array sharedPrograms)]) .new =
      (.ok (ofExpr sharedExpr after), after) :=
    ofJson_of_encodes encodes_sharedPrograms (by decide)
  obtain ⟨⟨expr, hencodes, hroot⟩, hshared, -⟩ :=
    run_agrees_with_tree_semantics .dynamic hdecode (.refl _)
  obtain rfl := hencodes.unique encodes_sharedPrograms
  have hbound : (setting.heap zeroFrame).scopes ⟨0⟩ "x" = some (.int ⟨0, by decide⟩) :=
    Setting.scopes_heap setting zeroFrame ⟨0⟩ (show setting.names.text? ⟨1⟩ = some "x" from rfl)
  obtain ⟨heap, hderives⟩ := eval_sharedExpr .dynamic hbound
  have hagrees := (hroot none zeroFrame ⟨0⟩ (namesParams_zeroFrame setting)).1
  obtain ⟨steps, outcome, memory, hrun, hresult, -⟩ := (hagrees _ _).1 hderives
  exact ⟨_, _, hdecode, ⟨steps, outcome, memory, hrun, hresult⟩, hshared sharedPrograms rfl⟩

end Program

end FlatScope
