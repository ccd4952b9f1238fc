import FlatScope.Program.Layout

/-!
# Trees read back from flat code

`Code.expr?` reads the tree that stands at a node, with its names as texts.  The nodes below a node
have smaller ids, so the reading ends.  Code that only grows keeps every tree (`expr?_keptBy`), and a
new node stands above the trees that were there (`expr?_alloc`).
-/

namespace FlatScope

/-! ### Reading a tree -/

namespace Code

def clausePair? (below : NodeId → Option Expr) (clause : Clause) : Option (Expr × Expr) := do
  let test ← below clause.test
  let consequence ← below clause.consequence
  some (test, consequence)

/-- The tree of a node, from the trees below it. -/
def assemble? (code : Code) (names : NameTable) (below : NodeId → Option Expr) :
    Node → Option Expr
  | .int literal => some (.int literal)
  | .str text => (names.text? text).map .str
  | .ident name => (names.text? name).map .ident
  | .apply operator operands => do
    let first ← below operator
    let ids ← operands.read? code.lists
    let rest ← ids.mapM below
    some (.apply first rest)
  | .lambda params body => do
    let found ← params.read? code.params
    let texts ← found.mapM names.text?
    let expr ← below body
    some (.lambda texts expr)
  | .block items => do
    let ids ← items.read? code.lists
    let exprs ← ids.mapM below
    some (.block exprs)
  | .cond clauses => do
    let found ← clauses.read? code.clauses
    let pairs ← found.mapM (clausePair? below)
    some (.cond pairs)
  | .letIn name init body => do
    let text ← names.text? name
    let first ← below init
    let second ← below body
    some (.letIn text first second)
  | .assign name value => do
    let text ← names.text? name
    let expr ← below value
    some (.assign text expr)
  | .unknown tag => (names.text? tag).map .unknown

/-- The tree that stands at a node; nothing when a node refers to a node that is not before it, or
to anything outside its table. -/
def expr? (code : Code) (names : NameTable) (id : NodeId) : Option Expr :=
  (code.node? id).bind (code.assemble? names fun child =>
    if child.raw < id.raw then code.expr? names child else none)
termination_by id.raw

def before (code : Code) (names : NameTable) (id child : NodeId) : Option Expr :=
  if child.raw < id.raw then code.expr? names child else none

theorem expr?_eq (code : Code) (names : NameTable) (id : NodeId) :
    code.expr? names id = (code.node? id).bind (code.assemble? names (code.before names id)) := by
  rw [expr?]
  rfl

/-! ### One layer of a tree -/

theorem mapM_eq_some_iff {α β : Type} {f : α → Option β} {items : List α} {found : List β} :
    items.mapM f = some found ↔ items.map f = found.map some := by
  induction items generalizing found with
  | nil => cases found <;> simp
  | cons item rest ih =>
    rw [List.mapM_cons, List.map_cons]
    cases found with
    | nil => cases f item <;> cases rest.mapM f <;> simp
    | cons first others =>
      rw [List.map_cons, List.cons.injEq, ← ih]
      cases f item <;> cases rest.mapM f <;> simp

theorem clausePair?_eq_some_iff {below : NodeId → Option Expr} {clause : Clause}
    {pair : Expr × Expr} :
    clausePair? below clause = some pair ↔
      below clause.test = some pair.1 ∧ below clause.consequence = some pair.2 := by
  unfold clausePair?
  cases below clause.test <;> cases below clause.consequence <;> simp [Prod.ext_iff]

/-- A node and its tree, with the trees below it given by a function. -/
inductive Layer (code : Code) (names : NameTable) (below : NodeId → Option Expr) :
    Node → Expr → Prop where
  | int (literal : Int) : Layer code names below (.int literal) (.int literal)
  | str {name : Name} {text : String} (htext : names.text? name = some text) :
      Layer code names below (.str name) (.str text)
  | ident {name : Name} {text : String} (htext : names.text? name = some text) :
      Layer code names below (.ident name) (.ident text)
  | apply {operator : NodeId} {operands : Span NodeId} {ids : List NodeId} {first : Expr}
      {rest : List Expr} (hfirst : below operator = some first)
      (hread : operands.read? code.lists = some ids) (hrest : ids.map below = rest.map some) :
      Layer code names below (.apply operator operands) (.apply first rest)
  | lambda {params : Span Name} {body : NodeId} {found : List Name} {texts : List String}
      {expr : Expr} (hread : params.read? code.params = some found)
      (htexts : found.map names.text? = texts.map some) (hbody : below body = some expr) :
      Layer code names below (.lambda params body) (.lambda texts expr)
  | block {items : Span NodeId} {ids : List NodeId} {exprs : List Expr}
      (hread : items.read? code.lists = some ids) (hexprs : ids.map below = exprs.map some) :
      Layer code names below (.block items) (.block exprs)
  | cond {clauses : Span Clause} {found : List Clause} {pairs : List (Expr × Expr)}
      (hread : clauses.read? code.clauses = some found)
      (hpairs : found.map (clausePair? below) = pairs.map some) :
      Layer code names below (.cond clauses) (.cond pairs)
  | letIn {name : Name} {text : String} {init body : NodeId} {first second : Expr}
      (htext : names.text? name = some text) (hinit : below init = some first)
      (hbody : below body = some second) :
      Layer code names below (.letIn name init body) (.letIn text first second)
  | assign {name : Name} {text : String} {value : NodeId} {expr : Expr}
      (htext : names.text? name = some text) (hvalue : below value = some expr) :
      Layer code names below (.assign name value) (.assign text expr)
  | unknown {tag : Name} {text : String} (htext : names.text? tag = some text) :
      Layer code names below (.unknown tag) (.unknown text)

theorem assemble?_eq_some_iff {code : Code} {names : NameTable} {below : NodeId → Option Expr}
    {node : Node} {expr : Expr} :
    code.assemble? names below node = some expr ↔ code.Layer names below node expr := by
  constructor
  · intro h
    cases node with
    | int literal => cases h; exact .int literal
    | str name =>
      obtain ⟨text, htext, rfl⟩ := Option.map_eq_some_iff.1 h
      exact .str htext
    | ident name =>
      obtain ⟨text, htext, rfl⟩ := Option.map_eq_some_iff.1 h
      exact .ident htext
    | unknown tag =>
      obtain ⟨text, htext, rfl⟩ := Option.map_eq_some_iff.1 h
      exact .unknown htext
    | apply operator operands =>
      obtain ⟨first, hfirst, h⟩ := Option.bind_eq_some_iff.1 h
      obtain ⟨ids, hread, h⟩ := Option.bind_eq_some_iff.1 h
      obtain ⟨rest, hrest, h⟩ := Option.bind_eq_some_iff.1 h
      cases h
      exact .apply hfirst hread (mapM_eq_some_iff.1 hrest)
    | lambda params body =>
      obtain ⟨found, hread, h⟩ := Option.bind_eq_some_iff.1 h
      obtain ⟨texts, htexts, h⟩ := Option.bind_eq_some_iff.1 h
      obtain ⟨expr, hbody, h⟩ := Option.bind_eq_some_iff.1 h
      cases h
      exact .lambda hread (mapM_eq_some_iff.1 htexts) hbody
    | block items =>
      obtain ⟨ids, hread, h⟩ := Option.bind_eq_some_iff.1 h
      obtain ⟨exprs, hexprs, h⟩ := Option.bind_eq_some_iff.1 h
      cases h
      exact .block hread (mapM_eq_some_iff.1 hexprs)
    | cond clauses =>
      obtain ⟨found, hread, h⟩ := Option.bind_eq_some_iff.1 h
      obtain ⟨pairs, hpairs, h⟩ := Option.bind_eq_some_iff.1 h
      cases h
      exact .cond hread (mapM_eq_some_iff.1 hpairs)
    | letIn name init body =>
      obtain ⟨text, htext, h⟩ := Option.bind_eq_some_iff.1 h
      obtain ⟨first, hinit, h⟩ := Option.bind_eq_some_iff.1 h
      obtain ⟨second, hbody, h⟩ := Option.bind_eq_some_iff.1 h
      cases h
      exact .letIn htext hinit hbody
    | assign name value =>
      obtain ⟨text, htext, h⟩ := Option.bind_eq_some_iff.1 h
      obtain ⟨expr, hvalue, h⟩ := Option.bind_eq_some_iff.1 h
      cases h
      exact .assign htext hvalue
  · intro h
    cases h <;> simp_all [assemble?, ← mapM_eq_some_iff]

/-! ### Tables that only grow -/

/-- Code that has all that another code has, under the same ids and spans. -/
structure KeptBy (code grown : Code) : Prop where
  nodes : ∀ id node, code.node? id = some node → grown.node? id = some node
  lists : ∀ span ids, Span.read? span code.lists = some ids → span.read? grown.lists = some ids
  clauses : ∀ span found, Span.read? span code.clauses = some found →
    span.read? grown.clauses = some found
  params : ∀ span found, Span.read? span code.params = some found →
    span.read? grown.params = some found

theorem KeptBy.refl (code : Code) : code.KeptBy code :=
  ⟨fun _ _ h => h, fun _ _ h => h, fun _ _ h => h, fun _ _ h => h⟩

theorem KeptBy.trans {first second third : Code} (h : first.KeptBy second)
    (h' : second.KeptBy third) : first.KeptBy third where
  nodes id node hnode := h'.nodes id node (h.nodes id node hnode)
  lists span ids hread := h'.lists span ids (h.lists span ids hread)
  clauses span found hread := h'.clauses span found (h.clauses span found hread)
  params span found hread := h'.params span found (h.params span found hread)

theorem keptBy_alloc (code : Code) (node : Node) : code.KeptBy (code.alloc node).2 :=
  { KeptBy.refl code with nodes := fun _ _ hnode => node?_alloc_of_node? node hnode }

theorem keptBy_allocList (code : Code) (ids : List NodeId) : code.KeptBy (code.allocList ids).2 :=
  { KeptBy.refl code with lists := fun _ _ hread => Span.read?_append ids.toArray hread }

theorem keptBy_allocClauses (code : Code) (clauses : List Clause) :
    code.KeptBy (code.allocClauses clauses).2 :=
  { KeptBy.refl code with clauses := fun _ _ hread => Span.read?_append clauses.toArray hread }

theorem keptBy_allocParams (code : Code) (params : List Name) :
    code.KeptBy (code.allocParams params).2 :=
  { KeptBy.refl code with params := fun _ _ hread => Span.read?_append params.toArray hread }

end Code

/-- A table that gives every name of another table the same text. -/
def NameTable.KeptBy (names more : NameTable) : Prop :=
  ∀ name text, names.text? name = some text → more.text? name = some text

namespace NameTable

theorem KeptBy.refl (names : NameTable) : names.KeptBy names := fun _ _ h => h

theorem KeptBy.trans {first second third : NameTable} (h : first.KeptBy second)
    (h' : second.KeptBy third) : first.KeptBy third :=
  fun name text htext => h' name text (h name text htext)

theorem keptBy_intern (names : NameTable) (text : String) : names.KeptBy (names.intern text).2 :=
  fun _ _ h => text?_intern_of_text? text h

theorem keptBy_internAll (names : NameTable) (texts : List String) :
    names.KeptBy (names.internAll texts).2 := by
  induction texts generalizing names with
  | nil => exact .refl names
  | cons text rest ih => exact (names.keptBy_intern text).trans (ih _)

end NameTable

namespace Code

variable {code grown : Code} {names more : NameTable}

theorem map_eq_map_some_of_imp {α β : Type} {f g : α → Option β} {items : List α} {found : List β}
    (himp : ∀ item value, f item = some value → g item = some value)
    (h : items.map f = found.map some) : items.map g = found.map some := by
  induction items generalizing found with
  | nil => exact h
  | cons item rest ih =>
    cases found with
    | nil => cases h
    | cons value others =>
      obtain ⟨hitem, hrest⟩ := List.cons_eq_cons.1 h
      exact List.cons_eq_cons.2 ⟨himp item value hitem, ih hrest⟩

theorem Layer.keptBy {below below' : NodeId → Option Expr} {node : Node} {expr : Expr}
    (hcode : code.KeptBy grown) (hnames : names.KeptBy more)
    (hbelow : ∀ id tree, below id = some tree → below' id = some tree)
    (h : code.Layer names below node expr) : grown.Layer more below' node expr := by
  cases h with
  | int literal => exact .int literal
  | str htext => exact .str (hnames _ _ htext)
  | ident htext => exact .ident (hnames _ _ htext)
  | unknown htext => exact .unknown (hnames _ _ htext)
  | apply hfirst hread hrest =>
    exact .apply (hbelow _ _ hfirst) (hcode.lists _ _ hread) (map_eq_map_some_of_imp hbelow hrest)
  | lambda hread htexts hbody =>
    exact .lambda (hcode.params _ _ hread) (map_eq_map_some_of_imp hnames htexts)
      (hbelow _ _ hbody)
  | block hread hexprs =>
    exact .block (hcode.lists _ _ hread) (map_eq_map_some_of_imp hbelow hexprs)
  | cond hread hpairs =>
    refine .cond (hcode.clauses _ _ hread) (map_eq_map_some_of_imp ?_ hpairs)
    intro clause pair hpair
    obtain ⟨htest, hconsequence⟩ := clausePair?_eq_some_iff.1 hpair
    exact clausePair?_eq_some_iff.2 ⟨hbelow _ _ htest, hbelow _ _ hconsequence⟩
  | letIn htext hinit hbody =>
    exact .letIn (hnames _ _ htext) (hbelow _ _ hinit) (hbelow _ _ hbody)
  | assign htext hvalue => exact .assign (hnames _ _ htext) (hbelow _ _ hvalue)

theorem expr?_eq_some_iff {id : NodeId} {expr : Expr} :
    code.expr? names id = some expr ↔
      ∃ node, code.node? id = some node ∧ code.Layer names (code.before names id) node expr := by
  rw [expr?_eq, Option.bind_eq_some_iff]
  simp only [assemble?_eq_some_iff]

theorem before_eq_some_iff {id child : NodeId} {expr : Expr} :
    code.before names id child = some expr ↔
      child.raw < id.raw ∧ code.expr? names child = some expr := by
  unfold before
  by_cases hlt : child.raw < id.raw <;> simp [hlt]

theorem node?_eq_some_lt {id : NodeId} {node : Node} (h : code.node? id = some node) :
    id.raw < code.size :=
  (Array.getElem?_eq_some_iff.1 h).1

theorem lt_size_of_expr? {id : NodeId} {expr : Expr} (h : code.expr? names id = some expr) :
    id.raw < code.size := by
  obtain ⟨node, hnode, -⟩ := expr?_eq_some_iff.1 h
  exact node?_eq_some_lt hnode

/-- A tree that stands in code stands there when the code and the names have grown. -/
theorem expr?_keptBy (hcode : code.KeptBy grown) (hnames : names.KeptBy more) {id : NodeId}
    {expr : Expr} (h : code.expr? names id = some expr) : grown.expr? more id = some expr := by
  -- Trees below a node have smaller ids.
  induction hraw : id.raw using Nat.strongRecOn generalizing id expr with
  | ind raw ih =>
    obtain ⟨node, hnode, hlayer⟩ := expr?_eq_some_iff.1 h
    refine expr?_eq_some_iff.2 ⟨node, hcode.nodes id node hnode, ?_⟩
    refine hlayer.keptBy hcode hnames fun child tree hchild => ?_
    obtain ⟨hlt, htree⟩ := before_eq_some_iff.1 hchild
    exact before_eq_some_iff.2 ⟨hlt, ih child.raw (hraw ▸ hlt) htree rfl⟩

/-- A new node has the tree of its layer above the trees that were there. -/
theorem expr?_alloc {node : Node} {expr : Expr}
    (h : code.Layer names (code.expr? names) node expr) :
    (code.alloc node).2.expr? names (code.alloc node).1 = some expr := by
  have hkept := code.keptBy_alloc node
  refine expr?_eq_some_iff.2 ⟨node, code.node?_alloc node, ?_⟩
  refine h.keptBy hkept (.refl names) fun child tree hchild => ?_
  have htree := expr?_keptBy hkept (.refl names) hchild
  exact before_eq_some_iff.2 ⟨lt_size_of_expr? hchild, htree⟩

end Code

end FlatScope
