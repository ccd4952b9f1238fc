import FlatScope.Proofs.Tree.View

/-!
# Well-formed code

Code is well formed when every node finds in its tables what it refers to, and refers only to nodes
before it.  That is the code in which a tree stands at every node (`readable_iff_wellFormed`), so
the code of every decoded program is well formed.
-/

namespace FlatScope

/-- The spans of a node lie inside their tables, its names have texts, and the nodes that it refers
to have smaller ids than its own. -/
def Node.WellPlaced (code : Code) (names : NameTable) (id : NodeId) : Node → Prop
  | .int _ => True
  | .str text => (names.text? text).isSome
  | .ident name => (names.text? name).isSome
  | .apply operator operands => operator.raw < id.raw ∧
    ∃ ids, operands.read? code.lists = some ids ∧ ∀ child ∈ ids, child.raw < id.raw
  | .lambda params body => body.raw < id.raw ∧
    ∃ found, params.read? code.params = some found ∧ ∀ param ∈ found, (names.text? param).isSome
  | .block items =>
    ∃ ids, items.read? code.lists = some ids ∧ ∀ child ∈ ids, child.raw < id.raw
  | .cond clauses => ∃ found, clauses.read? code.clauses = some found ∧
    ∀ clause ∈ found, clause.test.raw < id.raw ∧ clause.consequence.raw < id.raw
  | .letIn name init body =>
    (names.text? name).isSome ∧ init.raw < id.raw ∧ body.raw < id.raw
  | .assign name value => (names.text? name).isSome ∧ value.raw < id.raw
  | .unknown tag => (names.text? tag).isSome

namespace Code

variable {code : Code} {names : NameTable}

def WellFormed (code : Code) (names : NameTable) : Prop :=
  ∀ id node, code.node? id = some node → node.WellPlaced code names id

/-! ### One node and the trees below it -/

theorem exists_map_eq_map_some {α β : Type} {f : α → Option β} {items : List α}
    (h : ∀ item ∈ items, (f item).isSome) : ∃ found : List β, items.map f = found.map some := by
  induction items with
  | nil => exact ⟨[], rfl⟩
  | cons item rest ih =>
    obtain ⟨value, hvalue⟩ := Option.isSome_iff_exists.1 (h item (List.mem_cons_self ..))
    obtain ⟨others, hothers⟩ := ih fun other hother => h other (List.mem_cons_of_mem _ hother)
    exact ⟨value :: others, by rw [List.map_cons, List.map_cons, hvalue, hothers]⟩

/-- A node that has a tree above the trees before it is well placed. -/
theorem Layer.wellPlaced {id : NodeId} {node : Node} {expr : Expr}
    (h : code.Layer names (code.before names id) node expr) : node.WellPlaced code names id := by
  have hbefore {child : NodeId} {tree : Expr} (hchild : code.before names id child = some tree) :
      child.raw < id.raw := (before_eq_some_iff.1 hchild).1
  have hlist {ids : List NodeId} {exprs : List Expr}
      (hids : ids.map (code.before names id) = exprs.map some) :
      ∀ child ∈ ids, child.raw < id.raw := by
    intro child hchild
    have hsome := Setting.isSome_of_map_eq_map_some hids hchild
    obtain ⟨tree, htree⟩ := Option.isSome_iff_exists.1 hsome
    exact hbefore htree
  cases h with
  | int literal => trivial
  | str htext | ident htext | unknown htext => exact Option.isSome_iff_exists.2 ⟨_, htext⟩
  | apply hfirst hread hrest => exact ⟨hbefore hfirst, _, hread, hlist hrest⟩
  | lambda hread htexts hbody =>
    exact ⟨hbefore hbody, _, hread, fun param hparam =>
      Setting.isSome_of_map_eq_map_some htexts hparam⟩
  | block hread hexprs => exact ⟨_, hread, hlist hexprs⟩
  | cond hread hpairs =>
    refine ⟨_, hread, fun clause hclause => ?_⟩
    have hsome := Setting.isSome_of_map_eq_map_some hpairs hclause
    obtain ⟨pair, hpair⟩ := Option.isSome_iff_exists.1 hsome
    obtain ⟨htest, hconsequence⟩ := clausePair?_eq_some_iff.1 hpair
    exact ⟨hbefore htest, hbefore hconsequence⟩
  | letIn htext hinit hbody =>
    exact ⟨Option.isSome_iff_exists.2 ⟨_, htext⟩, hbefore hinit, hbefore hbody⟩
  | assign htext hvalue => exact ⟨Option.isSome_iff_exists.2 ⟨_, htext⟩, hbefore hvalue⟩

/-- A well-placed node has a tree, if every node before it has one. -/
theorem exists_layer_of_wellPlaced {id : NodeId} {node : Node}
    (hbelow : ∀ child : NodeId, child.raw < id.raw → ∃ tree, code.before names id child = some tree)
    (h : node.WellPlaced code names id) :
    ∃ expr, code.Layer names (code.before names id) node expr := by
  have hlist {ids : List NodeId} (hids : ∀ child ∈ ids, child.raw < id.raw) :
      ∃ exprs : List Expr, ids.map (code.before names id) = exprs.map some :=
    exists_map_eq_map_some fun child hchild =>
      Option.isSome_iff_exists.2 (hbelow child (hids child hchild))
  cases node with
  | int literal => exact ⟨_, .int literal⟩
  | str text =>
    obtain ⟨text, htext⟩ := Option.isSome_iff_exists.1 h
    exact ⟨_, .str htext⟩
  | ident name =>
    obtain ⟨text, htext⟩ := Option.isSome_iff_exists.1 h
    exact ⟨_, .ident htext⟩
  | unknown tag =>
    obtain ⟨text, htext⟩ := Option.isSome_iff_exists.1 h
    exact ⟨_, .unknown htext⟩
  | apply operator operands =>
    obtain ⟨hoperator, ids, hread, hids⟩ := h
    obtain ⟨first, hfirst⟩ := hbelow operator hoperator
    obtain ⟨rest, hrest⟩ := hlist hids
    exact ⟨_, .apply hfirst hread hrest⟩
  | lambda params body =>
    obtain ⟨hbody, found, hread, hfound⟩ := h
    obtain ⟨tree, htree⟩ := hbelow body hbody
    obtain ⟨texts, htexts⟩ := exists_map_eq_map_some hfound
    exact ⟨_, .lambda hread htexts htree⟩
  | block items =>
    obtain ⟨ids, hread, hids⟩ := h
    obtain ⟨exprs, hexprs⟩ := hlist hids
    exact ⟨_, .block hread hexprs⟩
  | cond clauses =>
    obtain ⟨found, hread, hfound⟩ := h
    have hpair : ∀ clause ∈ found, (clausePair? (code.before names id) clause).isSome := by
      intro clause hclause
      obtain ⟨test, htest⟩ := hbelow _ (hfound clause hclause).1
      obtain ⟨consequence, hconsequence⟩ := hbelow _ (hfound clause hclause).2
      have hboth : clausePair? (code.before names id) clause = some (test, consequence) :=
        clausePair?_eq_some_iff.2 ⟨htest, hconsequence⟩
      rw [hboth]
      rfl
    obtain ⟨pairs, hpairs⟩ := exists_map_eq_map_some hpair
    exact ⟨_, .cond hread hpairs⟩
  | letIn name init body =>
    obtain ⟨hname, hinit, hbody⟩ := h
    obtain ⟨text, htext⟩ := Option.isSome_iff_exists.1 hname
    obtain ⟨first, hfirst⟩ := hbelow init hinit
    obtain ⟨second, hsecond⟩ := hbelow body hbody
    exact ⟨_, .letIn htext hfirst hsecond⟩
  | assign name value =>
    obtain ⟨hname, hvalue⟩ := h
    obtain ⟨text, htext⟩ := Option.isSome_iff_exists.1 hname
    obtain ⟨tree, htree⟩ := hbelow value hvalue
    exact ⟨_, .assign htext htree⟩

/-! ### Whole code -/

theorem WellFormed.exists_expr? (h : code.WellFormed names) {id : NodeId}
    (hid : id.raw < code.size) : ∃ expr, code.expr? names id = some expr := by
  -- The nodes that a node refers to have smaller ids.
  induction hraw : id.raw using Nat.strongRecOn generalizing id with
  | ind raw ih =>
    have hnode : code.node? id = some code.nodes[id.raw] := Array.getElem?_eq_getElem hid
    have hbelow : ∀ child : NodeId, child.raw < id.raw →
        ∃ tree, code.before names id child = some tree := by
      intro child hchild
      obtain ⟨tree, htree⟩ := ih child.raw (hraw ▸ hchild) (Nat.lt_trans hchild hid) rfl
      exact ⟨tree, before_eq_some_iff.2 ⟨hchild, htree⟩⟩
    obtain ⟨expr, hlayer⟩ := exists_layer_of_wellPlaced hbelow (h id _ hnode)
    exact ⟨expr, expr?_eq_some_iff.2 ⟨_, hnode, hlayer⟩⟩

/-- Well-formed code is code in which a tree stands at every node. -/
theorem readable_iff_wellFormed : code.Readable names ↔ code.WellFormed names := by
  constructor
  · intro hread id node hnode
    obtain ⟨expr, hexpr⟩ := Option.isSome_iff_exists.1 (hread id (node?_eq_some_lt hnode))
    obtain ⟨found, hfound, hlayer⟩ := expr?_eq_some_iff.1 hexpr
    obtain rfl : found = node := Option.some.inj (hfound.symm.trans hnode)
    exact hlayer.wellPlaced
  · intro hwell id hid
    exact Option.isSome_iff_exists.2 (hwell.exists_expr? hid)

end Code

theorem Program.wellFormed_of_ofJson {json : Json} {names after : NameTable} {program : Program}
    (h : ofJson json names = (.ok program, after)) : program.code.WellFormed after := by
  obtain ⟨expr, hencodes⟩ := exists_encodes_of_ofJson h
  obtain ⟨-, hread, -⟩ := ofJson_reads_back h hencodes
  exact Code.readable_iff_wellFormed.1 hread

end FlatScope
