import FlatScope.Proofs.Tree.WellFormed
import Mathlib.Data.List.Nodup

/-!
# The order of nodes in decoded code

Decoded code holds one node for each expression position of the JSON value, in post-order: the nodes
of the positions below a position stand one after another, from left to right, and its own node
follows (`PostOrder`).  So nodes refer to earlier nodes only, and to each of them once
(`PostOrder.references_perm`).  Each of the three side tables is cut into the spans of the nodes, in
the order of their ids (`Code.Tiled`).
-/

namespace FlatScope

/-! ### Expression positions -/

namespace Json

/-- The test and the consequence of a clause. -/
def clauseParts : Json → List Json
  | .object [("Clause", .array [test, consequence])] => [test, consequence]
  | _ => []

/-- The values at the expression positions right below a value, from left to right. -/
def inner : Json → List Json
  | .object [("Application", .array items)] => items
  | .object [("Lambda", .array [_, body])] => [body]
  | .object [("Block", .array items)] => items
  | .object [("Cond", .array items)] => items.flatMap clauseParts
  | .object [("Let", .array [_, init, body])] => [init, body]
  | .object [("Assignment", .array [_, value])] => [value]
  | _ => []

theorem inner_of_not_mem {key : String} (payload : Json) (h : key ∉ formKeys) :
    inner (.object [(key, payload)]) = [] := by
  unfold inner
  split <;> simp_all [formKeys]

end Json

/-! ### Ids that a node refers to -/

namespace Code

/-- The ids that a node refers to, in its own fields and in the span that it has of a side table,
from left to right. -/
def children? (code : Code) : Node → Option (List NodeId)
  | .apply operator operands => (operands.read? code.lists).map (operator :: ·)
  | .lambda _ body => some [body]
  | .block items => items.read? code.lists
  | .cond clauses => (clauses.read? code.clauses).map fun found =>
    found.flatMap fun clause => [clause.test, clause.consequence]
  | .letIn _ init body => some [init, body]
  | .assign _ value => some [value]
  | .int _ | .str _ | .ident _ | .unknown _ => some []

/-- The ids that the node at an index refers to. -/
def referencesAt (code : Code) (index : Nat) : List NodeId :=
  ((code.node? ⟨index⟩).bind code.children?).getD []

/-- All ids that nodes refer to, as often as they do. -/
def references (code : Code) : List NodeId :=
  (List.range code.size).flatMap code.referencesAt

theorem children?_keptBy {code grown : Code} (h : code.KeptBy grown) {node : Node}
    {ids : List NodeId} (hids : code.children? node = some ids) :
    grown.children? node = some ids := by
  cases node with
  | apply operator operands =>
    obtain ⟨found, hread, rfl⟩ := Option.map_eq_some_iff.1 hids
    exact Option.map_eq_some_iff.2 ⟨found, h.lists _ _ hread, rfl⟩
  | block items => exact h.lists _ _ hids
  | cond clauses =>
    obtain ⟨found, hread, rfl⟩ := Option.map_eq_some_iff.1 hids
    exact Option.map_eq_some_iff.2 ⟨found, h.clauses _ _ hread, rfl⟩
  | _ => exact hids

theorem referencesAt_eq {code : Code} {index : Nat} {node : Node} {ids : List NodeId}
    (hnode : code.node? ⟨index⟩ = some node) (hids : code.children? node = some ids) :
    code.referencesAt index = ids := by
  simp [referencesAt, hnode, hids]

end Code

/-! ### Post-order -/

mutual

/-- The nodes from the index `first` to the index `own` are those of a JSON value, in post-order.  The
node of the value itself is the last: it refers to the nodes of the values right below it, in their
order, and the tree at it is the one that the value encodes. -/
inductive PostOrder (code : Code) (names : NameTable) : Json → Nat → Nat → Prop where
  | node {json : Json} {expr : Expr} {node : Node} {ids : List NodeId} {first own : Nat}
      (hbelow : PostOrderList code names json.inner first own ids)
      (hnode : code.node? ⟨own⟩ = some node) (hids : code.children? node = some ids)
      (hexpr : code.expr? names ⟨own⟩ = some expr) (hencodes : Encodes json expr) :
      PostOrder code names json first own

/-- The nodes from the index `first` up to `last` are those of several values one after another; the
ids are those of the values themselves. -/
inductive PostOrderList (code : Code) (names : NameTable) :
    List Json → Nat → Nat → List NodeId → Prop where
  | nil (first : Nat) : PostOrderList code names [] first first []
  | cons {json : Json} {rest : List Json} {first own last : Nat} {ids : List NodeId}
      (hfirst : PostOrder code names json first own)
      (hrest : PostOrderList code names rest (own + 1) last ids) :
      PostOrderList code names (json :: rest) first last (⟨own⟩ :: ids)

end

section Growing

variable {code grown : Code} {names more : NameTable}

mutual

theorem PostOrder.keptBy (hcode : code.KeptBy grown) (hnames : names.KeptBy more) {json : Json}
    {first own : Nat} (h : PostOrder code names json first own) :
    PostOrder grown more json first own := by
  match h with
  | .node hbelow hnode hids hexpr hencodes =>
    exact .node (hbelow.keptBy hcode hnames) (hcode.nodes _ _ hnode)
      (Code.children?_keptBy hcode hids) (Code.expr?_keptBy hcode hnames hexpr) hencodes

theorem PostOrderList.keptBy (hcode : code.KeptBy grown) (hnames : names.KeptBy more)
    {items : List Json} {first last : Nat} {ids : List NodeId}
    (h : PostOrderList code names items first last ids) :
    PostOrderList grown more items first last ids := by
  match h with
  | .nil first => exact .nil first
  | .cons hfirst hrest => exact .cons (hfirst.keptBy hcode hnames) (hrest.keptBy hcode hnames)

end

end Growing

/-! ### Laying out in post-order -/

/-- A value is in post-order when the values below it are and its node is added after theirs. -/
theorem Builder.postOrder_build (builder : Builder) (add : Code → NodeId × Code) {side : Code}
    {node : Node} {ids : List NodeId} {json : Json} {expr : Expr} {first : Nat}
    (hadd : add builder.code = side.alloc node) (hside : builder.code.KeptBy side)
    (hsize : side.size = builder.code.size) (hids : side.children? node = some ids)
    (hinner : PostOrderList builder.code builder.names json.inner first builder.code.size ids)
    (hexpr : (builder.build add).2.expr? (builder.build add).1 = some expr)
    (hencodes : Encodes json expr) :
    PostOrder (builder.build add).2.code (builder.build add).2.names json first
      (builder.build add).1.raw := by
  have hcode : (builder.build add).2.code = (side.alloc node).2 := congrArg Prod.snd hadd
  have hid : (builder.build add).1 = ⟨builder.code.size⟩ := by
    rw [← hsize]
    exact congrArg Prod.fst hadd
  have hkept : builder.code.KeptBy (builder.build add).2.code := by
    rw [hcode]
    exact hside.trans (side.keptBy_alloc node)
  have hnode : (builder.build add).2.code.node? ⟨builder.code.size⟩ = some node := by
    rw [hcode, ← hsize]
    exact side.node?_alloc node
  have hchildren : (builder.build add).2.code.children? node = some ids := by
    rw [hcode]
    exact Code.children?_keptBy (side.keptBy_alloc node) hids
  have htree : (builder.build add).2.code.expr? (builder.build add).2.names ⟨builder.code.size⟩ =
      some expr := by
    rw [← hid]
    exact hexpr
  rw [hid]
  exact .node (hinner.keptBy hkept (.refl _)) hnode hchildren htree hencodes

namespace Expr

open Builder

/-- The node of an expression is the last that laying it out adds. -/
theorem size_layout (expr : Expr) (builder : Builder) :
    (expr.layout builder).2.code.size = (expr.layout builder).1.raw + 1 := by
  cases expr <;> exact Array.size_push _

theorem postOrderList_single {code : Code} {names : NameTable} {json : Json} {first last : Nat}
    {id : NodeId} (h : PostOrder code names json first id.raw) (hlast : last = id.raw + 1) :
    PostOrderList code names [json] first last [id] := by
  rw [hlast]
  exact .cons h (.nil _)

mutual

/-- An encoded expression whose texts have names is laid out in post-order, from the end of the code
that was there. -/
theorem postOrder_layout {json : Json} {expr : Expr} (h : Encodes json expr) {builder : Builder}
    (hnames : expr.names ⊆ builder.names.texts) :
    PostOrder (expr.layout builder).2.code (expr.layout builder).2.names json builder.code.size
      (expr.layout builder).1.raw := by
  have hexpr := (layout_reads_back expr hnames).2
  have hencodes := h
  cases h with
  | null | bool | array | whole | broken | string | identifier =>
    exact postOrder_build _ _ rfl (.refl _) rfl rfl (.nil _) hexpr hencodes
  | other payload hkey =>
    refine postOrder_build _ _ rfl (.refl _) rfl rfl ?_ hexpr hencodes
    rw [Json.inner_of_not_mem payload hkey]
    exact .nil _
  | @application first rest operator operands hfirst hrest =>
    obtain ⟨htexts, htexts'⟩ := List.append_subset.1 hnames
    have hgrows := (layout_reads_back operator htexts).1
    rw [← hgrows.names] at htexts'
    have hlater := (layoutList_reads_back operands htexts').1
    have hoperator := (postOrder_layout hfirst htexts).keptBy hlater.code hlater.keptBy
    have hoperands := postOrder_layoutList hrest htexts'
    rw [size_layout operator builder] at hoperands
    exact postOrder_build _ _ rfl (Code.keptBy_allocList _ _) rfl
      (Option.map_eq_some_iff.2 ⟨_, Span.read?_alloc _ _, rfl⟩) (.cons hoperator hoperands)
      hexpr hencodes
  | @lambda params body expr hbody =>
    have hinner := postOrder_layout hbody (List.append_subset.1 hnames).2
    exact postOrder_build _ _ rfl (Code.keptBy_allocParams _ _) rfl rfl
      (postOrderList_single hinner (size_layout expr builder)) hexpr hencodes
  | @block items exprs hitems =>
    exact postOrder_build _ _ rfl (Code.keptBy_allocList _ _) rfl (Span.read?_alloc _ _)
      (postOrder_layoutList hitems hnames) hexpr hencodes
  | @cond items clauses hitems =>
    exact postOrder_build _ _ rfl (Code.keptBy_allocClauses _ _) rfl
      (Option.map_eq_some_iff.2 ⟨_, Span.read?_alloc _ _, rfl⟩)
      (postOrder_layoutClauses hitems hnames) hexpr hencodes
  | @letIn name first second init body hinit hbody =>
    obtain ⟨htexts, htexts'⟩ := List.append_subset.1 (List.cons_subset.1 hnames).2
    have hgrows := (layout_reads_back init htexts).1
    rw [← hgrows.names] at htexts'
    have hlater := (layout_reads_back body htexts').1
    have hfirst := (postOrder_layout hinit htexts).keptBy hlater.code hlater.keptBy
    have hsecond := postOrder_layout hbody htexts'
    have hsize := size_layout body (init.layout builder).2
    rw [size_layout init builder] at hsecond
    exact postOrder_build _ _ rfl (.refl _) rfl rfl
      (.cons hfirst (postOrderList_single hsecond hsize)) hexpr hencodes
  | @assignment name second value hvalue =>
    have hinner := postOrder_layout hvalue (List.cons_subset.1 hnames).2
    exact postOrder_build _ _ rfl (.refl _) rfl rfl
      (postOrderList_single hinner (size_layout value builder)) hexpr hencodes

theorem postOrder_layoutList {items : List Json} {exprs : List Expr} (h : EncodesList items exprs)
    {builder : Builder} (hnames : namesOfList exprs ⊆ builder.names.texts) :
    PostOrderList (layoutList exprs builder).2.code (layoutList exprs builder).2.names items
      builder.code.size (layoutList exprs builder).2.code.size (layoutList exprs builder).1 := by
  cases h with
  | nil => exact .nil _
  | @cons item rest expr exprs hitem hrest =>
    obtain ⟨htexts, htexts'⟩ := List.append_subset.1 hnames
    have hgrows := (layout_reads_back expr htexts).1
    rw [← hgrows.names] at htexts'
    have hothers := (layoutList_reads_back exprs htexts').1
    have hfirst := (postOrder_layout hitem htexts).keptBy hothers.code hothers.keptBy
    have hlater := postOrder_layoutList hrest htexts'
    rw [size_layout expr builder] at hlater
    exact .cons hfirst hlater

theorem postOrder_layoutClauses {items : List Json} {clauses : List (Expr × Expr)}
    (h : EncodesClauses items clauses) {builder : Builder}
    (hnames : namesOfClauses clauses ⊆ builder.names.texts) :
    PostOrderList (layoutClauses clauses builder).2.code (layoutClauses clauses builder).2.names
      (items.flatMap Json.clauseParts) builder.code.size (layoutClauses clauses builder).2.code.size
      ((layoutClauses clauses builder).1.flatMap fun clause =>
        [clause.test, clause.consequence]) := by
  cases h with
  | nil => exact .nil _
  | @cons first second rest test consequence clauses htest hconsequence hrest =>
    obtain ⟨htexts, hothers⟩ := List.append_subset.1 hnames
    obtain ⟨htexts', htexts''⟩ := List.append_subset.1 hothers
    have hgrows := (layout_reads_back test htexts).1
    rw [← hgrows.names] at htexts' htexts''
    have hgrows' := (layout_reads_back consequence htexts').1
    rw [← hgrows'.names] at htexts''
    have hgrows'' := (layoutClauses_reads_back clauses htexts'').1
    have hboth := hgrows'.trans hgrows''
    have hfirst := (postOrder_layout htest htexts).keptBy hboth.code hboth.keptBy
    have hsecond := (postOrder_layout hconsequence htexts').keptBy hgrows''.code hgrows''.keptBy
    have hlater := postOrder_layoutClauses hrest htexts''
    rw [size_layout test builder] at hsecond
    rw [size_layout consequence (test.layout builder).2] at hlater
    exact .cons hfirst (.cons hsecond hlater)

end

end Expr

/-! ### References -/

/-- The indices from `first` up to `last`. -/
def indices (first last : Nat) : List Nat := List.range' first (last - first)

theorem indices_append {first mid last : Nat} (hmid : first ≤ mid) (hlast : mid ≤ last) :
    indices first last = indices first mid ++ indices mid last := by
  have hlength : last - first = (mid - first) + (last - mid) := by omega
  have hstart : first + (mid - first) = mid := by omega
  rw [indices, hlength, ← List.range'_append_1, hstart]
  rfl

theorem indices_succ (own : Nat) : indices own (own + 1) = [own] := by
  simp [indices]

mutual

/-- Among the nodes of a value, each is referred to once, except for the node of the value itself. -/
theorem PostOrder.references_perm {code : Code} {names : NameTable} {json : Json} {first own : Nat}
    (h : PostOrder code names json first own) :
    first ≤ own ∧ ((indices first (own + 1)).flatMap code.referencesAt ++ [NodeId.mk own]).Perm
      ((indices first (own + 1)).map NodeId.mk) := by
  match h with
  | .node hbelow hnode hids _ _ =>
    obtain ⟨hle, hperm⟩ := hbelow.references_perm
    refine ⟨hle, ?_⟩
    rw [indices_append hle (Nat.le_succ own), indices_succ, List.flatMap_append, List.map_append,
      List.flatMap_singleton, Code.referencesAt_eq hnode hids]
    exact hperm.append_right [⟨own⟩]

theorem PostOrderList.references_perm {code : Code} {names : NameTable} {items : List Json}
    {first last : Nat} {ids : List NodeId} (h : PostOrderList code names items first last ids) :
    first ≤ last ∧ ((indices first last).flatMap code.referencesAt ++ ids).Perm
      ((indices first last).map NodeId.mk) := by
  match h with
  | .nil _ => exact ⟨Nat.le_refl first, by simp [indices]⟩
  | @PostOrderList.cons _ _ _ _ _ own _ ids hfirst hrest =>
    obtain ⟨hle, hperm⟩ := hfirst.references_perm
    obtain ⟨hle', hperm'⟩ := hrest.references_perm
    refine ⟨by omega, ?_⟩
    rw [indices_append (Nat.le_succ_of_le hle) hle', List.flatMap_append, List.map_append]
    generalize (indices first (own + 1)).flatMap code.referencesAt = left at hperm ⊢
    generalize (indices (own + 1) last).flatMap code.referencesAt = right at hperm' ⊢
    -- The id of the first value is counted with the nodes of that value.
    have hmove : (left ++ right ++ ⟨own⟩ :: ids).Perm ((left ++ [⟨own⟩]) ++ (right ++ ids)) := by
      rw [List.append_assoc, List.append_assoc]
      exact List.perm_middle.append_left left
    exact hmove.trans (hperm.append hperm')

end

theorem PostOrder.count_references {code : Code} {names : NameTable} {json : Json} {root : NodeId}
    (h : PostOrder code names json 0 root.raw) (hroot : code.size = root.raw + 1) {id : NodeId}
    (hid : id.raw < code.size) : code.references.count id = if id = root then 0 else 1 := by
  have hperm := h.references_perm.2
  have hall : indices 0 (root.raw + 1) = List.range code.size := by
    rw [hroot, indices, List.range_eq_range']
    rfl
  rw [hall] at hperm
  have hcount : (code.references ++ [root]).count id = ((List.range code.size).map NodeId.mk).count id :=
    hperm.count_eq id
  have honce : ((List.range code.size).map NodeId.mk).count id = 1 := by
    have hnodup : ((List.range code.size).map NodeId.mk).Nodup :=
      List.nodup_range.map fun _ _ hsame => NodeId.mk.inj hsame
    exact List.count_eq_one_of_mem hnodup (List.mem_map.2 ⟨id.raw, List.mem_range.2 hid, rfl⟩)
  rw [honce, List.count_append, List.count_singleton] at hcount
  by_cases hsame : id = root
  · subst hsame
    simp at hcount ⊢
    exact hcount
  · have hother : (root == id) = false := by simpa using Ne.symm hsame
    simpa [hother, hsame] using hcount

/-! ### Tables cut into spans -/

/-- Spans that follow one another without gap or overlap, from the index `first` up to `last`. -/
def Span.Tiles {α : Type} (first : Nat) : List (Span α) → Nat → Prop
  | [], last => first = last
  | span :: rest, last => span.start = first ∧ Tiles span.stop rest last

/-- A table of some size grows by a span, or not at all. -/
def Span.Extends {α : Type} (size grown : Nat) : Option (Span α) → Prop
  | none => grown = size
  | some span => span.start = size ∧ span.stop = grown

theorem Span.Tiles.extend {α : Type} {spans : List (Span α)} {first size grown : Nat}
    {added : Option (Span α)} (h : Tiles first spans size) (hadded : Extends size grown added) :
    Tiles first (spans ++ added.toList) grown := by
  induction spans generalizing first with
  | nil =>
    cases added with
    | none => exact h.trans hadded.symm
    | some span => exact ⟨hadded.1.trans h.symm, hadded.2⟩
  | cons span rest ih => exact ⟨h.1, ih h.2⟩

/-- The span of node ids that a node has. -/
def Node.listSpan? : Node → Option (Span NodeId)
  | .apply _ operands => some operands
  | .block items => some items
  | _ => none

def Node.clauseSpan? : Node → Option (Span Clause)
  | .cond clauses => some clauses
  | _ => none

def Node.paramSpan? : Node → Option (Span Name)
  | .lambda params _ => some params
  | _ => none

namespace Code

/-- The spans of one kind that the nodes have, in the order of the nodes. -/
def spans {α : Type} (code : Code) (span? : Node → Option (Span α)) : List (Span α) :=
  code.nodes.toList.filterMap span?

/-- Each side table is cut into the spans of the nodes. -/
structure Tiled (code : Code) : Prop where
  lists : Span.Tiles 0 (code.spans Node.listSpan?) code.lists.size
  clauses : Span.Tiles 0 (code.spans Node.clauseSpan?) code.clauses.size
  params : Span.Tiles 0 (code.spans Node.paramSpan?) code.params.size

theorem tiled_empty : Code.empty.Tiled := ⟨rfl, rfl, rfl⟩

theorem spans_alloc {α : Type} (code : Code) (span? : Node → Option (Span α)) (node : Node) :
    (code.alloc node).2.spans span? = code.spans span? ++ (span? node).toList := by
  cases h : span? node <;> simp [spans, alloc, h]

/-- Side tables that have grown by the spans of a node are cut into spans when the node is added. -/
theorem Tiled.add {code side : Code} {node : Node} (h : code.Tiled)
    (hnodes : side.nodes = code.nodes)
    (hlists : Span.Extends code.lists.size side.lists.size node.listSpan?)
    (hclauses : Span.Extends code.clauses.size side.clauses.size node.clauseSpan?)
    (hparams : Span.Extends code.params.size side.params.size node.paramSpan?) :
    (side.alloc node).2.Tiled := by
  have hspans {α : Type} (span? : Node → Option (Span α)) :
      (side.alloc node).2.spans span? = code.spans span? ++ (span? node).toList := by
    rw [spans_alloc, spans, hnodes, spans]
  constructor
  · rw [hspans]
    exact h.lists.extend hlists
  · rw [hspans]
    exact h.clauses.extend hclauses
  · rw [hspans]
    exact h.params.extend hparams

end Code

namespace Expr

theorem extends_append {α : Type} (table : Array α) (items : List α) :
    Span.Extends table.size (table ++ items.toArray).size
      (some (⟨table.size, items.length⟩ : Span α)) := by
  refine ⟨rfl, ?_⟩
  simp [Span.stop]

mutual

theorem tiled_layout (expr : Expr) {builder : Builder} (h : builder.code.Tiled) :
    (expr.layout builder).2.code.Tiled := by
  match expr with
  | .int _ | .str _ | .ident _ | .unknown _ => exact h.add rfl rfl rfl rfl
  | .apply operator operands =>
    have hoperator := tiled_layout operator h
    have hoperands := tiled_layoutList operands hoperator
    exact hoperands.add rfl (extends_append _ _) rfl rfl
  | .lambda params body =>
    exact (tiled_layout body h).add rfl rfl rfl (extends_append _ _)
  | .block items => exact (tiled_layoutList items h).add rfl (extends_append _ _) rfl rfl
  | .cond clauses => exact (tiled_layoutClauses clauses h).add rfl rfl (extends_append _ _) rfl
  | .letIn name init body =>
    exact (tiled_layout body (tiled_layout init h)).add rfl rfl rfl rfl
  | .assign name value =>
    exact (tiled_layout value h).add rfl rfl rfl rfl

theorem tiled_layoutList (exprs : List Expr) {builder : Builder} (h : builder.code.Tiled) :
    (layoutList exprs builder).2.code.Tiled := by
  match exprs with
  | [] => exact h
  | expr :: rest => exact tiled_layoutList rest (tiled_layout expr h)

theorem tiled_layoutClauses (clauses : List (Expr × Expr)) {builder : Builder}
    (h : builder.code.Tiled) : (layoutClauses clauses builder).2.code.Tiled := by
  match clauses with
  | [] => exact h
  | (test, consequence) :: rest =>
    exact tiled_layoutClauses rest (tiled_layout consequence (tiled_layout test h))

end

end Expr

/-! ### Decoded programs -/

theorem Node.WellPlaced.child_lt {code : Code} {names : NameTable} {id child : NodeId} {node : Node}
    {ids : List NodeId} (h : node.WellPlaced code names id) (hids : code.children? node = some ids)
    (hchild : child ∈ ids) : child.raw < id.raw := by
  cases node with
  | int _ | str _ | ident _ | unknown _ =>
    cases hids
    cases hchild
  | apply operator operands =>
    obtain ⟨hoperator, found, hread, hfound⟩ := h
    obtain ⟨found', hread', rfl⟩ := Option.map_eq_some_iff.1 hids
    obtain rfl := Option.some.inj (hread.symm.trans hread')
    rcases List.mem_cons.1 hchild with rfl | hrest
    · exact hoperator
    · exact hfound child hrest
  | lambda params body =>
    cases hids
    obtain rfl := List.mem_singleton.1 hchild
    exact h.1
  | block items =>
    obtain ⟨found, hread, hfound⟩ := h
    obtain rfl := Option.some.inj (hread.symm.trans hids)
    exact hfound child hchild
  | cond clauses =>
    obtain ⟨found, hread, hfound⟩ := h
    obtain ⟨found', hread', rfl⟩ := Option.map_eq_some_iff.1 hids
    obtain rfl := Option.some.inj (hread.symm.trans hread')
    obtain ⟨clause, hclause, hpart⟩ := List.mem_flatMap.1 hchild
    obtain ⟨htest, hconsequence⟩ := hfound clause hclause
    simp only [List.mem_cons, List.not_mem_nil, or_false] at hpart
    rcases hpart with rfl | rfl
    · exact htest
    · exact hconsequence
  | letIn name init body =>
    obtain ⟨-, hinit, hbody⟩ := h
    cases hids
    simp only [List.mem_cons, List.not_mem_nil, or_false] at hchild
    rcases hchild with rfl | rfl
    · exact hinit
    · exact hbody
  | assign name value =>
    cases hids
    obtain rfl := List.mem_singleton.1 hchild
    exact h.2

namespace Program

/-- The layout of every decoded program.  The nodes are those of the expression positions of the JSON
value in post-order, and the root is the last of them.  Every id that a node refers to is smaller
than its own, and every node except for the root is referred to once.  The spans of the nodes, in the
order of the nodes, cut each side table into pieces without gap or overlap. -/
theorem decoded_code_is_in_post_order {json : Json} {names after : NameTable} {program : Program}
    (h : ofJson json names = (.ok program, after)) :
    PostOrder program.code after json 0 program.root.raw ∧
      program.code.size = program.root.raw + 1 ∧
      (∀ id node ids, program.code.node? id = some node → program.code.children? node = some ids →
        ∀ child ∈ ids, child.raw < id.raw) ∧
      (∀ id : NodeId, id.raw < program.code.size →
        program.code.references.count id = if id = program.root then 0 else 1) ∧
      Span.Tiles 0 (program.code.spans Node.listSpan?) program.code.lists.size ∧
      Span.Tiles 0 (program.code.spans Node.clauseSpan?) program.code.clauses.size ∧
      Span.Tiles 0 (program.code.spans Node.paramSpan?) program.code.params.size := by
  have hwell := wellFormed_of_ofJson h
  obtain ⟨expr, hencodes, -, rfl, rfl⟩ := ofJson_eq_ok_iff.1 h
  let start : Builder := ⟨names.withTexts expr.names, .empty⟩
  have hnames : expr.names ⊆ start.names.texts := names.subset_texts_withTexts expr.names
  have horder := Expr.postOrder_layout hencodes hnames
  rw [(expr.layout_reads_back hnames).1.names] at horder
  have hsize := expr.size_layout start
  have htiled : (expr.layout start).2.code.Tiled := expr.tiled_layout Code.tiled_empty
  refine ⟨horder, hsize, ?_, ?_, htiled.lists, htiled.clauses, htiled.params⟩
  · intro id node ids hnode hids child hchild
    exact (hwell id node hnode).child_lt hids hchild
  · intro id hid
    exact horder.count_references hsize hid

/-- A block of an application with a block among its operands, and of a conditional. -/
def nestedLists : Json :=
  .object [("Block", .array [
    .object [("Application", .array [.identifier "f", .object [("Block", .array [])], .string "x"])],
    .object [("Cond", .array [.object [("Clause", .array [.identifier "t", .string "x"])]])]])]

theorem encodes_nestedLists : Encodes nestedLists (.block [
    .apply (.ident "f") [.block [], .str "x"], .cond [(.ident "t", .str "x")]]) :=
  .block (.cons (.application (.identifier "f") (.cons (.block .nil) (.cons (.string "x") .nil)))
    (.cons (.cond (.cons (.identifier "t") (.string "x") .nil)) .nil))

theorem decoded_code_is_in_post_order_nestedLists :
    ∃ program after, ofJson nestedLists .new = (.ok program, after) ∧ program.root = ⟨7⟩ ∧
      PostOrder program.code after nestedLists 0 program.root.raw ∧
      program.code.references.count ⟨3⟩ = 1 ∧
      program.code.spans Node.listSpan? = [⟨0, 0⟩, ⟨0, 2⟩, ⟨2, 2⟩] ∧
      Span.Tiles 0 (program.code.spans Node.listSpan?) program.code.lists.size := by
  have hroom : NameTable.new.Suffices (Expr.names (.block [
      .apply (.ident "f") [.block [], .str "x"], .cond [(.ident "t", .str "x")]])) := by decide
  have h := ofJson_of_encodes encodes_nestedLists hroom
  obtain ⟨horder, -, -, hcount, hlists, -⟩ := decoded_code_is_in_post_order h
  have hthird := hcount ⟨3⟩ (by decide +kernel)
  refine ⟨_, _, h, by decide +kernel, horder, ?_, by decide +kernel, hlists⟩
  rw [hthird]
  decide +kernel

end Program

end FlatScope
