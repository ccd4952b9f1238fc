import FlatScope.Proofs.Decoding.ReadBack
import Mathlib.Data.List.Lattice

/-!
# What was added stays in its place

Code is made by additions: of single nodes, of lists for one of the side tables, and of nodes
together with their lists.  The additions before it say where each of them goes: a node to the number
of nodes before it, a list to the span behind all that was put into its table.  Nothing that is added
later changes what is found there (`Addition.Stable`).
-/

namespace FlatScope

/-! ### Additions -/

/-- The tables beside that of the nodes. -/
inductive SideTable where
  | lists
  | clauses
  | params

abbrev SideTable.Entry : SideTable → Type
  | lists => NodeId
  | clauses => Clause
  | params => Name

/-- An addition to the tables.  A node that comes without a list, such as a literal or an assignment,
is added as it is. -/
inductive Addition where
  | node (node : Node)
  | list (table : SideTable) (items : List table.Entry)
  | apply (operator : NodeId) (operands : List NodeId)
  | lambda (params : List Name) (body : NodeId)
  | block (items : List NodeId)
  | cond (clauses : List Clause)

/-- Where an addition has gone. -/
inductive Address where
  | node (id : NodeId)
  | list (table : SideTable) (span : Span table.Entry)

namespace Code

def entries (code : Code) : (table : SideTable) → Array table.Entry
  | .lists => code.lists
  | .clauses => code.clauses
  | .params => code.params

def allocIn (code : Code) : (table : SideTable) → List table.Entry → Span table.Entry × Code
  | .lists, ids => code.allocList ids
  | .clauses, clauses => code.allocClauses clauses
  | .params, params => code.allocParams params

/-- The address that an addition answers with, and the code after it. -/
def add (code : Code) : Addition → Address × Code
  | .node node => (.node (code.alloc node).1, (code.alloc node).2)
  | .list table items => (.list table (code.allocIn table items).1, (code.allocIn table items).2)
  | .apply operator operands =>
    (.node (code.allocApply operator operands).1, (code.allocApply operator operands).2)
  | .lambda params body => (.node (code.allocLambda params body).1, (code.allocLambda params body).2)
  | .block items => (.node (code.allocBlock items).1, (code.allocBlock items).2)
  | .cond clauses => (.node (code.allocCond clauses).1, (code.allocCond clauses).2)

/-- The addresses of additions one after another, and the code after them. -/
def addAll (code : Code) : List Addition → List Address × Code
  | [] => ([], code)
  | op :: rest =>
    let (address, code) := code.add op
    let (others, code) := code.addAll rest
    (address :: others, code)

/-- No table has as many as `2^32` entries. -/
def Narrow (code : Code) : Prop :=
  code.size < 4294967296 ∧ ∀ table, (code.entries table).size < 4294967296

end Code

/-! ### What additions say -/

namespace Addition

def addsNode : Addition → Bool
  | list _ _ => false
  | _ => true

/-- The list that an addition puts into a side table, if it puts one there. -/
def listFor? : Addition → (table : SideTable) → Option (List table.Entry)
  | list .lists items, .lists => some items
  | list .clauses items, .clauses => some items
  | list .params items, .params => some items
  | apply _ operands, .lists => some operands
  | lambda params _, .params => some params
  | block items, .lists => some items
  | cond clauses, .clauses => some clauses
  | _, _ => none

/-- All that additions put into a side table, in order. -/
def listed (ops : List Addition) (table : SideTable) : List table.Entry :=
  ops.flatMap fun op => (op.listFor? table).getD []

/-- The id of a node that is added after other additions. -/
def nextId (ops : List Addition) : NodeId := ⟨ops.countP addsNode⟩

/-- The span of a list that is put into a side table after other additions. -/
def nextSpan (ops : List Addition) (table : SideTable) (items : List table.Entry) :
    Span table.Entry :=
  ⟨(listed ops table).length, items.length⟩

/-- The node that an addition makes after other additions.  A node with a list has the span of this
list. -/
def nodeAfter? (ops : List Addition) : Addition → Option Node
  | node added => some added
  | list _ _ => none
  | apply operator operands => some (.apply operator (nextSpan ops .lists operands))
  | lambda params body => some (.lambda (nextSpan ops .params params) body)
  | block items => some (.block (nextSpan ops .lists items))
  | cond clauses => some (.cond (nextSpan ops .clauses clauses))

/-- The code that additions make. -/
def built (ops : List Addition) : Code := (Code.empty.addAll ops).2

def addresses (ops : List Addition) : List Address := (Code.empty.addAll ops).1

/-- Whatever is added is found at its address at every later moment. -/
structure Stable (ops : List Addition) : Prop where
  /-- A node is answered with the number of the nodes before it, and stands there from then on.  If it
  was added with a list, it has the span of this list. -/
  nodes : ∀ (i : Nat) op node, ops[i]? = some op → op.nodeAfter? (ops.take i) = some node →
    (addresses ops)[i]? = some (.node (nextId (ops.take i))) ∧
      ∀ moment > i, (built (ops.take moment)).node? (nextId (ops.take i)) = some node
  /-- A list alone is answered with its span. -/
  answered : ∀ (i : Nat) table items, ops[i]? = some (.list table items) →
    (addresses ops)[i]? = some (.list table (nextSpan (ops.take i) table items))
  /-- The span of a list, alone or of a node, reads as this list from then on. -/
  lists : ∀ (i : Nat) op table items, ops[i]? = some op → op.listFor? table = some items →
    ∀ moment > i, (nextSpan (ops.take i) table items).read?
      ((built (ops.take moment)).entries table) = some items
  /-- The spans of two lists in one table have no index in common. -/
  apart : ∀ (i j : Nat) table first second items others, i ≠ j →
    ops[i]? = some first → first.listFor? table = some items →
    ops[j]? = some second → second.listFor? table = some others →
      (nextSpan (ops.take i) table items).indices.Disjoint
        (nextSpan (ops.take j) table others).indices
  /-- In code that is narrow no id is the invalid one, and ids and spans need no more than 32 bits. -/
  fits : (built ops).Narrow → ∀ (i : Nat) op, ops[i]? = some op →
    (∀ node, op.nodeAfter? (ops.take i) = some node →
      (nextId (ops.take i)).isValid = true ∧ (nextId (ops.take i)).raw < 4294967296) ∧
    ∀ table items, op.listFor? table = some items →
      (nextSpan (ops.take i) table items).stop < 4294967296

end Addition

/-! ### One addition -/

namespace Code

open Addition

variable {code grown : Code} {op : Addition} {ops : List Addition}

theorem KeptBy.entries (h : code.KeptBy grown) {table : SideTable} {span : Span table.Entry}
    {items : List table.Entry} (hread : span.read? (code.entries table) = some items) :
    span.read? (grown.entries table) = some items := by
  cases table with
  | lists => exact h.lists span items hread
  | clauses => exact h.clauses span items hread
  | params => exact h.params span items hread

theorem keptBy_add (code : Code) (op : Addition) : code.KeptBy (code.add op).2 := by
  cases op with
  | node node => exact code.keptBy_alloc node
  | list table items =>
    cases table with
    | lists => exact code.keptBy_allocList items
    | clauses => exact code.keptBy_allocClauses items
    | params => exact code.keptBy_allocParams items
  | apply operator operands => exact (code.keptBy_allocList operands).trans (keptBy_alloc _ _)
  | lambda params body => exact (code.keptBy_allocParams params).trans (keptBy_alloc _ _)
  | block items => exact (code.keptBy_allocList items).trans (keptBy_alloc _ _)
  | cond clauses => exact (code.keptBy_allocClauses clauses).trans (keptBy_alloc _ _)

theorem size_add (code : Code) (op : Addition) :
    (code.add op).2.size = code.size + if op.addsNode then 1 else 0 := by
  cases op with
  | list table items => cases table <;> rfl
  | node | apply | lambda | block | cond => exact Array.size_push _

/-- A side table grows by the list that an addition puts there. -/
theorem entries_add (code : Code) (op : Addition) (table : SideTable) :
    (code.add op).2.entries table =
      code.entries table ++ ((op.listFor? table).getD []).toArray := by
  cases op with
  | list other items => cases other <;> cases table <;> rfl
  | node | apply | lambda | block | cond => cases table <;> rfl

/-- Code has as many nodes as additions made, and the entries that they listed. -/
structure Follows (code : Code) (ops : List Addition) : Prop where
  size : code.size = ops.countP addsNode
  entries : ∀ table, code.entries table = (listed ops table).toArray

theorem Follows.add (h : code.Follows ops) (op : Addition) :
    (code.add op).2.Follows (ops ++ [op]) where
  size := by
    rw [size_add, h.size, List.countP_append, List.countP_singleton]
  entries table := by
    rw [entries_add, h.entries table, listed, listed, List.flatMap_append, List.flatMap_singleton,
      List.append_toArray]

theorem Follows.allocIn_fst (h : code.Follows ops) (table : SideTable) (items : List table.Entry) :
    (code.allocIn table items).1 = nextSpan ops table items := by
  have hsize : (code.entries table).size = (listed ops table).length := by
    rw [h.entries, List.size_toArray]
  rw [nextSpan, ← hsize]
  cases table <;> rfl

/-- The list that an addition puts into a side table can be read there in the span that follows all
that was listed before. -/
theorem Follows.read?_add (h : code.Follows ops) {table : SideTable} {items : List table.Entry}
    (hitems : op.listFor? table = some items) :
    (nextSpan ops table items).read? ((code.add op).2.entries table) = some items := by
  have halloc : Span.alloc (code.entries table) items =
      (nextSpan ops table items, (code.add op).2.entries table) := by
    rw [entries_add, hitems, h.entries, Span.alloc, nextSpan, List.size_toArray]
    rfl
  have hread := Span.read?_alloc (code.entries table) items
  rw [halloc] at hread
  exact hread

/-- An addition that makes a node adds the node last, when its list is in its table. -/
theorem Follows.add_eq (h : code.Follows ops) {node : Node}
    (hnode : op.nodeAfter? ops = some node) :
    ∃ side : Code, side.size = code.size ∧
      code.add op = (.node (side.alloc node).1, (side.alloc node).2) := by
  cases op with
  | node added =>
    cases hnode
    exact ⟨code, rfl, rfl⟩
  | list table items => cases hnode
  | apply operator operands =>
    cases hnode
    rw [← h.allocIn_fst .lists operands]
    exact ⟨(code.allocList operands).2, rfl, rfl⟩
  | lambda params body =>
    cases hnode
    rw [← h.allocIn_fst .params params]
    exact ⟨(code.allocParams params).2, rfl, rfl⟩
  | block items =>
    cases hnode
    rw [← h.allocIn_fst .lists items]
    exact ⟨(code.allocList items).2, rfl, rfl⟩
  | cond clauses =>
    cases hnode
    rw [← h.allocIn_fst .clauses clauses]
    exact ⟨(code.allocClauses clauses).2, rfl, rfl⟩

theorem Follows.node?_add (h : code.Follows ops) {node : Node}
    (hnode : op.nodeAfter? ops = some node) :
    (code.add op).1 = .node (nextId ops) ∧ (code.add op).2.node? (nextId ops) = some node := by
  obtain ⟨side, hsize, hadd⟩ := h.add_eq hnode
  -- The list does not count: the id is the number of nodes, whatever the side tables hold.
  have hid : (side.alloc node).1 = nextId ops := by
    show NodeId.mk side.size = nextId ops
    rw [hsize, h.size, nextId]
  rw [hadd, ← hid]
  exact ⟨rfl, side.node?_alloc node⟩

theorem Narrow.isValid_of_node? (h : code.Narrow) {id : NodeId} {node : Node}
    (hnode : code.node? id = some node) : id.isValid = true ∧ id.raw < 4294967296 := by
  have hlt := node?_eq_some_lt hnode
  have hsize := h.1
  have hne : id ≠ .invalid := by
    rintro rfl
    simp only [NodeId.invalid] at hlt
    omega
  exact ⟨decide_eq_true hne, by omega⟩

/-! ### Whole histories -/

theorem keptBy_addAll (code : Code) (ops : List Addition) : code.KeptBy (code.addAll ops).2 := by
  induction ops generalizing code with
  | nil => exact .refl code
  | cons op rest ih => exact (code.keptBy_add op).trans (ih _)

theorem keptBy_addAll_take (code : Code) (ops : List Addition) {i j : Nat} (h : i ≤ j) :
    (code.addAll (ops.take i)).2.KeptBy (code.addAll (ops.take j)).2 := by
  -- Both histories start with the same `i` additions; the longer one goes on from there.
  induction ops generalizing code i j with
  | nil =>
    rw [List.take_nil, List.take_nil]
    exact .refl code
  | cons op rest ih =>
    cases i with
    | zero => exact code.keptBy_addAll _
    | succ i =>
      cases j with
      | zero => exact absurd h (Nat.not_succ_le_zero i)
      | succ j => exact ih _ (Nat.le_of_succ_le_succ h)

theorem Follows.addAll (h : code.Follows ops) (more : List Addition) :
    (code.addAll more).2.Follows (ops ++ more) := by
  induction more generalizing code ops with
  | nil =>
    rw [List.append_nil]
    exact h
  | cons op rest ih =>
    rw [List.append_cons]
    exact ih (h.add op)

/-- What the addition at a position answers, and the code after it. -/
theorem addAll_at (code : Code) {i : Nat} (hop : ops[i]? = some op) :
    (code.addAll ops).1[i]? = some ((code.addAll (ops.take i)).2.add op).1 ∧
      (code.addAll (ops.take (i + 1))).2 = ((code.addAll (ops.take i)).2.add op).2 := by
  induction ops generalizing code i with
  | nil => cases hop
  | cons first rest ih =>
    cases i with
    | zero =>
      cases hop
      exact ⟨rfl, rfl⟩
    | succ i => exact ih (code.add first).2 hop

theorem follows_built (ops : List Addition) : (built ops).Follows ops := by
  have hempty : Code.empty.Follows [] := ⟨rfl, fun table => by cases table <;> rfl⟩
  exact hempty.addAll ops

theorem node?_built_take {i moment : Nat} {node : Node} (hop : ops[i]? = some op)
    (hnode : op.nodeAfter? (ops.take i) = some node) (hmoment : i < moment) :
    (built (ops.take moment)).node? (nextId (ops.take i)) = some node := by
  have hnext := ((follows_built (ops.take i)).node?_add hnode).2
  refine (keptBy_addAll_take .empty ops hmoment).nodes _ _ ?_
  rw [(Code.empty.addAll_at hop).2]
  exact hnext

theorem read?_built_take {i moment : Nat} {table : SideTable} {items : List table.Entry}
    (hop : ops[i]? = some op) (hitems : op.listFor? table = some items) (hmoment : i < moment) :
    (nextSpan (ops.take i) table items).read? ((built (ops.take moment)).entries table) =
      some items := by
  have hnext := (follows_built (ops.take i)).read?_add hitems
  refine (keptBy_addAll_take .empty ops hmoment).entries ?_
  rw [(Code.empty.addAll_at hop).2]
  exact hnext

end Code

/-! ### Spans in one table -/

theorem Span.stop_le_of_read? {α : Type} {span : Span α} {table : Array α} {found : List α}
    (h : span.read? table = some found) : span.stop ≤ table.size := by
  unfold read? at h
  split at h
  · assumption
  · cases h

namespace Addition

variable {ops : List Addition} {op : Addition} {i j : Nat} {table : SideTable}
  {items : List table.Entry}

theorem length_listed_take_le (ops : List Addition) (table : SideTable) (h : i ≤ j) :
    (listed (ops.take i) table).length ≤ (listed (ops.take j) table).length := by
  have hprefix : ops.take i <+: ops.take j := List.take_prefix_take_left h
  obtain ⟨later, hlater⟩ := hprefix
  rw [← hlater, listed, listed, List.flatMap_append, List.length_append]
  exact Nat.le_add_right _ _

theorem stop_nextSpan (hop : ops[i]? = some op) (hitems : op.listFor? table = some items) :
    (nextSpan (ops.take i) table items).stop = (listed (ops.take (i + 1)) table).length := by
  rw [List.take_add_one, hop, listed, List.flatMap_append, List.length_append]
  simp [hitems, Span.stop, nextSpan, listed]

/-- A list that is put into a table later has a span further on. -/
theorem disjoint_indices (others : List table.Entry) (hop : ops[i]? = some op)
    (hitems : op.listFor? table = some items) (hij : i < j) :
    (nextSpan (ops.take i) table items).indices.Disjoint
      (nextSpan (ops.take j) table others).indices := by
  have hle : (nextSpan (ops.take i) table items).stop ≤
      (nextSpan (ops.take j) table others).start := by
    rw [stop_nextSpan hop hitems]
    exact length_listed_take_le ops table hij
  intro index hfirst hsecond
  rw [Span.indices, List.mem_range'_1] at hfirst hsecond
  unfold Span.stop at hle
  omega

/-- Additions in any order are stable: ids count the nodes, what stands at an id or in a span never
changes, and spans of one table do not overlap. -/
theorem additions_stay_in_place (ops : List Addition) : Stable ops where
  nodes i op node hop hnode := by
    have haddress := (Code.empty.addAll_at hop).1
    have hid := ((Code.follows_built (ops.take i)).node?_add hnode).1
    exact ⟨haddress.trans (congrArg some hid), fun moment => Code.node?_built_take hop hnode⟩
  answered i table items hop := by
    rw [← (Code.follows_built (ops.take i)).allocIn_fst]
    exact (Code.empty.addAll_at hop).1
  lists i op table items hop hitems moment hmoment := Code.read?_built_take hop hitems hmoment
  apart i j table first second items others hne hfirst hitems hsecond hothers := by
    rcases Nat.lt_or_gt_of_ne hne with hlt | hgt
    · exact disjoint_indices others hfirst hitems hlt
    · exact List.Disjoint.symm (disjoint_indices items hsecond hothers hgt)
  fits hnarrow i op hop := by
    have hi : i < ops.length := (List.getElem?_eq_some_iff.1 hop).1
    constructor
    · intro node hnode
      have hfound := Code.node?_built_take hop hnode hi
      rw [List.take_length] at hfound
      exact hnarrow.isValid_of_node? hfound
    · intro table items hitems
      have hread := Code.read?_built_take hop hitems hi
      rw [List.take_length] at hread
      exact Nat.lt_of_le_of_lt (Span.stop_le_of_read? hread) (hnarrow.2 table)

/-- Lists alone among nodes with lists, and a node that refers to the span of an earlier list. -/
def interleaved : List Addition :=
  [.node (.int 7), .block [⟨0⟩, ⟨0⟩], .list .lists [⟨1⟩], .list .clauses [], .apply ⟨0⟩ [⟨1⟩],
    .lambda [⟨2⟩] ⟨2⟩, .node (.block ⟨0, 2⟩), .list .lists [⟨3⟩, ⟨4⟩]]

theorem additions_stay_in_place_interleaved :
    (addresses interleaved)[4]? = some (.node ⟨2⟩) ∧
      (∀ moment > 4, (built (interleaved.take moment)).node? ⟨2⟩ = some (.apply ⟨0⟩ ⟨3, 1⟩) ∧
        Span.read? ⟨3, 1⟩ (built (interleaved.take moment)).lists = some [⟨1⟩]) ∧
      (addresses interleaved)[7]? = some (.list .lists ⟨4, 2⟩) ∧
      (⟨3, 1⟩ : Span NodeId).indices.Disjoint (⟨4, 2⟩ : Span NodeId).indices := by
  have hstable := additions_stay_in_place interleaved
  obtain ⟨haddress, hnode⟩ := hstable.nodes 4 _ _ rfl rfl
  have hlist := hstable.lists 4 _ .lists _ rfl rfl
  exact ⟨haddress, fun moment hmoment => ⟨hnode moment hmoment, hlist moment hmoment⟩,
    hstable.answered 7 .lists _ rfl, hstable.apart 4 7 .lists _ _ _ _ (by decide) rfl rfl rfl rfl⟩

end Addition

end FlatScope
