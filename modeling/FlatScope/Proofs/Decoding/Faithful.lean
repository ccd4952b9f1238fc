import FlatScope.Proofs.Decoding.Grammar
import FlatScope.Proofs.Names.History

/-!
# Decoding is faithful

Laying out an expression keeps all that is in the tables and puts the expression at the id it gives
(`layout_reads_back`).  So `Program.ofJson` accepts exactly the JSON values of the grammar for whose
texts there is room, and the tree that stands at the root of the code is the expression that the value
encodes.
-/

namespace FlatScope

namespace Code

def Readable (code : Code) (names : NameTable) : Prop :=
  ∀ id : NodeId, id.raw < code.size → (code.expr? names id).isSome

variable {code grown : Code} {names more : NameTable}

theorem Readable.keptBy (h : code.Readable names) (hcode : code.KeptBy grown)
    (hnames : names.KeptBy more) (hsize : grown.size = code.size) : grown.Readable more := by
  intro id hid
  obtain ⟨expr, hexpr⟩ := Option.isSome_iff_exists.1 (h id (hsize ▸ hid))
  rw [expr?_keptBy hcode hnames hexpr]
  rfl

theorem Readable.alloc {node : Node} {expr : Expr} (h : code.Readable names)
    (hlayer : code.Layer names (code.expr? names) node expr) :
    (code.alloc node).2.Readable names := by
  intro id hid
  have hsize : (code.alloc node).2.size = code.size + 1 := Array.size_push node
  by_cases hold : id.raw < code.size
  · obtain ⟨old, hold⟩ := Option.isSome_iff_exists.1 (h id hold)
    rw [expr?_keptBy (code.keptBy_alloc node) (.refl names) hold]
    rfl
  · have hnew : id = (code.alloc node).1 := by
      obtain ⟨raw⟩ := id
      have hraw : raw = code.size := by
        simp only at hid hold
        omega
      rw [hraw]
      rfl
    rw [hnew, expr?_alloc hlayer]
    rfl

end Code

/-! ### Building keeps what is there -/

/-- What a step of building keeps: the tables, the names, and that every node has a tree. -/
structure Builder.Grows (before after : Builder) : Prop where
  code : before.code.KeptBy after.code
  names : after.names = before.names
  readable : before.code.Readable before.names → after.code.Readable after.names

namespace Builder

theorem Grows.refl (builder : Builder) : builder.Grows builder := ⟨.refl _, rfl, fun h => h⟩

theorem Grows.trans {first second third : Builder} (h : first.Grows second)
    (h' : second.Grows third) : first.Grows third :=
  ⟨h.code.trans h'.code, h'.names.trans h.names, fun hread => h'.readable (h.readable hread)⟩

theorem Grows.keptBy {before after : Builder} (h : before.Grows after) :
    before.names.KeptBy after.names := by
  rw [h.names]
  exact .refl _

def expr? (builder : Builder) (id : NodeId) : Option Expr := builder.code.expr? builder.names id

theorem Grows.expr? {before after : Builder} (h : before.Grows after) {id : NodeId} {expr : Expr}
    (hexpr : before.expr? id = some expr) : after.expr? id = some expr :=
  Code.expr?_keptBy h.code h.keptBy hexpr

/-- A step of building puts an expression at the id that it gives, and keeps what was there. -/
def Puts (builder : Builder) (result : NodeId × Builder) (expr : Expr) : Prop :=
  builder.Grows result.2 ∧ result.2.expr? result.1 = some expr

theorem Grows.puts {before after : Builder} {result : NodeId × Builder} {expr : Expr}
    (h : before.Grows after) (hputs : after.Puts result expr) : before.Puts result expr :=
  ⟨h.trans hputs.1, hputs.2⟩

/-- Building puts an expression in place, if it adds its root node to code that has grown by entries
of the side tables only. -/
theorem puts_build (builder : Builder) (add : Code → NodeId × Code) {mid : Code} {node : Node}
    {expr : Expr} (hadd : add builder.code = mid.alloc node) (hmid : builder.code.KeptBy mid)
    (hsize : mid.size = builder.code.size)
    (hlayer : mid.Layer builder.names builder.expr? node expr) :
    builder.Puts (builder.build add) expr := by
  -- The side tables grow before the root is added, and no tree that stood before is touched.
  have hlayer' : mid.Layer builder.names (mid.expr? builder.names) node expr :=
    hlayer.keptBy (.refl mid) (.refl _) fun id tree h => Code.expr?_keptBy hmid (.refl _) h
  have hcode : (builder.build add).2.code = (mid.alloc node).2 := congrArg Prod.snd hadd
  have hid : (builder.build add).1 = (mid.alloc node).1 := congrArg Prod.fst hadd
  have hnames : (builder.build add).2.names = builder.names := rfl
  refine ⟨⟨?_, rfl, fun h => ?_⟩, ?_⟩
  · rw [hcode]
    exact hmid.trans (mid.keptBy_alloc node)
  · rw [hcode, hnames]
    exact (h.keptBy hmid (.refl _) hsize).alloc hlayer'
  · rw [Builder.expr?, hcode, hid, hnames]
    exact Code.expr?_alloc hlayer'

variable {builder : Builder} {exprs : List Expr} {expr : Expr}

theorem puts_alloc {node : Node}
    (hlayer : builder.code.Layer builder.names builder.expr? node expr) :
    builder.Puts (builder.build (·.alloc node)) expr :=
  puts_build builder _ rfl (.refl _) rfl hlayer

theorem puts_allocApply {operator : NodeId} {operands : List NodeId}
    (hoperator : builder.expr? operator = some expr)
    (hoperands : operands.map builder.expr? = exprs.map some) :
    builder.Puts (builder.build (·.allocApply operator operands)) (.apply expr exprs) :=
  puts_build builder _ rfl (builder.code.keptBy_allocList operands) rfl
    (.apply hoperator (Span.read?_alloc _ _) hoperands)

theorem puts_allocLambda {params : List Name} {texts : List String} {body : NodeId}
    (hparams : params.map builder.names.text? = texts.map some)
    (hbody : builder.expr? body = some expr) :
    builder.Puts (builder.build (·.allocLambda params body)) (.lambda texts expr) :=
  puts_build builder _ rfl (builder.code.keptBy_allocParams params) rfl
    (.lambda (Span.read?_alloc _ _) hparams hbody)

theorem puts_allocBlock {items : List NodeId} (hitems : items.map builder.expr? = exprs.map some) :
    builder.Puts (builder.build (·.allocBlock items)) (.block exprs) :=
  puts_build builder _ rfl (builder.code.keptBy_allocList items) rfl
    (.block (Span.read?_alloc _ _) hitems)

theorem puts_allocCond {clauses : List Clause} {pairs : List (Expr × Expr)}
    (hclauses : clauses.map (Code.clausePair? builder.expr?) = pairs.map some) :
    builder.Puts (builder.build (·.allocCond clauses)) (.cond pairs) :=
  puts_build builder _ rfl (builder.code.keptBy_allocClauses clauses) rfl
    (.cond (Span.read?_alloc _ _) hclauses)

end Builder

/-! ### Laying out -/

theorem NameTable.map_text?_nameOf {names : NameTable} {texts : List String}
    (h : texts ⊆ names.texts) : (texts.map names.nameOf).map names.text? = texts.map some := by
  rw [List.map_map]
  exact List.map_congr_left fun text htext => text?_nameOf (h htext)

namespace Expr

open Builder

mutual

/-- An expression whose texts have names is put in place. -/
theorem layout_reads_back (expr : Expr) {builder : Builder} (h : expr.names ⊆ builder.names.texts) :
    builder.Puts (expr.layout builder) expr := by
  match expr with
  | .int literal => exact puts_alloc (.int literal)
  | .str text => exact puts_alloc (.str (NameTable.text?_nameOf (h (List.mem_singleton.2 rfl))))
  | .ident name => exact puts_alloc (.ident (NameTable.text?_nameOf (h (List.mem_singleton.2 rfl))))
  | .unknown tag => exact puts_alloc (.unknown (NameTable.text?_nameOf (h (List.mem_singleton.2 rfl))))
  | .apply operator operands =>
    obtain ⟨htexts, htexts'⟩ := List.append_subset.1 h
    obtain ⟨hfirst, hoperator⟩ := layout_reads_back operator htexts
    rw [← hfirst.names] at htexts'
    obtain ⟨hrest, hoperands⟩ := layoutList_reads_back operands htexts'
    exact (hfirst.trans hrest).puts (puts_allocApply (hrest.expr? hoperator) hoperands)
  | .lambda params body =>
    obtain ⟨hparams, htexts⟩ := List.append_subset.1 h
    obtain ⟨hbody, hexpr⟩ := layout_reads_back body htexts
    rw [← hbody.names] at hparams
    exact hbody.puts (puts_allocLambda (NameTable.map_text?_nameOf hparams) hexpr)
  | .block items =>
    obtain ⟨hitems, hexprs⟩ := layoutList_reads_back items h
    exact hitems.puts (puts_allocBlock hexprs)
  | .cond clauses =>
    obtain ⟨hclauses, hpairs⟩ := layoutClauses_reads_back clauses h
    exact hclauses.puts (puts_allocCond hpairs)
  | .letIn name init body =>
    obtain ⟨hname, hrest⟩ := List.cons_subset.1 h
    obtain ⟨htexts, htexts'⟩ := List.append_subset.1 hrest
    obtain ⟨hinit, hfirst⟩ := layout_reads_back init htexts
    rw [← hinit.names] at htexts'
    obtain ⟨hbody, hsecond⟩ := layout_reads_back body htexts'
    have hboth := hinit.trans hbody
    rw [← hboth.names] at hname
    exact hboth.puts
      (puts_alloc (.letIn (NameTable.text?_nameOf hname) (hbody.expr? hfirst) hsecond))
  | .assign name value =>
    obtain ⟨hname, htexts⟩ := List.cons_subset.1 h
    obtain ⟨hvalue, hexpr⟩ := layout_reads_back value htexts
    rw [← hvalue.names] at hname
    exact hvalue.puts (puts_alloc (.assign (NameTable.text?_nameOf hname) hexpr))

theorem layoutList_reads_back (exprs : List Expr) {builder : Builder}
    (h : namesOfList exprs ⊆ builder.names.texts) :
    builder.Grows (layoutList exprs builder).2 ∧
      (layoutList exprs builder).1.map (layoutList exprs builder).2.expr? = exprs.map some := by
  match exprs with
  | [] => exact ⟨.refl builder, rfl⟩
  | expr :: rest =>
    obtain ⟨htexts, htexts'⟩ := List.append_subset.1 h
    obtain ⟨hfirst, hexpr⟩ := layout_reads_back expr htexts
    rw [← hfirst.names] at htexts'
    obtain ⟨hrest, hexprs⟩ := layoutList_reads_back rest htexts'
    exact ⟨hfirst.trans hrest, List.cons_eq_cons.2 ⟨hrest.expr? hexpr, hexprs⟩⟩

theorem layoutClauses_reads_back (clauses : List (Expr × Expr)) {builder : Builder}
    (h : namesOfClauses clauses ⊆ builder.names.texts) :
    builder.Grows (layoutClauses clauses builder).2 ∧
      (layoutClauses clauses builder).1.map
        (Code.clausePair? (layoutClauses clauses builder).2.expr?) = clauses.map some := by
  match clauses with
  | [] => exact ⟨.refl builder, rfl⟩
  | (test, consequence) :: rest =>
    obtain ⟨htexts, hothers⟩ := List.append_subset.1 h
    obtain ⟨htexts', htexts''⟩ := List.append_subset.1 hothers
    obtain ⟨hfirst, htest⟩ := layout_reads_back test htexts
    rw [← hfirst.names] at htexts' htexts''
    obtain ⟨hsecond, hconsequence⟩ := layout_reads_back consequence htexts'
    rw [← hsecond.names] at htexts''
    obtain ⟨hrest, hpairs⟩ := layoutClauses_reads_back rest htexts''
    refine ⟨hfirst.trans (hsecond.trans hrest), List.cons_eq_cons.2 ⟨?_, hpairs⟩⟩
    rw [Code.clausePair?_eq_some_iff]
    exact ⟨(hsecond.trans hrest).expr? htest, hrest.expr? hconsequence⟩

end

end Expr

/-! ### Programs -/

theorem Code.readable_empty (names : NameTable) : Code.empty.Readable names := by
  intro id hid
  cases hid

namespace Program

variable {json : Json} {names after : NameTable} {program : Program} {expr : Expr}

theorem ofJson_eq_ok_iff :
    ofJson json names = (.ok program, after) ↔
      ∃ expr, Encodes json expr ∧ names.Suffices expr.names ∧
        after = names.withTexts expr.names ∧ program = ofExpr expr after := by
  constructor
  · intro h
    unfold ofJson at h
    split at h
    · cases h
    · rename_i expr mid hread
      cases h
      obtain ⟨hencodes, hroom, hafter⟩ := Expr.read_eq_ok_iff.1 hread
      exact ⟨expr, hencodes, hroom, hafter, rfl⟩
  · rintro ⟨expr, hencodes, hroom, rfl, rfl⟩
    rw [ofJson, Expr.read_eq_ok_iff.2 ⟨hencodes, hroom, rfl⟩]

theorem ofJson_of_encodes (h : Encodes json expr) (hroom : names.Suffices expr.names) :
    ofJson json names =
      (.ok (ofExpr expr (names.withTexts expr.names)), names.withTexts expr.names) :=
  ofJson_eq_ok_iff.2 ⟨expr, h, hroom, rfl, rfl⟩

theorem exists_encodes_of_ofJson (h : ofJson json names = (.ok program, after)) :
    ∃ expr, Encodes json expr := by
  obtain ⟨expr, hencodes, -⟩ := ofJson_eq_ok_iff.1 h
  exact ⟨expr, hencodes⟩

/-- A decoded program: its root has the tree that was encoded, every node has a tree, and all names
keep their texts. -/
theorem ofJson_reads_back (h : ofJson json names = (.ok program, after))
    (hencodes : Encodes json expr) :
    program.code.expr? after program.root = some expr ∧ program.code.Readable after ∧
      names.KeptBy after := by
  obtain ⟨other, hother, -, rfl, rfl⟩ := ofJson_eq_ok_iff.1 h
  obtain rfl := hencodes.unique hother
  let start : Builder := ⟨names.withTexts expr.names, .empty⟩
  have hnames : expr.names ⊆ start.names.texts := names.subset_texts_withTexts expr.names
  obtain ⟨hgrows, hread⟩ := expr.layout_reads_back hnames
  rw [Builder.expr?, hgrows.names] at hread
  have hreadable := hgrows.readable (Code.readable_empty _)
  rw [hgrows.names] at hreadable
  exact ⟨hread, hreadable, names.keptBy_withTexts expr.names⟩

end Program

end FlatScope
