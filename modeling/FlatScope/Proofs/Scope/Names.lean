import FlatScope.Expr.Basic
import FlatScope.Fault

/-!
# Where names stand in expressions

`Expr.free` lists the names that an expression takes from the frame it is evaluated in, and
`Expr.parts` an expression with every expression inside it.  Both can be computed, and both grow from
the inside to the outside: what is inside a part of an expression is a part of it (`part_trans`).
-/

namespace FlatScope

/-- What an expression can do with a name that it does not bind. -/
inductive Use where
  | reference
  | assignment
deriving DecidableEq

/-- The fault of a use when the current frame does not bind the name. -/
def Use.fault : Use → String → Fault
  | .reference => .unboundIdentifier
  | .assignment => .unassignedVariable

namespace Expr

/-! ### Free names -/

mutual

/-- The names that an expression uses in a given way outside every `let` body that binds them and
every lambda that has them as parameters. -/
def free (use : Use) : Expr → List String
  | .int _ => []
  | .str _ => []
  | .ident name => if use = .reference then [name] else []
  | .apply operator operands => free use operator ++ freeOfList use operands
  | .lambda params body => (free use body).filter (· ∉ params)
  | .block items => freeOfList use items
  | .cond clauses => freeOfClauses use clauses
  | .letIn name init body => free use init ++ (free use body).filter (· ≠ name)
  | .assign name value => (if use = .assignment then [name] else []) ++ free use value
  | .unknown _ => []

def freeOfList (use : Use) : List Expr → List String
  | [] => []
  | item :: rest => free use item ++ freeOfList use rest

def freeOfClauses (use : Use) : List (Expr × Expr) → List String
  | [] => []
  | (test, consequence) :: rest =>
    free use test ++ (free use consequence ++ freeOfClauses use rest)

end

variable {use : Use} {name : String}

theorem free_subset_freeOfList {items : List Expr} {item : Expr} (hitem : item ∈ items)
    (h : name ∈ item.free use) : name ∈ freeOfList use items := by
  induction items with
  | nil => cases hitem
  | cons first rest ih =>
    rw [freeOfList, List.mem_append]
    rcases List.mem_cons.1 hitem with rfl | hrest
    · exact .inl h
    · exact .inr (ih hrest)

theorem free_subset_freeOfClauses {clauses : List (Expr × Expr)} {clause : Expr × Expr}
    (hclause : clause ∈ clauses) (h : name ∈ clause.1.free use ∨ name ∈ clause.2.free use) :
    name ∈ freeOfClauses use clauses := by
  induction clauses with
  | nil => cases hclause
  | cons first rest ih =>
    rw [freeOfClauses, List.mem_append, List.mem_append]
    rcases List.mem_cons.1 hclause with rfl | hrest
    · exact h.imp id .inl
    · exact .inr (.inr (ih hrest))

theorem free_letIn_body {bound : String} {init body : Expr} (h : name ∈ body.free use)
    (hname : name ≠ bound) : name ∈ (letIn bound init body).free use := by
  rw [free, List.mem_append, List.mem_filter]
  exact .inr ⟨h, by simpa using hname⟩

theorem free_lambda {params : List String} {body : Expr} (h : name ∈ body.free use)
    (hname : name ∉ params) : name ∈ (lambda params body).free use := by
  rw [free, List.mem_filter]
  exact ⟨h, by simpa using hname⟩

/-! ### Parts -/

mutual

/-- The expressions inside an expression. -/
def inside : Expr → List Expr
  | .int _ => []
  | .str _ => []
  | .ident _ => []
  | .apply operator operands => operator :: (inside operator ++ insideList operands)
  | .lambda _ body => body :: inside body
  | .block items => insideList items
  | .cond clauses => insideClauses clauses
  | .letIn _ init body => init :: (inside init ++ body :: inside body)
  | .assign _ value => value :: inside value
  | .unknown _ => []

def insideList : List Expr → List Expr
  | [] => []
  | item :: rest => item :: (inside item ++ insideList rest)

def insideClauses : List (Expr × Expr) → List Expr
  | [] => []
  | (test, consequence) :: rest =>
    test :: (inside test ++ consequence :: (inside consequence ++ insideClauses rest))

end

/-- An expression and the expressions inside it. -/
def parts (expr : Expr) : List Expr := expr :: inside expr

theorem mem_insideList_iff {items : List Expr} {part : Expr} :
    part ∈ insideList items ↔ ∃ item ∈ items, part ∈ item.parts := by
  induction items with
  | nil => simp [insideList]
  | cons item rest ih => simp [insideList, parts, ih, or_assoc]

theorem mem_insideClauses_iff {clauses : List (Expr × Expr)} {part : Expr} :
    part ∈ insideClauses clauses ↔
      ∃ clause ∈ clauses, part ∈ clause.1.parts ∨ part ∈ clause.2.parts := by
  induction clauses with
  | nil => simp [insideClauses]
  | cons clause rest ih => simp [insideClauses, parts, ih, or_assoc]

theorem self_mem_parts (expr : Expr) : expr ∈ expr.parts := List.mem_cons_self ..

mutual

theorem inside_trans (whole : Expr) {part inner : Expr} (hpart : part ∈ whole.inside)
    (hinner : inner ∈ part.inside) : inner ∈ whole.inside := by
  match whole with
  | .int _ | .str _ | .ident _ | .unknown _ =>
    rw [inside] at hpart
    cases hpart
  | .apply operator operands =>
    simp only [inside, List.mem_cons, List.mem_append] at hpart ⊢
    rcases hpart with rfl | hpart | hpart
    · exact .inr (.inl hinner)
    · exact .inr (.inl (inside_trans operator hpart hinner))
    · exact .inr (.inr (insideList_trans operands hpart hinner))
  | .lambda params body =>
    simp only [inside, List.mem_cons] at hpart ⊢
    rcases hpart with rfl | hpart
    · exact .inr hinner
    · exact .inr (inside_trans body hpart hinner)
  | .block items =>
    rw [inside] at hpart ⊢
    exact insideList_trans items hpart hinner
  | .cond clauses =>
    rw [inside] at hpart ⊢
    exact insideClauses_trans clauses hpart hinner
  | .letIn name init body =>
    simp only [inside, List.mem_cons, List.mem_append] at hpart ⊢
    rcases hpart with rfl | hpart | rfl | hpart
    · exact .inr (.inl hinner)
    · exact .inr (.inl (inside_trans init hpart hinner))
    · exact .inr (.inr (.inr hinner))
    · exact .inr (.inr (.inr (inside_trans body hpart hinner)))
  | .assign name value =>
    simp only [inside, List.mem_cons] at hpart ⊢
    rcases hpart with rfl | hpart
    · exact .inr hinner
    · exact .inr (inside_trans value hpart hinner)

theorem insideList_trans (items : List Expr) {part inner : Expr} (hpart : part ∈ insideList items)
    (hinner : inner ∈ part.inside) : inner ∈ insideList items := by
  match items with
  | [] => cases hpart
  | item :: rest =>
    simp only [insideList, List.mem_cons, List.mem_append] at hpart ⊢
    rcases hpart with rfl | hpart | hpart
    · exact .inr (.inl hinner)
    · exact .inr (.inl (inside_trans item hpart hinner))
    · exact .inr (.inr (insideList_trans rest hpart hinner))

theorem insideClauses_trans (clauses : List (Expr × Expr)) {part inner : Expr}
    (hpart : part ∈ insideClauses clauses) (hinner : inner ∈ part.inside) :
    inner ∈ insideClauses clauses := by
  match clauses with
  | [] => cases hpart
  | (test, consequence) :: rest =>
    simp only [insideClauses, List.mem_cons, List.mem_append] at hpart ⊢
    rcases hpart with rfl | hpart | rfl | hpart | hpart
    · exact .inr (.inl hinner)
    · exact .inr (.inl (inside_trans test hpart hinner))
    · exact .inr (.inr (.inr (.inl hinner)))
    · exact .inr (.inr (.inr (.inl (inside_trans consequence hpart hinner))))
    · exact .inr (.inr (.inr (.inr (insideClauses_trans rest hpart hinner))))

end

theorem part_trans {whole part inner : Expr} (hpart : part ∈ whole.parts)
    (hinner : inner ∈ part.inside) : inner ∈ whole.parts := by
  rcases List.mem_cons.1 hpart with rfl | hpart
  · exact List.mem_cons_of_mem _ hinner
  · exact List.mem_cons_of_mem _ (inside_trans whole hpart hinner)

/-! ### What is evaluated in the same frame -/

/-- The expressions right below an expression that are evaluated in the frame in which it is. -/
def direct : Expr → List Expr
  | .apply operator operands => operator :: operands
  | .block items => items
  | .cond clauses => clauses.flatMap fun clause => [clause.1, clause.2]
  | .letIn _ init _ => [init]
  | .assign _ value => [value]
  | _ => []

theorem mem_direct_cond_iff {clauses : List (Expr × Expr)} {part : Expr} :
    part ∈ (cond clauses).direct ↔ ∃ clause ∈ clauses, part = clause.1 ∨ part = clause.2 := by
  simp [direct]

theorem inside_of_direct {whole part : Expr} (h : part ∈ whole.direct) : part ∈ whole.inside := by
  cases whole with
  | int | str | ident | lambda | unknown => cases h
  | apply operator operands =>
    simp only [inside, List.mem_cons, List.mem_append, mem_insideList_iff]
    rcases List.mem_cons.1 h with rfl | hoperand
    · exact .inl rfl
    · exact .inr (.inr ⟨part, hoperand, self_mem_parts part⟩)
  | block items =>
    rw [inside, mem_insideList_iff]
    exact ⟨part, h, self_mem_parts part⟩
  | cond clauses =>
    rw [inside, mem_insideClauses_iff]
    obtain ⟨clause, hclause, rfl | rfl⟩ := mem_direct_cond_iff.1 h
    · exact ⟨clause, hclause, .inl (self_mem_parts _)⟩
    · exact ⟨clause, hclause, .inr (self_mem_parts _)⟩
  | letIn name init body =>
    rw [List.mem_singleton.1 h, inside]
    exact List.mem_cons_self ..
  | assign name value =>
    rw [List.mem_singleton.1 h, inside]
    exact List.mem_cons_self ..

/-- What is free in an expression is free around it, up to the next form that makes a frame. -/
theorem free_of_direct {whole part : Expr} (h : part ∈ whole.direct)
    (hname : name ∈ part.free use) : name ∈ whole.free use := by
  cases whole with
  | int | str | ident | lambda | unknown => cases h
  | apply operator operands =>
    rw [free, List.mem_append]
    rcases List.mem_cons.1 h with rfl | hoperand
    · exact .inl hname
    · exact .inr (free_subset_freeOfList hoperand hname)
  | block items =>
    rw [free]
    exact free_subset_freeOfList h hname
  | cond clauses =>
    rw [free]
    obtain ⟨clause, hclause, rfl | rfl⟩ := mem_direct_cond_iff.1 h
    · exact free_subset_freeOfClauses hclause (.inl hname)
    · exact free_subset_freeOfClauses hclause (.inr hname)
  | letIn bound init body =>
    rw [List.mem_singleton.1 h] at hname
    rw [free, List.mem_append]
    exact .inl hname
  | assign target value =>
    rw [List.mem_singleton.1 h] at hname
    rw [free, List.mem_append]
    exact .inr hname

/-! ### Names that stand in an expression itself -/

/-- The name that an expression refers to or assigns to, the expressions inside it aside. -/
def uses : Expr → List String
  | .ident name => [name]
  | .assign name _ => [name]
  | _ => []

/-- The names to which an expression gives values, the expressions inside it aside. -/
def sets : Expr → List String
  | .lambda params _ => params
  | .letIn name _ _ => [name]
  | .assign name _ => [name]
  | _ => []

/-- The names to which a program refers or assigns. -/
def mentions (expr : Expr) : List String := expr.parts.flatMap uses

theorem mem_mentions {expr part : Expr} (hpart : part ∈ expr.parts) (hname : name ∈ part.uses) :
    name ∈ expr.mentions :=
  List.mem_flatMap.2 ⟨part, hpart, hname⟩

def isLambda : Expr → Bool
  | .lambda _ _ => true
  | _ => false

/-- What is free in a lambda of the program gets a value nowhere in the program. -/
def SelfContained (expr : Expr) : Prop :=
  ∀ part ∈ expr.parts, part.isLambda = true →
    ∀ name ∈ part.free .reference ++ part.free .assignment, ∀ other ∈ expr.parts, name ∉ other.sets

instance (expr : Expr) : Decidable expr.SelfContained :=
  inferInstanceAs (Decidable (∀ part ∈ expr.parts, part.isLambda = true →
    ∀ name ∈ part.free .reference ++ part.free .assignment, ∀ other ∈ expr.parts,
      name ∉ other.sets))

example : (apply (lambda ["x"] (apply (ident "add") [ident "x", int 1])) [int 2]).SelfContained := by
  decide

example : ¬ (letIn "y" (int 1) (lambda ["x"] (ident "y"))).SelfContained := by decide

end Expr

end FlatScope
