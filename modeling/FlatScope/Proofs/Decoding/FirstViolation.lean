import FlatScope.Proofs.Decoding.Faithful
import FlatScope.Proofs.Names.History

/-!
# The first violation in document order

`Json.walk` lists what stands at the checked positions of a JSON value, from left to right and from
the outside to the inside: texts, which get names, and violations of shapes.  The walk goes on after
a violation, so it lists all of them.  Reading stops at the first violation of the walk, and names
the texts before it (`Reading.Follows`, `follows_read`).
-/

namespace FlatScope

/-! ### The walk over a document -/

/-- What stands at a checked position. -/
inductive Mark where
  /-- A text: an identifier, a string literal or the tag of an unknown form. -/
  | text (text : String)
  /-- A shape that is violated. -/
  | violation (error : ShapeError)

namespace Mark

def text? : Mark → Option String
  | text found => some found
  | violation _ => none

def violation? : Mark → Option ShapeError
  | text _ => none
  | violation error => some error

/-- The violation that comes first. -/
def firstViolation? (marks : List Mark) : Option ShapeError := marks.findSome? violation?

/-- The texts that come before the first violation. -/
def visited (marks : List Mark) : List String :=
  (marks.takeWhile fun mark => mark.violation?.isNone).filterMap text?

end Mark

namespace Json

/-- An identifier in a binding position of a form. -/
def walkBinder (form : Form) : Json → List Mark
  | .object [("Identifier", .string name)] => [.text name]
  | _ => [.violation (.identifier form)]

def walkParams : Json → List Mark
  | .object [("Parameters", .array items)] => items.flatMap (walkBinder .parameters)
  | _ => [.violation (.wrapper .lambda .parameters)]

mutual

/-- What stands at the checked positions of a JSON value.  The payload of an unknown key and the
elements of a plain array are not checked. -/
def walk : Json → List Mark
  | .null => [.text "null"]
  | .bool _ => [.text "bool"]
  | .number value => if value.literal?.isSome then [] else [.text "number"]
  | .string text => [.text text]
  | .array _ => [.text "array"]
  | .object [(key, payload)] =>
    match key, payload with
    | "Identifier", .string name => [.text name]
    | "Identifier", _ => [.violation (.identifier .identifier)]
    | "Application", .array [] => [.violation (.count .application (.atLeast 1) 0)]
    | "Application", .array items => walkList items
    | "Application", _ => [.violation (.payload .application)]
    | "Lambda", .array [params, body] => walkParams params ++ walk body
    | "Lambda", .array items => [.violation (.count .lambda (.exactly 2) items.length)]
    | "Lambda", _ => [.violation (.payload .lambda)]
    | "Block", .array items => walkList items
    | "Block", _ => [.violation (.payload .block)]
    | "Cond", .array items => walkClauses items
    | "Cond", _ => [.violation (.payload .cond)]
    | "Let", .array [name, init, body] => walkBinder .letIn name ++ (walk init ++ walk body)
    | "Let", .array items => [.violation (.count .letIn (.exactly 3) items.length)]
    | "Let", _ => [.violation (.payload .letIn)]
    | "Assignment", .array [name, value] => walkBinder .assignment name ++ walk value
    | "Assignment", .array items => [.violation (.count .assignment (.exactly 2) items.length)]
    | "Assignment", _ => [.violation (.payload .assignment)]
    | other, _ => [.text other]
  | .object fields => [.violation (.keys fields.length)]

def walkList : List Json → List Mark
  | [] => []
  | item :: rest => walk item ++ walkList rest

def walkClauses : List Json → List Mark
  | [] => []
  | .object [("Clause", .array [test, consequence])] :: rest =>
    walk test ++ (walk consequence ++ walkClauses rest)
  | .object [("Clause", .array items)] :: rest =>
    .violation (.count .clause (.exactly 2) items.length) :: walkClauses rest
  | _ :: rest => .violation (.wrapper .cond .clause) :: walkClauses rest

end

theorem walk_of_not_mem {key : String} (payload : Json) (h : key ∉ formKeys) :
    walk (.object [(key, payload)]) = [.text key] := by
  unfold walk
  split
  case h_19 => rfl
  -- Every case before the last is about a key of a form.
  all_goals exact absurd (by decide) h

end Json

/-! ### Readings that follow a walk -/

namespace Mark

theorem visited_text_cons (found : String) (rest : List Mark) :
    visited (.text found :: rest) = found :: visited rest := rfl

theorem visited_violation_cons (error : ShapeError) (rest : List Mark) :
    visited (.violation error :: rest) = [] := rfl

theorem firstViolation?_append (first second : List Mark) :
    firstViolation? (first ++ second) = (firstViolation? first).or (firstViolation? second) :=
  List.findSome?_append ..

theorem visited_append_of_none {first : List Mark} (h : firstViolation? first = none)
    (second : List Mark) : visited (first ++ second) = visited first ++ visited second := by
  induction first with
  | nil => rfl
  | cons mark rest ih =>
    cases mark with
    | text found =>
      rw [List.cons_append, visited_text_cons, visited_text_cons, ih h, List.cons_append]
    | violation error => cases h

theorem visited_append_of_some {first : List Mark} {error : ShapeError}
    (h : firstViolation? first = some error) (second : List Mark) :
    visited (first ++ second) = visited first := by
  induction first with
  | nil => cases h
  | cons mark rest ih =>
    cases mark with
    | text found => rw [List.cons_append, visited_text_cons, visited_text_cons, ih h]
    | violation error => rw [List.cons_append, visited_violation_cons, visited_violation_cons]

end Mark

namespace Reading

variable {α β : Type}

/-- A reading names the texts of a walk up to the first violation, and stops there or at the first
text for which there is no room. -/
def Follows (reading : Reading α) (marks : List Mark) : Prop :=
  ∀ names : NameTable,
    match names.nameAll (Mark.visited marks), Mark.firstViolation? marks with
    | (some full, after), _ => reading.run names = (.error (.full full), after)
    | (none, after), some error => reading.run names = (.error (.shape error), after)
    | (none, after), none => ∃ value, reading.run names = (.ok value, after)

theorem follows_pure (value : α) : (pure value : Reading α).Follows [] :=
  fun _ => ⟨value, rfl⟩

theorem follows_visit (text : String) : (visit text).Follows [.text text] := by
  intro names
  have hrun := run_visit text names
  have hvisited : Mark.visited [.text text] = [text] := rfl
  rw [hvisited]
  cases hnames : names.nameAll [text] with
  | mk full after =>
    rw [hnames] at hrun
    cases full with
    | some full => exact hrun
    | none => exact ⟨text, hrun⟩

theorem follows_fail (error : ShapeError) (rest : List Mark) :
    (fail error : Reading α).Follows (.violation error :: rest) :=
  fun _ => rfl

theorem Follows.bind {first : Reading α} {next : α → Reading β} {marks more : List Mark}
    (hfirst : first.Follows marks) (hnext : ∀ value, (next value).Follows more) :
    (first >>= next).Follows (marks ++ more) := by
  intro names
  have hrun := hfirst names
  cases hviolation : Mark.firstViolation? marks with
  | some error =>
    rw [Mark.visited_append_of_some hviolation, Mark.firstViolation?_append, hviolation]
    rw [hviolation] at hrun
    cases hnames : names.nameAll (Mark.visited marks) with
    | mk full mid =>
      rw [hnames] at hrun
      cases full <;> exact (run_bind ..).trans (by rw [hrun])
  | none =>
    rw [Mark.visited_append_of_none hviolation, Mark.firstViolation?_append, hviolation,
      NameTable.nameAll_append]
    rw [hviolation] at hrun
    cases hnames : names.nameAll (Mark.visited marks) with
    | mk full mid =>
      rw [hnames] at hrun
      cases full with
      | some full => exact (run_bind ..).trans (by rw [hrun])
      | none =>
        obtain ⟨value, hvalue⟩ := hrun
        rw [run_bind_of_ok hvalue]
        exact hnext value mid

/-- What is done with the result of a reading does not matter. -/
theorem Follows.map {first : Reading α} {marks : List Mark} (h : first.Follows marks)
    (f : α → β) : (do return f (← first)).Follows marks := by
  have hbind := h.bind fun value => follows_pure (f value)
  rwa [List.append_nil] at hbind

end Reading

namespace Expr

open Reading

theorem readBinder_of_ne {json : Json} (form : Form) (h : ∀ name, json ≠ .identifier name) :
    readBinder form json = fail (.identifier form) := by
  unfold readBinder
  split
  · rename_i key payload
    split
    · rename_i hkey
      subst hkey
      cases payload with
      | string name => exact absurd rfl (h name)
      | _ => rfl
    · rfl
  · rfl

theorem follows_readBinder (form : Form) (json : Json) :
    (readBinder form json).Follows (json.walkBinder form) := by
  unfold Json.walkBinder
  split
  · exact follows_visit _
  · rename_i hother
    rw [readBinder_of_ne form hother]
    exact follows_fail _ _

theorem follows_readBinders (form : Form) (items : List Json) :
    (readBinders form items).Follows (items.flatMap (Json.walkBinder form)) := by
  induction items with
  | nil => exact follows_pure []
  | cons item rest ih =>
    exact (follows_readBinder form item).bind fun name => ih.map (name :: ·)

theorem readParams_of_ne {json : Json}
    (h : ∀ items, json ≠ .object [("Parameters", .array items)]) :
    readParams json = fail (.wrapper .lambda .parameters) := by
  unfold readParams
  split
  · rename_i key items
    split
    · rename_i hkey
      subst hkey
      exact absurd rfl (h items)
    · rfl
  · rfl

theorem follows_readParams (json : Json) : (readParams json).Follows json.walkParams := by
  unfold Json.walkParams
  split
  · exact follows_readBinders .parameters _
  · rename_i hother
    rw [readParams_of_ne hother]
    exact follows_fail _ _

theorem readClauses_of_ne {json : Json} (rest : List Json)
    (h : ∀ items, json ≠ .object [("Clause", .array items)]) :
    readClauses (json :: rest) = fail (.wrapper .cond .clause) := by
  unfold readClauses
  split
  · rename_i hnil
    cases hnil
  · rename_i key items rest' heq
    cases heq
    split
    · rename_i hkey
      subst hkey
      exact absurd rfl (h items)
    · rfl
  · rfl

theorem readClauses_of_count {items : List Json} (rest : List Json)
    (h : ∀ test consequence, items ≠ [test, consequence]) :
    readClauses (.object [("Clause", .array items)] :: rest) =
      fail (.count .clause (.exactly 2) items.length) := by
  match items with
  | [test, consequence] => exact absurd rfl (h test consequence)
  | [] | [_] | _ :: _ :: _ :: _ => rfl

mutual

/-- Reading an expression stops at the first violation of its walk. -/
theorem follows_read (json : Json) : (read json).Follows json.walk := by
  match json with
  | .null | .bool _ | .array _ => exact (follows_visit _).map unknown
  | .string text => exact (follows_visit text).map str
  | .number number =>
    change Reading.Follows (match number.literal? with
      | some literal => pure (int literal)
      | none => do return unknown (← visit "number"))
      (if number.literal?.isSome then [] else [.text "number"])
    cases number.literal? with
    | some literal => exact follows_pure (int literal)
    | none => exact (follows_visit "number").map unknown
  | .object [] | .object (_ :: _ :: _) => exact follows_fail _ _
  | .object [(key, payload)] =>
    cases hform : Form.ofKey? key with
    | none =>
      rw [Json.walk_of_not_mem payload (Form.ofKey?_eq_none_iff.1 hform)]
      simp only [read, hform]
      exact (follows_visit key).map unknown
    | some form =>
      obtain ⟨rfl, hmem⟩ := Form.key_of_ofKey? hform
      cases form with
      | parameters | clause => simp [Form.expressions] at hmem
      | identifier =>
        cases payload with
        | string name => exact (follows_visit name).map ident
        | _ => exact (follows_fail _ _).map ident
      | application =>
        match payload with
        | .array [] => exact follows_fail _ _
        | .array (first :: rest) =>
          exact (follows_read first).bind fun operator =>
            (follows_readList rest).map (apply operator)
        | .null | .bool _ | .number _ | .string _ | .object _ => exact follows_fail _ _
      | lambda =>
        match payload with
        | .array [params, body] =>
          exact (follows_readParams params).bind fun params => (follows_read body).map (lambda params)
        | .array [] | .array [_] | .array (_ :: _ :: _ :: _) => exact follows_fail _ _
        | .null | .bool _ | .number _ | .string _ | .object _ => exact follows_fail _ _
      | block =>
        match payload with
        | .array items => exact (follows_readList items).map block
        | .null | .bool _ | .number _ | .string _ | .object _ => exact follows_fail _ _
      | cond =>
        match payload with
        | .array items => exact (follows_readClauses items).map cond
        | .null | .bool _ | .number _ | .string _ | .object _ => exact follows_fail _ _
      | letIn =>
        match payload with
        | .array [binder, first, second] =>
          exact (follows_readBinder .letIn binder).bind fun name =>
            (follows_read first).bind fun init => (follows_read second).map (letIn name init)
        | .array [] | .array [_] | .array [_, _] | .array (_ :: _ :: _ :: _ :: _) =>
          exact follows_fail _ _
        | .null | .bool _ | .number _ | .string _ | .object _ => exact follows_fail _ _
      | assignment =>
        match payload with
        | .array [binder, second] =>
          exact (follows_readBinder .assignment binder).bind fun name =>
            (follows_read second).map (assign name)
        | .array [] | .array [_] | .array (_ :: _ :: _ :: _) => exact follows_fail _ _
        | .null | .bool _ | .number _ | .string _ | .object _ => exact follows_fail _ _

theorem follows_readList (items : List Json) : (readList items).Follows (Json.walkList items) := by
  match items with
  | [] => exact follows_pure []
  | item :: rest => exact (follows_read item).bind fun expr => (follows_readList rest).map (expr :: ·)

theorem follows_readClauses (items : List Json) :
    (readClauses items).Follows (Json.walkClauses items) := by
  unfold Json.walkClauses
  split
  · exact follows_pure []
  · rename_i test consequence rest
    exact (follows_read test).bind fun test => (follows_read consequence).bind fun consequence =>
      (follows_readClauses rest).map ((test, consequence) :: ·)
  · rename_i items rest hcount
    rw [readClauses_of_count rest fun test consequence heq => hcount test consequence heq]
    exact follows_fail _ _
  · rename_i json rest _ hother
    rw [readClauses_of_ne rest hother]
    exact follows_fail _ _

end

end Expr

/-! ### Decoding -/

namespace Program

variable {json : Json} {names after : NameTable}

end Program

end FlatScope
