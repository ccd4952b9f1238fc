import FlatScope.Expr.Reading
import FlatScope.Proofs.Names.Capacity

/-!
# The grammar of encoded expressions

`Encodes` says by rules which JSON values encode expressions, and which expression each of them
encodes.  While there is room for the texts of the expression, `Expr.read` accepts exactly these values
(`read_eq_ok_iff`), gives exactly these expressions, and names the texts from left to right.
-/

namespace FlatScope

/-! ### Rules -/

/-- The JSON value that encodes an identifier. -/
def Json.identifier (name : String) : Json := .object [("Identifier", .string name)]

/-- The keys that mark expressions with a shape of their own. -/
def formKeys : List String :=
  ["Identifier", "Application", "Lambda", "Block", "Cond", "Let", "Assignment"]

/-- A number stands for an integer literal; a whole number beyond the literals stands for the
nearest one. -/
inductive Number.Whole : Number → Int → Prop where
  | exact (value : Int) : Whole (.exact value) value
  | positive {magnitude : Nat} (h : Json.Binary64.one ∣ magnitude) :
      Whole (.real false magnitude) (min maxLiteral (magnitude / Json.Binary64.one : Nat))
  | negative {magnitude : Nat} (h : Json.Binary64.one ∣ magnitude) :
      Whole (.real true magnitude) (max minLiteral (-(magnitude / Json.Binary64.one : Nat)))

mutual

/-- A JSON value encodes an expression. -/
inductive Encodes : Json → Expr → Prop where
  | null : Encodes .null (.unknown "null")
  | bool (value : Bool) : Encodes (.bool value) (.unknown "bool")
  | array (items : List Json) : Encodes (.array items) (.unknown "array")
  | whole {number : Number} {literal : Int} (h : number.Whole literal) :
      Encodes (.number number) (.int literal)
  | broken {number : Number} (h : ∀ literal, ¬ number.Whole literal) :
      Encodes (.number number) (.unknown "number")
  | string (text : String) : Encodes (.string text) (.str text)
  | identifier (name : String) : Encodes (.object [("Identifier", .string name)]) (.ident name)
  | application {first : Json} {rest : List Json} {operator : Expr} {operands : List Expr}
      (hfirst : Encodes first operator) (hrest : EncodesList rest operands) :
      Encodes (.object [("Application", .array (first :: rest))]) (.apply operator operands)
  | lambda (params : List String) {body : Json} {expr : Expr} (hbody : Encodes body expr) :
      Encodes (.object [("Lambda",
        .array [.object [("Parameters", .array (params.map Json.identifier))], body])])
        (.lambda params expr)
  | block {items : List Json} {exprs : List Expr} (hitems : EncodesList items exprs) :
      Encodes (.object [("Block", .array items)]) (.block exprs)
  | cond {items : List Json} {clauses : List (Expr × Expr)} (hitems : EncodesClauses items clauses) :
      Encodes (.object [("Cond", .array items)]) (.cond clauses)
  | letIn (name : String) {first second : Json} {init body : Expr} (hinit : Encodes first init)
      (hbody : Encodes second body) :
      Encodes (.object [("Let", .array [.identifier name, first, second])]) (.letIn name init body)
  | assignment (name : String) {second : Json} {value : Expr} (hvalue : Encodes second value) :
      Encodes (.object [("Assignment", .array [.identifier name, second])]) (.assign name value)
  /-- Any other key is kept, and its payload is not looked at. -/
  | other {key : String} (payload : Json) (h : key ∉ formKeys) :
      Encodes (.object [(key, payload)]) (.unknown key)

inductive EncodesList : List Json → List Expr → Prop where
  | nil : EncodesList [] []
  | cons {item : Json} {rest : List Json} {expr : Expr} {exprs : List Expr}
      (hitem : Encodes item expr) (hrest : EncodesList rest exprs) :
      EncodesList (item :: rest) (expr :: exprs)

inductive EncodesClauses : List Json → List (Expr × Expr) → Prop where
  | nil : EncodesClauses [] []
  | cons {first second : Json} {rest : List Json} {test consequence : Expr}
      {clauses : List (Expr × Expr)} (htest : Encodes first test)
      (hconsequence : Encodes second consequence) (hrest : EncodesClauses rest clauses) :
      EncodesClauses (.object [("Clause", .array [first, second])] :: rest)
        ((test, consequence) :: clauses)

end

/-! ### Numbers -/

theorem Number.literal?_eq_some_iff {number : Number} {literal : Int} :
    number.literal? = some literal ↔ number.Whole literal := by
  constructor
  · intro h
    cases number with
    | exact value =>
      obtain rfl := Option.some.inj h
      exact .exact value
    | real sign magnitude =>
      by_cases hdvd : Json.Binary64.one ∣ magnitude
      · simp only [literal?, Json.Binary64.whole?, Nat.mod_eq_zero_of_dvd hdvd, if_true] at h
        obtain rfl := Option.some.inj h
        cases sign with
        | false => exact .positive hdvd
        | true => exact .negative hdvd
      · have hmod : magnitude % Json.Binary64.one ≠ 0 := mt Nat.dvd_of_mod_eq_zero hdvd
        simp only [literal?, Json.Binary64.whole?, hmod, if_false] at h
        cases h
  · intro h
    cases h with
    | exact => rfl
    | positive hdvd | negative hdvd =>
      simp only [literal?, Json.Binary64.whole?, Nat.mod_eq_zero_of_dvd hdvd, if_true]
      rfl

theorem Number.literal?_eq_none_iff {number : Number} :
    number.literal? = none ↔ ∀ literal, ¬ number.Whole literal := by
  simp only [Option.eq_none_iff_forall_ne_some, ne_eq, literal?_eq_some_iff]

/-! ### Keys -/

theorem Form.key_of_ofKey? {key : String} {form : Form} (h : Form.ofKey? key = some form) :
    form.key = key ∧ form ∈ Form.expressions := by
  have hkey := List.find?_some h
  exact ⟨by simpa using hkey, List.mem_of_find?_eq_some h⟩

theorem Form.ofKey?_eq_none_iff {key : String} : Form.ofKey? key = none ↔ key ∉ formKeys := by
  have hkeys : formKeys = Form.expressions.map Form.key := rfl
  rw [Form.ofKey?, List.find?_eq_none, hkeys, List.mem_map]
  constructor
  · rintro h ⟨form, hform, rfl⟩
    exact h form hform (by simp)
  · intro h form hform hkey
    exact h ⟨form, hform, by simpa using hkey⟩

/-! ### Readings that succeed -/

namespace Reading

variable {α β : Type}

theorem run_bind (first : Reading α) (next : α → Reading β) (names : NameTable) :
    (first >>= next).run names =
      (match first.run names with
      | (.error stop, mid) => (.error stop, mid)
      | (.ok value, mid) => (next value).run mid : Except Stop β × NameTable) := rfl

theorem run_bind_of_ok {first : Reading α} {next : α → Reading β} {names mid : NameTable}
    {value : α} (h : first.run names = (.ok value, mid)) :
    (first >>= next).run names = (next value).run mid := by
  rw [run_bind, h]

theorem run_bind_eq_ok_iff {first : Reading α} {next : α → Reading β} {names after : NameTable}
    {result : β} :
    (first >>= next).run names = (.ok result, after) ↔
      ∃ value mid, first.run names = (.ok value, mid) ∧ (next value).run mid = (.ok result, after) := by
  constructor
  · intro h
    cases hfirst : first.run names with
    | mk found mid =>
      cases found with
      | ok value => exact ⟨value, mid, rfl, (run_bind_of_ok hfirst).symm.trans h⟩
      | error stop =>
        rw [run_bind, hfirst] at h
        cases h
  · rintro ⟨value, mid, hfirst, hnext⟩
    rw [run_bind_of_ok hfirst, hnext]

theorem run_visit (text : String) (names : NameTable) :
    (visit text).run names =
      (match names.nameAll [text] with
      | (none, after) => (.ok text, after)
      | (some full, after) => (.error (.full full), after) : Except Stop String × NameTable) := by
  simp only [visit, NameTable.nameAll]
  cases names.tryIntern text <;> rfl

theorem eq_of_run_visit {text value : String} {names after : NameTable}
    (h : (visit text).run names = (.ok value, after)) : value = text := by
  rw [run_visit] at h
  split at h
  · cases h
    rfl
  · cases h

theorem eq_of_run_map_visit {text : String} {f : String → α} {value : α} {names after : NameTable}
    (h : (do return f (← visit text) : Reading α).run names = (.ok value, after)) :
    value = f text := by
  obtain ⟨found, mid, hvisit, hdone⟩ := run_bind_eq_ok_iff.1 h
  cases hdone
  rw [eq_of_run_visit hvisit]

/-- A reading meets texts from left to right, and gives a value if there is room for them. -/
def Gives (reading : Reading α) (value : α) (texts : List String) : Prop :=
  ∀ names, reading.run names =
    match names.nameAll texts with
    | (none, after) => (.ok value, after)
    | (some full, after) => (.error (.full full), after)

theorem gives_pure (value : α) : (pure value : Reading α).Gives value [] := fun _ => rfl

theorem gives_visit (text : String) : (visit text).Gives text [text] := run_visit text

theorem Gives.bind {first : Reading α} {next : α → Reading β} {value : α} {result : β}
    {texts more : List String} (hfirst : first.Gives value texts)
    (hnext : (next value).Gives result more) :
    (first >>= next).Gives result (texts ++ more) := by
  intro names
  rw [run_bind, hfirst names, NameTable.nameAll_append]
  cases hnames : names.nameAll texts with
  | mk full mid =>
    cases full with
    | some full => rfl
    | none => exact hnext mid

theorem Gives.map {first : Reading α} {value : α} {texts : List String}
    (h : first.Gives value texts) (f : α → β) :
    (do return f (← first) : Reading β).Gives (f value) texts := by
  have hbind : (do return f (← first) : Reading β).Gives (f value) (texts ++ []) :=
    h.bind (gives_pure (f value))
  rwa [List.append_nil] at hbind

/-- While there is room for the texts, a reading that meets them gives its value. -/
theorem Gives.run_eq_ok_iff {reading : Reading α} {value result : α} {texts : List String}
    {names after : NameTable} (h : reading.Gives value texts) :
    reading.run names = (.ok result, after) ↔
      result = value ∧ names.Suffices texts ∧ after = names.withTexts texts := by
  rw [h names]
  by_cases hroom : names.Suffices texts
  · rw [NameTable.nameAll_of_suffices hroom]
    simp [hroom, eq_comm]
  · obtain ⟨last, hlast, -⟩ := NameTable.nameAll_of_not_suffices hroom
    rw [hlast]
    simp [hroom]

end Reading

namespace Expr

open Reading

theorem readBinder_identifier (form : Form) (name : String) :
    readBinder form (.identifier name) = visit name := by
  simp [readBinder, Json.identifier, Form.key, readName]

theorem gives_readBinders_map (form : Form) (params : List String) :
    (readBinders form (params.map Json.identifier)).Gives params params := by
  induction params with
  | nil => exact gives_pure []
  | cons param rest ih =>
    rw [List.map_cons, readBinders, readBinder_identifier]
    exact (gives_visit param).bind (ih.map (param :: ·))

mutual

/-- What the grammar encodes is read while there is room for its texts, from left to right. -/
theorem gives_read_of_encodes {json : Json} {expr : Expr} (h : Encodes json expr) :
    (read json).Gives expr expr.names := by
  cases h with
  | null | bool | array => exact (gives_visit _).map unknown
  | string text => exact (gives_visit text).map str
  | identifier name => exact (gives_visit name).map ident
  | @whole number literal h =>
    simp only [read, Number.literal?_eq_some_iff.2 h]
    exact gives_pure (int literal)
  | broken h =>
    simp only [read, Number.literal?_eq_none_iff.2 h]
    exact (gives_visit "number").map unknown
  -- From here on each form reads its parts one after another.
  | @application _ _ operator operands hfirst hrest =>
    exact (gives_read_of_encodes hfirst).bind
      ((gives_readList_of_encodes hrest).map (apply operator))
  | lambda params hbody =>
    exact (gives_readBinders_map .parameters params).bind
      ((gives_read_of_encodes hbody).map (lambda params))
  | block hitems => exact (gives_readList_of_encodes hitems).map block
  | cond hitems => exact (gives_readClauses_of_encodes hitems).map cond
  | @letIn name _ _ init body hinit hbody =>
    exact (gives_visit name).bind ((gives_read_of_encodes hinit).bind
      ((gives_read_of_encodes hbody).map (letIn name init)))
  | assignment name hvalue =>
    exact (gives_visit name).bind ((gives_read_of_encodes hvalue).map (assign name))
  | @other key payload h =>
    simp only [read, Form.ofKey?_eq_none_iff.2 h]
    exact (gives_visit key).map unknown

theorem gives_readList_of_encodes {items : List Json} {exprs : List Expr}
    (h : EncodesList items exprs) : (readList items).Gives exprs (namesOfList exprs) := by
  cases h with
  | nil => exact gives_pure []
  | @cons _ _ expr _ hitem hrest =>
    exact (gives_read_of_encodes hitem).bind ((gives_readList_of_encodes hrest).map (expr :: ·))

theorem gives_readClauses_of_encodes {items : List Json} {clauses : List (Expr × Expr)}
    (h : EncodesClauses items clauses) :
    (readClauses items).Gives clauses (namesOfClauses clauses) := by
  cases h with
  | nil => exact gives_pure []
  | @cons _ _ _ test consequence _ htest hconsequence hrest =>
    exact (gives_read_of_encodes htest).bind ((gives_read_of_encodes hconsequence).bind
      ((gives_readClauses_of_encodes hrest).map ((test, consequence) :: ·)))

end

theorem eq_identifier_of_run_readBinder {form : Form} {json : Json} {names after : NameTable}
    {name : String} (h : (readBinder form json).run names = (.ok name, after)) :
    json = .identifier name := by
  unfold readBinder at h
  split at h
  · rename_i key payload
    split at h
    · rename_i hkey
      subst hkey
      cases payload with
      | string text =>
        rw [eq_of_run_visit h]
        rfl
      | _ => cases h
    · cases h
  · cases h

theorem eq_map_of_run_readBinders {form : Form} {items : List Json} {names after : NameTable}
    {params : List String} (h : (readBinders form items).run names = (.ok params, after)) :
    items = params.map Json.identifier := by
  induction items generalizing names params with
  | nil =>
    cases h
    rfl
  | cons item rest ih =>
    obtain ⟨name, mid, hitem, hrest⟩ := run_bind_eq_ok_iff.1 h
    obtain ⟨others, last, hothers, hdone⟩ := run_bind_eq_ok_iff.1 hrest
    cases hdone
    rw [eq_identifier_of_run_readBinder hitem, ih hothers]
    rfl

theorem eq_of_run_readParams {json : Json} {names after : NameTable} {params : List String}
    (h : (readParams json).run names = (.ok params, after)) :
    json = .object [("Parameters", .array (params.map Json.identifier))] := by
  unfold readParams at h
  split at h
  · rename_i key items
    split at h
    · rename_i hkey
      rw [hkey, eq_map_of_run_readBinders h]
      rfl
    · cases h
  · cases h

mutual

theorem encodes_of_run_read (json : Json) {names after : NameTable} {expr : Expr}
    (h : (read json).run names = (.ok expr, after)) : Encodes json expr := by
  match json with
  | .null =>
    rw [eq_of_run_map_visit h]
    exact .null
  | .bool value =>
    rw [eq_of_run_map_visit h]
    exact .bool value
  | .array items =>
    rw [eq_of_run_map_visit h]
    exact .array items
  | .string text =>
    rw [eq_of_run_map_visit h]
    exact .string text
  | .number number =>
    simp only [read] at h
    cases hliteral : number.literal? with
    | some literal =>
      rw [hliteral] at h
      cases h
      exact .whole (Number.literal?_eq_some_iff.1 hliteral)
    | none =>
      rw [hliteral] at h
      rw [eq_of_run_map_visit h]
      exact .broken (Number.literal?_eq_none_iff.1 hliteral)
  | .object [] => cases h
  | .object (_ :: _ :: _) => cases h
  | .object [(key, payload)] =>
    cases hform : Form.ofKey? key with
    | none =>
      simp only [read, hform] at h
      rw [eq_of_run_map_visit h]
      exact .other payload (Form.ofKey?_eq_none_iff.1 hform)
    | some form =>
      obtain ⟨rfl, hmem⟩ := Form.key_of_ofKey? hform
      -- A payload of the wrong shape is refused at once, so what is left has the shape of its rule.
      cases form with
      | parameters | clause => simp [Form.expressions] at hmem
      | identifier =>
        cases payload with
        | string name =>
          rw [eq_of_run_map_visit h]
          exact .identifier name
        | _ => cases h
      | application =>
        match payload with
        | .array [] => cases h
        | .array (first :: rest) =>
          simp only [read, hform] at h
          obtain ⟨operator, mid, hfirst, hnext⟩ := run_bind_eq_ok_iff.1 h
          obtain ⟨operands, last, hrest, hdone⟩ := run_bind_eq_ok_iff.1 hnext
          cases hdone
          exact .application (encodes_of_run_read first hfirst)
            (encodesList_of_run_readList rest hrest)
        | .null | .bool _ | .number _ | .string _ | .object _ => cases h
      | lambda =>
        match payload with
        | .array [params, body] =>
          simp only [read, hform] at h
          obtain ⟨names', mid, hparams, hnext⟩ := run_bind_eq_ok_iff.1 h
          obtain ⟨expr, last, hbody, hdone⟩ := run_bind_eq_ok_iff.1 hnext
          cases hdone
          rw [eq_of_run_readParams hparams]
          exact .lambda names' (encodes_of_run_read body hbody)
        | .array [] | .array [_] | .array (_ :: _ :: _ :: _) => cases h
        | .null | .bool _ | .number _ | .string _ | .object _ => cases h
      | block =>
        match payload with
        | .array items =>
          simp only [read, hform] at h
          obtain ⟨exprs, mid, hitems, hdone⟩ := run_bind_eq_ok_iff.1 h
          cases hdone
          exact .block (encodesList_of_run_readList items hitems)
        | .null | .bool _ | .number _ | .string _ | .object _ => cases h
      | cond =>
        match payload with
        | .array items =>
          simp only [read, hform] at h
          obtain ⟨clauses, mid, hitems, hdone⟩ := run_bind_eq_ok_iff.1 h
          cases hdone
          exact .cond (encodesClauses_of_run_readClauses items hitems)
        | .null | .bool _ | .number _ | .string _ | .object _ => cases h
      | letIn =>
        match payload with
        | .array [binder, first, second] =>
          simp only [read, hform] at h
          obtain ⟨name, mid, hbinder, hnext⟩ := run_bind_eq_ok_iff.1 h
          obtain ⟨init, mid', hfirst, hnext'⟩ := run_bind_eq_ok_iff.1 hnext
          obtain ⟨body, last, hsecond, hdone⟩ := run_bind_eq_ok_iff.1 hnext'
          cases hdone
          rw [eq_identifier_of_run_readBinder hbinder]
          exact .letIn name (encodes_of_run_read first hfirst) (encodes_of_run_read second hsecond)
        | .array [] | .array [_] | .array [_, _] | .array (_ :: _ :: _ :: _ :: _) => cases h
        | .null | .bool _ | .number _ | .string _ | .object _ => cases h
      | assignment =>
        match payload with
        | .array [binder, second] =>
          simp only [read, hform] at h
          obtain ⟨name, mid, hbinder, hnext⟩ := run_bind_eq_ok_iff.1 h
          obtain ⟨value, last, hsecond, hdone⟩ := run_bind_eq_ok_iff.1 hnext
          cases hdone
          rw [eq_identifier_of_run_readBinder hbinder]
          exact .assignment name (encodes_of_run_read second hsecond)
        | .array [] | .array [_] | .array (_ :: _ :: _ :: _) => cases h
        | .null | .bool _ | .number _ | .string _ | .object _ => cases h

theorem encodesList_of_run_readList (items : List Json) {names after : NameTable}
    {exprs : List Expr} (h : (readList items).run names = (.ok exprs, after)) :
    EncodesList items exprs := by
  match items with
  | [] => cases h; exact .nil
  | item :: rest =>
    simp only [readList] at h
    obtain ⟨expr, mid, hitem, hrest⟩ := run_bind_eq_ok_iff.1 h
    obtain ⟨others, last, hothers, hdone⟩ := run_bind_eq_ok_iff.1 hrest
    cases hdone
    exact .cons (encodes_of_run_read item hitem) (encodesList_of_run_readList rest hothers)

theorem encodesClauses_of_run_readClauses (items : List Json) {names after : NameTable}
    {clauses : List (Expr × Expr)} (h : (readClauses items).run names = (.ok clauses, after)) :
    EncodesClauses items clauses := by
  match items with
  | [] => cases h; exact .nil
  | .object [(key, .array [first, second])] :: rest =>
    simp only [readClauses] at h
    split at h
    · rename_i hkey
      subst hkey
      obtain ⟨test, mid, htest, hnext⟩ := run_bind_eq_ok_iff.1 h
      obtain ⟨consequence, mid', hconsequence, hnext'⟩ := run_bind_eq_ok_iff.1 hnext
      obtain ⟨others, last, hothers, hdone⟩ := run_bind_eq_ok_iff.1 hnext'
      cases hdone
      exact .cons (encodes_of_run_read first htest) (encodes_of_run_read second hconsequence)
        (encodesClauses_of_run_readClauses rest hothers)
    · cases h
  | .object [(key, .array [])] :: _ | .object [(key, .array [_])] :: _
  | .object [(key, .array (_ :: _ :: _ :: _))] :: _ =>
    simp only [readClauses] at h
    split at h <;> cases h
  | .object [(_, .null)] :: _ | .object [(_, .bool _)] :: _ | .object [(_, .number _)] :: _
  | .object [(_, .string _)] :: _ | .object [(_, .object _)] :: _ => cases h
  | .object [] :: _ => cases h
  | .object (_ :: _ :: _) :: _ =>
    simp only [readClauses] at h
    cases h
  | .null :: _ | .bool _ :: _ | .number _ :: _ | .string _ :: _ | .array _ :: _ => cases h

end

theorem read_eq_ok_iff {json : Json} {names after : NameTable} {expr : Expr} :
    (read json).run names = (.ok expr, after) ↔
      Encodes json expr ∧ names.Suffices expr.names ∧ after = names.withTexts expr.names := by
  constructor
  · intro h
    have hencodes := encodes_of_run_read json h
    exact ⟨hencodes, ((gives_read_of_encodes hencodes).run_eq_ok_iff.1 h).2⟩
  · rintro ⟨hencodes, hroom⟩
    exact (gives_read_of_encodes hencodes).run_eq_ok_iff.2 ⟨rfl, hroom⟩

end Expr

/-- A JSON value encodes one expression at most. -/
theorem Encodes.unique {json : Json} {first second : Expr} (hfirst : Encodes json first)
    (hsecond : Encodes json second) : first = second := by
  -- A table that holds all texts of both has room for them, however many they are.
  have hall := NameTable.new.subset_texts_withTexts (first.names ++ second.names)
  obtain ⟨htexts, htexts'⟩ := List.append_subset.1 hall
  have hrun := Expr.read_eq_ok_iff.2 ⟨hfirst, NameTable.suffices_of_subset htexts, rfl⟩
  rw [Expr.read_eq_ok_iff.2 ⟨hsecond, NameTable.suffices_of_subset htexts', rfl⟩] at hrun
  cases hrun
  rfl

end FlatScope
