import FlatScope.Proofs.Frames.Confinement
import FlatScope.Proofs.Scope.Names
import FlatScope.Proofs.Scope.Start
import Mathlib.Data.List.Forall2

/-!
# Coupled runs

A program is run twice, in settings that may differ in scoping and in the names that were added after
it was decoded.  A `Relating` relates the stores of the two runs, their closures, and the frames in
which both evaluate an expression.  It is a `Coupling` if the forms that touch a store keep what is
related.
-/

namespace FlatScope

/-! ### Related values -/

/-- Two values that are the same, or two closures that are related. -/
inductive Value.Coupled (closures : Closure → Closure → Prop) : Value → Value → Prop where
  | plain {value : Value} (h : ∀ closure, value ≠ .closure closure) :
      Coupled closures value value
  | closure {first second : Closure} (h : closures first second) :
      Coupled closures (.closure first) (.closure second)

namespace Value.Coupled

variable {closures : Closure → Closure → Prop} {value value' : Value}

theorem mono {others : Closure → Closure → Prop}
    (hclosures : ∀ first second, closures first second → others first second)
    (h : Coupled closures value value') : Coupled others value value' := by
  cases h with
  | plain h => exact .plain h
  | closure h => exact .closure (hclosures _ _ h)

theorem typeName_eq (h : Coupled closures value value') : value'.typeName = value.typeName := by
  cases h <;> rfl

theorem isCallable_eq (h : Coupled closures value value') :
    value'.isCallable = value.isCallable := by
  cases h <;> rfl

theorem toPrimitive?_eq (h : Coupled closures value value') :
    value'.toPrimitive? = value.toPrimitive? := by
  cases h <;> rfl

theorem test_eq (h : Coupled closures value value') : value'.test = value.test := by
  cases h <;> rfl

theorem unwrap_eq (native : Native) {args args' : List Value}
    (h : List.Forall₂ (Coupled closures) args args') : native.unwrap args' = native.unwrap args := by
  induction h with
  | nil => rfl
  | cons hfirst _ ih => simp only [Native.unwrap, hfirst.toPrimitive?_eq, hfirst.typeName_eq, ih]

/-- A native cannot tell related arguments apart, and gives no closure. -/
theorem call (native : Native) {args args' : List Value}
    (h : List.Forall₂ (Coupled closures) args args') :
    (∃ fault, native.call args = .error fault ∧ native.call args' = .error fault) ∨
      ∃ primitive : Primitive, native.call args = .ok primitive.toValue ∧
        native.call args' = .ok primitive.toValue := by
  have hsame : native.call args' = native.call args := by
    simp only [Native.call, unwrap_eq native h]
  rw [hsame]
  cases hcall : native.call args with
  | error fault => exact .inl ⟨fault, rfl, rfl⟩
  | ok value =>
    obtain ⟨primitive, rfl⟩ := Native.exists_primitive_of_call hcall
    exact .inr ⟨primitive, rfl, rfl⟩

theorem primitive (primitive : Primitive) :
    Coupled closures primitive.toValue primitive.toValue :=
  .plain fun closure => by cases primitive <;> simp [Primitive.toValue]

end Value.Coupled

/-! ### Related bindings -/

theorem isSome_eq_of_rel {α β : Type} {related : α → β → Prop} {found : Option α}
    {found' : Option β} (h : Option.Rel related found found') : found'.isSome = found.isSome := by
  cases h <;> rfl

theorem rel_mono {α β : Type} {related others : α → β → Prop} {found : Option α}
    {found' : Option β} (hothers : ∀ first second, related first second → others first second)
    (h : Option.Rel related found found') : Option.Rel others found found' := by
  cases h with
  | some h => exact .some (hothers _ _ h)
  | none => exact .none

theorem rel_or {α β : Type} {related : α → β → Prop} {first second : Option α}
    {first' second' : Option β} (h : Option.Rel related first first')
    (h' : Option.Rel related second second') :
    Option.Rel related (first.or second) (first'.or second') := by
  cases h with
  | some h => exact .some h
  | none => exact h'

/-- Bindings of the same names to related values, each name once. -/
structure Bindings.Paired (closures : Closure → Closure → Prop) (added added' : Bindings) :
    Prop where
  sameKeys : added'.keys = added.keys
  nodup : added.keys.Nodup
  values : ∀ name, Option.Rel (Value.Coupled closures) (added.find? name) (added'.find? name)

namespace Bindings.Paired

variable {closures : Closure → Closure → Prop} {added added' : Bindings}

theorem single (name : Name) {value value' : Value} (h : Value.Coupled closures value value') :
    Paired closures [(name, value)] [(name, value')] := by
  refine ⟨rfl, by simp [keys], fun other => ?_⟩
  by_cases hname : name = other
  · simpa [find?, hname] using Option.Rel.some h
  · simp [find?, hname]

theorem find?_zip (params : List Name) {args args' : List Value}
    (hargs : List.Forall₂ (Value.Coupled closures) args args') (name : Name) :
    Option.Rel (Value.Coupled closures) (find? (params.zip args) name)
      (find? (params.zip args') name) := by
  induction params generalizing args args' with
  | nil => exact .none
  | cons param rest ih =>
    cases hargs with
    | nil => exact .none
    | cons hfirst hothers =>
      by_cases hname : param = name
      · simpa [find?, hname] using Option.Rel.some hfirst
      · simpa [find?, hname] using ih hothers

theorem zip {params : List Name} {args args' : List Value}
    (hargs : List.Forall₂ (Value.Coupled closures) args args')
    (hcount : params.length = args.length) (hnodup : params.Nodup) :
    Paired closures (params.zip args).reverse (params.zip args').reverse := by
  have hkeys := keys_zip hcount
  have hkeys' := keys_zip (hcount.trans hargs.length_eq)
  have hleft : (keys (params.zip args)).Nodup := hkeys.symm ▸ hnodup
  have hright : (keys (params.zip args')).Nodup := hkeys'.symm ▸ hnodup
  refine ⟨?_, nodup_keys_reverse hleft, fun name => ?_⟩
  · simp only [keys, List.map_reverse] at hkeys hkeys' ⊢
    rw [hkeys, hkeys']
  · rw [find?_reverse hleft, find?_reverse hright]
    exact find?_zip params hargs name

theorem nil_or_ne_nil (h : Paired closures added added') :
    (added = [] ∧ added' = []) ∨ added ≠ [] ∧ added' ≠ [] := by
  have hkeys := h.sameKeys
  cases added with
  | nil => exact .inl ⟨rfl, List.map_eq_nil_iff.1 hkeys⟩
  | cons entry rest =>
    refine .inr ⟨List.cons_ne_nil _ _, ?_⟩
    rintro rfl
    cases hkeys

end Bindings.Paired

/-- What a program starts with is the same in both runs. -/
theorem Program.rel_lookup_start (closures : Closure → Closure → Prop) (names : NameTable)
    (defines : List (String × Word)) (frame : FrameId) (name : Name) :
    Option.Rel (Value.Coupled closures) ((start names defines).2.lookup frame name)
      ((start names defines).2.lookup frame name) := by
  cases hvalue : (start names defines).2.lookup frame name with
  | none => exact .none
  | some value => exact .some (.plain (not_closure_of_lookup_start hvalue))

/-! ### Lambdas of a decoded program -/

namespace Program

/-- The setting in which the nodes of a decoded program are read as trees; its scoping plays no
part. -/
def reading (program : Program) (names : NameTable) : Setting := ⟨program.code, names, .lexical⟩

theorem Decoded.readable_reading {program : Program} {names : NameTable} {expr : Expr}
    (h : Decoded program names expr) : (program.reading names).Readable :=
  h.readable

/-- Two closures that were made from one lambda of a program. -/
structure SameLambda (program : Program) (names : NameTable) (expr : Expr)
    (first second : Closure) : Prop where
  params : second.params = first.params
  body : second.body = first.body
  named : ∀ param ∈ first.params, (names.text? param).isSome
  part : Expr.lambda (first.params.map (program.reading names).textOf)
    ((program.reading names).exprAt first.body) ∈ expr.parts

theorem SameLambda.body_mem_parts {program : Program} {names : NameTable} {expr : Expr}
    {first second : Closure} (h : program.SameLambda names expr first second) :
    (program.reading names).exprAt first.body ∈ expr.parts := by
  refine Expr.part_trans h.part ?_
  rw [Expr.inside]
  exact List.mem_cons_self ..

end Program

/-! ### Couplings -/

/-- The stores of two runs. -/
structure Stores where
  left : Store
  right : Store

namespace Stores

def newClosure (stores : Stores) (params : List Name) (body : NodeId) (frame frame' : FrameId) :
    Stores :=
  ⟨(stores.left.newClosure params body frame).2, (stores.right.newClosure params body frame').2⟩

def reassign (stores : Stores) (frame frame' : FrameId) (name : Name) (value value' : Value) :
    Stores :=
  ⟨stores.left.reassign frame name value, stores.right.reassign frame' name value'⟩

def extend (stores : Stores) (base base' : FrameId) (added added' : Bindings) : Stores :=
  ⟨(stores.left.extend base added).2, (stores.right.extend base' added').2⟩

end Stores

/-- What relates two runs: their stores, and with given stores two closures, and the two frames in
which both evaluate an expression. -/
structure Relating (program : Program) (names : NameTable) (expr : Expr) where
  valid : Stores → Prop
  closures : Stores → Closure → Closure → Prop
  fits : Stores → Expr → FrameId → FrameId → Prop

namespace Relating

variable {program : Program} {names : NameTable} {expr : Expr}

abbrev values (relating : Relating program names expr) (stores : Stores) : Value → Value → Prop :=
  Value.Coupled (relating.closures stores)

/-- From stores to valid stores, all that was related stays related. -/
structure Leads (relating : Relating program names expr) (before after : Stores) : Prop where
  valid : relating.valid after
  closures : ∀ first second, relating.closures before first second →
    relating.closures after first second
  fits : ∀ expr frame frame', relating.fits before expr frame frame' →
    relating.fits after expr frame frame'

/-- Both runs can make frames from given ones and evaluate an expression in them. -/
structure Opens (relating : Relating program names expr) (stores : Stores)
    (base base' : FrameId) (added added' : Bindings) (body : Expr) : Prop where
  leads : relating.Leads stores (stores.extend base base' added added')
  fits : relating.fits (stores.extend base base' added added') body
    (stores.left.extend base added).1 (stores.right.extend base' added').1

/-- What the forms of a decoded program that touch a store do to what is related.  The settings of
the two runs have the code of the program, and keep the names that it was decoded with. -/
structure Coupling (relating : Relating program names expr) (left right : Setting) : Prop where
  decoded : Program.Decoded program names expr
  code_left : left.code = program.code
  code_right : right.code = program.code
  names_left : names.KeptBy left.names
  names_right : names.KeptBy right.names
  sameLambda : ∀ {stores first second}, relating.closures stores first second →
    program.SameLambda names expr first second
  direct : ∀ {stores whole part frame frame'}, relating.fits stores whole frame frame' →
    part ∈ whole.direct → relating.fits stores part frame frame'
  ident : ∀ {stores name text frame frame'}, relating.valid stores →
    names.text? name = some text → .ident text ∈ expr.parts →
    relating.fits stores (.ident text) frame frame' →
    Option.Rel (relating.values stores) (stores.left.lookup frame name)
      (stores.right.lookup frame' name)
  lambda : ∀ {stores params body frame frame'}, relating.valid stores →
    program.SameLambda names expr (stores.left.newClosure params body frame).1
      (stores.right.newClosure params body frame').1 →
    relating.fits stores (.lambda (params.map (program.reading names).textOf)
      ((program.reading names).exprAt body)) frame frame' →
    relating.Leads stores (stores.newClosure params body frame frame') ∧
      relating.closures (stores.newClosure params body frame frame')
        (stores.left.newClosure params body frame).1
        (stores.right.newClosure params body frame').1
  letIn : ∀ {stores name text init body frame frame' value value'}, relating.valid stores →
    names.text? name = some text → .letIn text init body ∈ expr.parts →
    relating.fits stores (.letIn text init body) frame frame' →
    relating.values stores value value' →
    relating.Opens stores frame frame' [(name, value)] [(name, value')] body
  assign : ∀ {stores name text init frame frame' value value'}, relating.valid stores →
    names.text? name = some text → .assign text init ∈ expr.parts →
    relating.fits stores (.assign text init) frame frame' →
    relating.values stores value value' →
    stores.right.contains frame' name = stores.left.contains frame name ∧
      (stores.left.contains frame name = true →
        relating.Leads stores (stores.reassign frame frame' name value value'))
  call : ∀ {stores caller first second frame frame' args args'}, relating.valid stores →
    relating.fits stores caller frame frame' → relating.closures stores first second →
    List.Forall₂ (relating.values stores) args args' →
    first.params.length = args.length → first.params.Nodup →
    relating.Opens stores (left.baseFrame first frame) (right.baseFrame second frame')
      (first.params.zip args).reverse (first.params.zip args').reverse
      ((program.reading names).exprAt first.body)

/-! ### Texts and halts -/

namespace Coupling

variable {relating : Relating program names expr} {left right : Setting}
  (coupling : relating.Coupling left right)
include coupling

theorem text?_eq {name : Name} (h : (names.text? name).isSome) :
    right.names.text? name = left.names.text? name := by
  obtain ⟨text, htext⟩ := Option.isSome_iff_exists.1 h
  rw [coupling.names_left name text htext, coupling.names_right name text htext]

theorem faultFor_eq {name : Name} (fault : String → Fault) (h : (names.text? name).isSome) :
    right.names.faultFor name fault = left.names.faultFor name fault := by
  rw [NameTable.faultFor, coupling.text?_eq h, NameTable.faultFor]

theorem labelTexts?_eq {labels : List (Option Name)}
    (h : ∀ label ∈ labels, (program.reading names).Labelled label) :
    CallStack.labelTexts? right.names labels = CallStack.labelTexts? left.names labels := by
  induction labels with
  | nil => rfl
  | cons label rest ih =>
    obtain ⟨hlabel, hrest⟩ := List.forall_mem_cons.1 h
    have hfirst : CallStack.labelText? right.names label = CallStack.labelText? left.names label := by
      cases label with
      | none => rfl
      | some name => exact coupling.text?_eq (hlabel name rfl)
    rw [CallStack.labelTexts?, hfirst, ih hrest, CallStack.labelTexts?]

theorem attach_eq {calls : CallStack} (halt : Halt)
    (h : ∀ label ∈ calls.frames.toList, (program.reading names).Labelled label) :
    right.attach calls halt = left.attach calls halt := by
  have htexts : CallStack.labelTexts? right.names calls.frames.toList.reverse =
      CallStack.labelTexts? left.names calls.frames.toList.reverse :=
    coupling.labelTexts?_eq fun label hlabel => h label (List.mem_reverse.1 hlabel)
  have hcapture : calls.capture? right.names = calls.capture? left.names := by
    rw [CallStack.capture?, htexts, CallStack.capture?]
  cases halt with
  | breach breach => rfl
  | raised raised => simp only [Setting.attach, CallStack.attach?, hcapture]

/-! ### Calls -/

variable {stores : Stores} {first second : Closure} {args args' : List Value}
  {label : Option Name}

theorem count_eq_or_checkCount_eq (hclosures : relating.closures stores first second)
    (hargs : List.Forall₂ (relating.values stores) args args')
    (hlabel : (program.reading names).Labelled label) :
    first.params.length = args.length ∨
      ∃ halt, first.checkCount left.names args label = .error halt ∧
        second.checkCount right.names args' label = .error halt := by
  have htext : Closure.calleeText? right.names label = Closure.calleeText? left.names label := by
    cases label with
    | none => rfl
    | some name => exact coupling.text?_eq (hlabel name rfl)
  by_cases hcount : first.params.length = args.length
  · exact .inl hcount
  · simp only [Closure.checkCount, (coupling.sameLambda hclosures).params, ← hargs.length_eq,
      if_neg hcount, htext]
    cases Closure.calleeText? left.names label with
    | some text => exact .inr ⟨_, rfl, rfl⟩
    | none => exact .inr ⟨_, rfl, rfl⟩

theorem nodup_or_bindParams_eq (hclosures : relating.closures stores first second)
    (hargs : List.Forall₂ (relating.values stores) args args')
    (hcount : first.params.length = args.length) :
    first.params.Nodup ∨ ∃ halt, first.bindParams left.names args = .error halt ∧
      second.bindParams right.names args' = .error halt := by
  obtain ⟨hparams, -, hnamed, -⟩ := coupling.sameLambda hclosures
  rcases nodup_or_exists_duplicate first.params List.nodup_nil with
    hnodup | ⟨initial, param, rest, hsplit, hinitial, hmem⟩
  · exact .inl hnodup
  · rw [List.nil_append] at hsplit
    have hparam : param ∈ first.params := by simp [hsplit]
    have hcount' := hcount.trans hargs.length_eq
    refine .inr ⟨left.names.faultFor param .duplicateParameter, ?_, ?_⟩
    · rw [hsplit] at hcount
      rw [Closure.bindParams, hsplit]
      exact Closure.pairUp_of_duplicate hcount hinitial (fun _ _ => rfl) (.inl hmem)
    · rw [hsplit] at hcount'
      rw [Closure.bindParams, hparams, hsplit,
        ← coupling.faultFor_eq .duplicateParameter (hnamed param hparam)]
      exact Closure.pairUp_of_duplicate hcount' hinitial (fun _ _ => rfl) (.inl hmem)

theorem callFrame_eq (hclosures : relating.closures stores first second) (frame : FrameId)
    (store : Store) :
    right.callFrame second args frame store =
      store.extend (right.baseFrame second frame) (first.params.zip args).reverse := by
  rw [Setting.callFrame, (coupling.sameLambda hclosures).params]

end Coupling

end Relating

end FlatScope
