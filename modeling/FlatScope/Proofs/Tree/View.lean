import FlatScope.Eval.Depth
import FlatScope.Proofs.Decoding.Faithful
import FlatScope.Proofs.Tree.Semantics

/-!
# Flat code seen as trees

What a node, a value, a store and an outcome stand for in the semantics of trees.  Each operation on
stores is seen as the operation on scopes of the same purpose.
-/

namespace FlatScope

namespace Setting

/-! ### Nodes -/

/-- The tree that stands at an id; an id outside the code stands for an unknown form. -/
def exprAt (setting : Setting) (id : NodeId) : Expr :=
  (setting.code.expr? setting.names id).getD (.unknown id.describe)

def pairAt (setting : Setting) (clause : Clause) : Expr × Expr :=
  (setting.exprAt clause.test, setting.exprAt clause.consequence)

def textOf (setting : Setting) (name : Name) : String := (setting.names.text? name).getD ""

def Readable (setting : Setting) : Prop := setting.code.Readable setting.names

/-- What stands at an id, one layer deep. -/
inductive Stands (setting : Setting) (id : NodeId) : Expr → Prop where
  | outside (hnode : setting.code.node? id = none) : Stands setting id (.unknown id.describe)
  | int {literal : Int} (hnode : setting.code.node? id = some (.int literal)) :
      Stands setting id (.int literal)
  | str {name : Name} {text : String} (hnode : setting.code.node? id = some (.str name))
      (htext : setting.names.text? name = some text) : Stands setting id (.str text)
  | ident {name : Name} {text : String} (hnode : setting.code.node? id = some (.ident name))
      (htext : setting.names.text? name = some text) : Stands setting id (.ident text)
  | apply {operator : NodeId} {operands : Span NodeId} {ids : List NodeId} {first : Expr}
      {rest : List Expr} (hnode : setting.code.node? id = some (.apply operator operands))
      (hread : operands.read? setting.code.lists = some ids)
      (hfirst : setting.exprAt operator = first) (hrest : ids.map setting.exprAt = rest) :
      Stands setting id (.apply first rest)
  | lambda {params : Span Name} {body : NodeId} {found : List Name} {texts : List String}
      {expr : Expr} (hnode : setting.code.node? id = some (.lambda params body))
      (hread : params.read? setting.code.params = some found)
      (hnamed : ∀ name ∈ found, (setting.names.text? name).isSome)
      (htexts : found.map setting.textOf = texts) (hbody : setting.exprAt body = expr) :
      Stands setting id (.lambda texts expr)
  | block {items : Span NodeId} {ids : List NodeId} {exprs : List Expr}
      (hnode : setting.code.node? id = some (.block items))
      (hread : items.read? setting.code.lists = some ids)
      (hexprs : ids.map setting.exprAt = exprs) : Stands setting id (.block exprs)
  | cond {clauses : Span Clause} {found : List Clause} {pairs : List (Expr × Expr)}
      (hnode : setting.code.node? id = some (.cond clauses))
      (hread : clauses.read? setting.code.clauses = some found)
      (hpairs : found.map setting.pairAt = pairs) : Stands setting id (.cond pairs)
  | letIn {name : Name} {text : String} {init body : NodeId} {first second : Expr}
      (hnode : setting.code.node? id = some (.letIn name init body))
      (htext : setting.names.text? name = some text) (hinit : setting.exprAt init = first)
      (hbody : setting.exprAt body = second) : Stands setting id (.letIn text first second)
  | assign {name : Name} {text : String} {value : NodeId} {expr : Expr}
      (hnode : setting.code.node? id = some (.assign name value))
      (htext : setting.names.text? name = some text) (hvalue : setting.exprAt value = expr) :
      Stands setting id (.assign text expr)
  | unknown {tag : Name} {text : String} (hnode : setting.code.node? id = some (.unknown tag))
      (htext : setting.names.text? tag = some text) : Stands setting id (.unknown text)

variable {setting : Setting}

theorem exprAt_of_expr? {id : NodeId} {expr : Expr}
    (h : setting.code.expr? setting.names id = some expr) : setting.exprAt id = expr := by
  rw [exprAt, h]
  rfl

theorem textOf_of_text? {name : Name} {text : String} (h : setting.names.text? name = some text) :
    setting.textOf name = text := by
  rw [textOf, h]
  rfl

theorem map_eq_of_map_eq_map_some {α β : Type} {f : α → Option β} {g : α → β} {items : List α}
    {found : List β} (hfg : ∀ item value, f item = some value → g item = value)
    (h : items.map f = found.map some) : items.map g = found := by
  induction items generalizing found with
  | nil => exact (List.map_eq_nil_iff.1 h.symm).symm
  | cons item rest ih =>
    cases found with
    | nil => cases h
    | cons value others =>
      obtain ⟨hitem, hrest⟩ := List.cons_eq_cons.1 h
      rw [List.map_cons, hfg item value hitem, ih hrest]

theorem isSome_of_map_eq_map_some {α β : Type} {f : α → Option β} {items : List α} {found : List β}
    (h : items.map f = found.map some) {item : α} (hitem : item ∈ items) : (f item).isSome := by
  have hmem : f item ∈ found.map some := h ▸ List.mem_map_of_mem hitem
  obtain ⟨value, -, hvalue⟩ := List.mem_map.1 hmem
  rw [← hvalue]
  rfl

/-- Code in which every node has a tree shows one layer of it at each id. -/
theorem stands (hread : setting.Readable) (id : NodeId) :
    setting.Stands id (setting.exprAt id) := by
  by_cases hid : id.raw < setting.code.size
  · obtain ⟨expr, hexpr⟩ := Option.isSome_iff_exists.1 (hread id hid)
    obtain ⟨node, hnode, hlayer⟩ := Code.expr?_eq_some_iff.1 hexpr
    have hbefore : ∀ child tree, setting.code.before setting.names id child = some tree →
        setting.exprAt child = tree :=
      fun child tree h => exprAt_of_expr? (Code.before_eq_some_iff.1 h).2
    rw [exprAt_of_expr? hexpr]
    cases hlayer with
    | int literal => exact .int hnode
    | str htext => exact .str hnode htext
    | ident htext => exact .ident hnode htext
    | unknown htext => exact .unknown hnode htext
    | apply hfirst hlist hrest =>
      exact .apply hnode hlist (hbefore _ _ hfirst) (map_eq_of_map_eq_map_some hbefore hrest)
    | lambda hparams htexts hbody =>
      exact .lambda hnode hparams (fun name hname => isSome_of_map_eq_map_some htexts hname)
        (map_eq_of_map_eq_map_some (fun name text => textOf_of_text?) htexts) (hbefore _ _ hbody)
    | block hlist hexprs =>
      exact .block hnode hlist (map_eq_of_map_eq_map_some hbefore hexprs)
    | cond hclauses hpairs =>
      refine .cond hnode hclauses (map_eq_of_map_eq_map_some ?_ hpairs)
      intro clause pair hpair
      obtain ⟨htest, hconsequence⟩ := Code.clausePair?_eq_some_iff.1 hpair
      rw [pairAt, hbefore _ _ htest, hbefore _ _ hconsequence]
    | letIn htext hinit hbody =>
      exact .letIn hnode htext (hbefore _ _ hinit) (hbefore _ _ hbody)
    | assign htext hvalue => exact .assign hnode htext (hbefore _ _ hvalue)
  · -- An id outside the code has no tree of its own; `exprAt` gives it the form that it faults with.
    have hnode : setting.code.node? id = none := Array.getElem?_eq_none (Nat.le_of_not_lt hid)
    have hexpr : setting.code.expr? setting.names id = none := by rw [Code.expr?_eq, hnode]; rfl
    rw [exprAt, hexpr]
    exact .outside hnode

/-! ### Values -/

/-- What a value stands for. -/
def value (setting : Setting) : Value → Tree.Value
  | .int value => .int value
  | .str text => .str text
  | .bool value => .bool value
  | .native function => .native function
  | .closure function =>
    .closure (function.params.map setting.textOf) (setting.exprAt function.body) function.frame
      function.serial

theorem typeName_value (setting : Setting) (value : Value) : (setting.value value).typeName = value.typeName := by
  cases value <;> rfl

theorem callable_value_iff {value : Value} :
    (setting.value value).Callable ↔ value.isCallable = true := by
  cases value with
  | native function => exact ⟨fun _ => rfl, fun _ => .native function⟩
  | closure function => exact ⟨fun _ => rfl, fun _ => .closure _ _ _ _⟩
  | int _ | str _ | bool _ => exact ⟨(nomatch ·), (nomatch ·)⟩

theorem value_toValue (primitive : Primitive) :
    setting.value primitive.toValue = .ofPrimitive primitive := by
  cases primitive <;> rfl

theorem eq_toValue_of_value {value : Value} {primitive : Primitive}
    (h : setting.value value = .ofPrimitive primitive) : value = primitive.toValue := by
  cases value <;> cases primitive <;> cases h <;> rfl

theorem eq_bool_of_value {value : Value} {b : Bool} (h : setting.value value = .bool b) :
    value = .bool b := by
  cases value <;> cases h
  rfl

theorem eq_native_of_value {value : Value} {function : Native}
    (h : setting.value value = .native function) : value = .native function := by
  cases value <;> cases h
  rfl

theorem eq_closure_of_value {value : Value} {params : List String} {body : Expr} {frame : FrameId}
    {serial : Nat} (h : setting.value value = .closure params body frame serial) :
    ∃ closure : Closure, value = .closure closure ∧ closure.params.map setting.textOf = params ∧
      setting.exprAt closure.body = body ∧ closure.frame = frame ∧ closure.serial = serial := by
  cases value with
  | closure closure =>
    obtain ⟨hparams, hbody, hframe, hserial⟩ := Tree.Value.closure.inj h
    exact ⟨closure, rfl, hparams, hbody, hframe, hserial⟩
  | int _ | str _ | bool _ | native _ => cases h

/-! ### Scopes -/

/-- The scopes that a store stands for. -/
def heap (setting : Setting) (store : Store) : Tree.Heap where
  scopes frame text := ((setting.names.find? text).bind (store.lookup frame)).map setting.value
  size := store.frames.size
  closures := store.closures

variable {store : Store} {frame : FrameId} {name : Name} {text : String}

theorem scopes_heap (setting : Setting) (store : Store) (frame : FrameId)
    (htext : setting.names.text? name = some text) :
    (setting.heap store).scopes frame text = (store.lookup frame name).map setting.value := by
  simp only [heap, NameTable.find?_eq_some_iff.2 htext, Option.bind_some]

theorem name_eq_iff {other : Name} {key : String} (htext : setting.names.text? name = some text)
    (hkey : setting.names.text? other = some key) : other = name ↔ key = text := by
  constructor
  · rintro rfl
    exact Option.some.inj (hkey.symm.trans htext)
  · rintro rfl
    have hfind := NameTable.find?_eq_some_iff.2 hkey
    rw [NameTable.find?_eq_some_iff.2 htext] at hfind
    exact (Option.some.inj hfind).symm

theorem ne_of_find?_eq_none {key : String} (htext : setting.names.text? name = some text)
    (hkey : setting.names.find? key = none) : key ≠ text := by
  intro heq
  rw [heq, NameTable.find?_eq_some_iff.2 htext] at hkey
  cases hkey

theorem size_update (store : Store) (id : FrameId) (change : Bindings → Bindings) :
    (store.update id change).frames.size = store.frames.size := by
  simp [Store.update]

theorem heap_reassign {value : Value} (htext : setting.names.text? name = some text)
    (hbound : store.contains frame name = true) :
    setting.heap (store.reassign frame name value) =
      (setting.heap store).assign frame text (setting.value value) := by
  refine Tree.Heap.ext ?_ (size_update store frame _) rfl
  funext other key
  simp only [heap, Tree.Heap.assign]
  cases hfind : setting.names.find? key with
  | none =>
    simp [ne_of_find?_eq_none htext hfind]
  | some found =>
    -- Names and texts are in bijection, so one overwritten name is one overwritten text.
    have hiff := name_eq_iff htext (NameTable.find?_eq_some_iff.1 hfind)
    simp only [Option.bind_some, Store.lookup_reassign value other found hbound, ← hiff,
      eq_comm (a := name)]
    split <;> rfl

theorem extend_of_ne_nil (store : Store) (base : FrameId) {added : Bindings} (hadded : added ≠ []) :
    (store.extend base added).1 = ⟨store.frames.size⟩ ∧
      (store.extend base added).2.frames.size = store.frames.size + 1 ∧
      (store.extend base added).2.closures = store.closures := by
  cases added with
  | nil => exact absurd rfl hadded
  | cons entry rest => simp [Store.extend, Store.newFrame, Store.link]

theorem lookup_extend (base id : FrameId) {added : Bindings} (hadded : added ≠ [])
    (hnodup : (Bindings.keys added).Nodup) (name : Name) :
    (store.extend base added).2.lookup id name =
      if id = ⟨store.frames.size⟩ then (added.find? name).or (store.lookup base name)
      else store.lookup id name := by
  unfold Store.lookup
  rw [Store.bindings_extend store base id hadded, (extend_of_ne_nil store base hadded).1]
  split
  · exact Bindings.find?_overlay _ _ _ hnodup
  · rfl

/-- A frame with new bindings stands for a copy of a scope with the same names set over it. -/
theorem heap_extend (base : FrameId) {added : Bindings} {above : String → Option Tree.Value}
    (hadded : added ≠ []) (hnodup : (Bindings.keys added).Nodup)
    (habove : ∀ key, ((setting.names.find? key).bind added.find?).map setting.value = above key) :
    setting.heap (store.extend base added).2 = (setting.heap store).copy base above := by
  obtain ⟨-, hsize, hclosures⟩ := extend_of_ne_nil store base hadded
  refine Tree.Heap.ext ?_ hsize hclosures
  funext id key
  simp only [heap, Tree.Heap.copy, ← habove]
  cases setting.names.find? key with
  | none => simp
  | some name =>
    simp only [Option.bind_some, lookup_extend base id hadded hnodup]
    split
    · cases added.find? name <;> rfl
    · rfl

theorem heap_extend_one (store : Store) (frame : FrameId) (value : Value)
    (htext : setting.names.text? name = some text) :
    setting.heap (store.extend frame [(name, value)]).2 =
      (setting.heap store).copy frame fun key =>
        if key = text then some (setting.value value) else none := by
  refine heap_extend frame (List.cons_ne_nil _ _) (by simp [Bindings.keys]) fun key => ?_
  cases hfind : setting.names.find? key with
  | none =>
    simp [ne_of_find?_eq_none htext hfind]
  | some found =>
    have hiff := name_eq_iff htext (NameTable.find?_eq_some_iff.1 hfind)
    by_cases hfound : found = name
    · simp [Bindings.find?, hfound, hiff.1 hfound]
    · simp [Bindings.find?, Ne.symm hfound, mt hiff.2 hfound]

/-! ### Values that the rules can tell apart -/

/-- The parameters of a closure have texts, and its frame is one of a given set of frames. -/
def Legible (setting : Setting) (known : FrameId → Prop) : Value → Prop
  | .closure function =>
    known function.frame ∧ ∀ param ∈ function.params, (setting.names.text? param).isSome
  | _ => True

/-- A set of frames that holds every frame its values refer to, and every frame still to be made. -/
structure Legal (setting : Setting) (known : FrameId → Prop) (store : Store) : Prop where
  fresh : ∀ id : FrameId, store.frames.size ≤ id.index → known id
  values : ∀ id name value, known id → store.lookup id name = some value →
    setting.Legible known value

variable {known : FrameId → Prop}

theorem Legal.newClosure (h : setting.Legal known store) (params : List Name) (body : NodeId) :
    setting.Legal known (store.newClosure params body frame).2 :=
  ⟨h.fresh, h.values⟩

theorem Legal.reassign (h : setting.Legal known store) {value : Value}
    (hvalue : setting.Legible known value) (hbound : store.contains frame name = true) :
    setting.Legal known (store.reassign frame name value) := by
  refine ⟨fun id hid => h.fresh id (size_update store frame _ ▸ hid), ?_⟩
  intro id key found hid hfound
  rw [Store.lookup_reassign value id key hbound] at hfound
  split at hfound
  · cases hfound
    exact hvalue
  · exact h.values id key found hid hfound

theorem Legal.extend (h : setting.Legal known store) {base : FrameId} (hbase : known base)
    {added : Bindings} (hadded : added ≠ []) (hnodup : (Bindings.keys added).Nodup)
    (hvalues : ∀ name value, added.find? name = some value → setting.Legible known value) :
    setting.Legal known (store.extend base added).2 := by
  obtain ⟨-, hsize, -⟩ := extend_of_ne_nil store base hadded
  refine ⟨fun id hid => h.fresh id (by omega), ?_⟩
  intro id key found hid hfound
  rw [lookup_extend base id hadded hnodup] at hfound
  split at hfound
  · rcases Option.or_eq_some_iff.1 hfound with hnew | ⟨-, hold⟩
    · exact hvalues key found hnew
    · exact h.values base key found hbase hold
  · exact h.values id key found hid hfound

theorem Legal.extend_one (h : setting.Legal known store) (name : Name) (hframe : known frame)
    {value : Value} (hvalue : setting.Legible known value) :
    setting.Legal known (store.extend frame [(name, value)]).2 ∧
      known (store.extend frame [(name, value)]).1 := by
  have hadded : [(name, value)] ≠ [] := List.cons_ne_nil _ _
  constructor
  · refine h.extend hframe hadded (by simp [Bindings.keys]) fun key found hfound => ?_
    by_cases hkey : name = key
    · simp only [Bindings.find?, hkey, if_true, Option.some.injEq] at hfound
      exact hfound ▸ hvalue
    · simp [Bindings.find?, hkey] at hfound
  · rw [(extend_of_ne_nil store frame hadded).1]
    exact h.fresh _ (Nat.le_refl _)

/-! ### Literals -/

theorem evalInt_of_between (word : Word) (hlow : -9223372036854775808 < word.val)
    (hhigh : word.val < 9223372036854775807) : evalInt word.val = .ok (.int word) := by
  have hword : Word.ofInt? word.val = some word := Word.ofInt?_eq_some_iff.2 rfl
  have hends : ¬ (word.val = -9223372036854775808 ∨ word.val = 9223372036854775807) := by omega
  simp only [evalInt, literalWord, hword, hends, if_false]
  rfl

theorem evalInt_of_range {literal : Int}
    (h : literal ≤ -9223372036854775808 ∨ 9223372036854775807 ≤ literal) :
    evalInt literal = .error (.fault (.integerRange literal)) := by
  unfold evalInt literalWord
  cases hword : Word.ofInt? literal with
  | none => rfl
  | some word =>
    have hval := Word.ofInt?_eq_some_iff.1 hword
    have hfits := word.fits
    have hends : literal = -9223372036854775808 ∨ literal = 9223372036854775807 := by omega
    simp only [hends, if_true]
    rfl

end Setting

end FlatScope
