import FlatScope.Proofs.Lockstep.InStep

/-!
# Programs on which both kinds of scoping agree

With lexical scoping a body runs in a copy of the frame in which its closure was made, with dynamic
scoping in a copy of the frame of the call.  These frames may bind quite different values.  If
nothing that is free in a lambda gets a value in the program, every frame still binds these names as
the first frame does, and a body reads nothing else from the frame that is copied.  So both runs are
in step, though with different frames.
-/

namespace FlatScope

/-- A name is free in some lambda of an expression. -/
def Expr.FreeInLambda (expr : Expr) (text : String) : Prop :=
  ∃ part ∈ expr.parts, part.isLambda = true ∧ ∃ use, text ∈ part.free use

theorem Expr.SelfContained.not_mem_sets {expr part : Expr} {text : String}
    (h : expr.SelfContained) (hfree : expr.FreeInLambda text) (hpart : part ∈ expr.parts) :
    text ∉ part.sets := by
  obtain ⟨lambda, hlambda, his, use, htext⟩ := hfree
  refine h lambda hlambda his text (List.mem_append.2 ?_) part hpart
  cases use with
  | reference => exact .inl htext
  | assignment => exact .inr htext

namespace Program

variable {program : Program} {names : NameTable} {expr : Expr} {defines : List (String × Word)}

/-- A store in which every frame binds what is free in lambdas as the first frame did. -/
def KeepsOuter (names : NameTable) (expr : Expr) (defines : List (String × Word)) (store : Store) :
    Prop :=
  ∀ frame name text, store.Holds frame → names.text? name = some text → expr.FreeInLambda text →
    store.lookup frame name = (start names defines).2.lookup startFrame name

/-- Bindings of names that are not free in any lambda. -/
def SparesOuter (names : NameTable) (expr : Expr) (added : Bindings) : Prop :=
  ∀ name text, names.text? name = some text → expr.FreeInLambda text → name ∉ added.keys

/-- The stores of a lexical and a dynamic run: as many frames, which keep the outer names. -/
structure Apart (names : NameTable) (expr : Expr) (defines : List (String × Word))
    (stores : Stores) : Prop where
  size : stores.right.frames.size = stores.left.frames.size
  left : KeepsOuter names expr defines stores.left
  right : KeepsOuter names expr defines stores.right

/-- Two closures made from one lambda, of which the first can be called. -/
def Callable (program : Program) (names : NameTable) (expr : Expr) (stores : Stores)
    (first second : Closure) : Prop :=
  program.SameLambda names expr first second ∧ stores.left.Holds first.frame

/-- What an expression uses of its frame is an outer name, or both runs are in the same frame and
agree on it. -/
structure Shares (program : Program) (names : NameTable) (expr : Expr) (stores : Stores)
    (tree : Expr) (frame frame' : FrameId) : Prop where
  left : stores.left.Holds frame
  right : stores.right.Holds frame'
  free : ∀ use text name, text ∈ tree.free use → names.text? name = some text →
    ¬ expr.FreeInLambda text → frame = frame' ∧
      Option.Rel (Value.Coupled (program.Callable names expr stores))
        (stores.left.lookup frame name) (stores.right.lookup frame name)

/-- A lexical run beside a dynamic one. -/
def scopings (program : Program) (names : NameTable) (expr : Expr)
    (defines : List (String × Word)) : Relating program names expr where
  valid := Apart names expr defines
  closures := program.Callable names expr
  fits := program.Shares names expr

variable {stores after : Stores} {tree : Expr} {frame frame' base base' : FrameId} {name : Name}
  {text : String} {value value' : Value} {added added' : Bindings}

/-! ### Stores that grow -/

theorem Callable.mono {first second : Closure} (h : program.Callable names expr stores first second)
    (hsize : stores.left.frames.size ≤ after.left.frames.size) :
    program.Callable names expr after first second :=
  ⟨h.1, Nat.lt_of_lt_of_le h.2 hsize⟩

theorem KeepsOuter.extend {store : Store} (h : KeepsOuter names expr defines store)
    (hbase : store.Holds base) (hadded : added ≠ []) (hnodup : added.keys.Nodup)
    (houter : SparesOuter names expr added) :
    KeepsOuter names expr defines (store.extend base added).2 := by
  intro frame key text hframe htext hfree
  rw [Setting.lookup_extend base frame hadded hnodup]
  split
  · rw [Bindings.find?_eq_none_of_not_mem (houter key text htext hfree), Option.none_or]
    exact h base key text hbase htext hfree
  · rename_i hne
    have hsize := (Setting.extend_of_ne_nil store base hadded).2.1
    have hindex : frame.index ≠ store.frames.size := fun heq => hne (congrArg FrameId.mk heq)
    rw [Store.Holds, hsize] at hframe
    exact h frame key text (show frame.index < store.frames.size by omega) htext hfree

theorem Shares.mono (h : program.Shares names expr stores tree frame frame')
    (hleft : stores.left.frames.size ≤ after.left.frames.size)
    (hright : stores.right.frames.size ≤ after.right.frames.size)
    (hlookup : ∀ text name, names.text? name = some text → ¬ expr.FreeInLambda text →
      frame = frame' → Option.Rel (Value.Coupled (program.Callable names expr after))
        (stores.left.lookup frame name) (stores.right.lookup frame name) →
      Option.Rel (Value.Coupled (program.Callable names expr after))
        (after.left.lookup frame name) (after.right.lookup frame name)) :
    program.Shares names expr after tree frame frame' := by
  refine ⟨Nat.lt_of_lt_of_le h.left hleft, Nat.lt_of_lt_of_le h.right hright, ?_⟩
  intro use text name htree htext hnot
  obtain ⟨hframe, hrel⟩ := h.free use text name htree htext hnot
  have hrel' := rel_mono (fun _ _ hvalue => hvalue.mono fun _ _ h => h.mono hleft) hrel
  exact ⟨hframe, hlookup text name htext hnot hframe hrel'⟩

theorem Apart.extend (h : Apart names expr defines stores) (hbase : stores.left.Holds base)
    (hbase' : stores.right.Holds base')
    (hadded : Bindings.Paired (program.Callable names expr stores) added added')
    (hne : added ≠ []) (hne' : added' ≠ [])
    (houter : SparesOuter names expr added) :
    (program.scopings names expr defines).Leads stores
      (stores.extend base base' added added') := by
  have hsize := (Setting.extend_of_ne_nil stores.left base hne).2.1
  have hsize' := (Setting.extend_of_ne_nil stores.right base' hne').2.1
  have hleft := Store.size_extend_le stores.left base added
  have hright := Store.size_extend_le stores.right base' added'
  have hnodup' := hadded.sameKeys ▸ hadded.nodup
  have houter' : SparesOuter names expr added' := fun name text htext hfree =>
    hadded.sameKeys ▸ houter name text htext hfree
  refine ⟨⟨?_, ?_, ?_⟩, fun first second h => h.mono hleft, fun tree frame frame' hshares => ?_⟩
  · exact hsize'.trans ((congrArg (· + 1) h.size).trans hsize.symm)
  · exact h.left.extend hbase hne hadded.nodup houter
  · exact h.right.extend hbase' hne' hnodup' houter'
  · -- The frames that were there bind what they did.
    refine hshares.mono hleft hright fun text name htext hnot hframe hrel => ?_
    have hheld := hshares.left
    have hheld' := hshares.right
    subst hframe
    simp only [Stores.extend, Store.lookup] at hrel ⊢
    rw [Store.bindings_extend_of_holds base added hheld,
      Store.bindings_extend_of_holds base' added' hheld']
    exact hrel

/-- Both runs can evaluate an expression in copies of different frames, if all that it uses of the
copies is set there, is an outer name, or is read from one frame on which both runs agree. -/
theorem Apart.opens {body : Expr} (h : Apart names expr defines stores)
    (hbase : stores.left.Holds base) (hbase' : stores.right.Holds base')
    (hadded : Bindings.Paired (program.Callable names expr stores) added added')
    (houter : SparesOuter names expr added)
    (hbody : ∀ use text key, text ∈ body.free use → names.text? key = some text →
      ¬ expr.FreeInLambda text → key ∈ added.keys ∨ base = base' ∧
        Option.Rel (Value.Coupled (program.Callable names expr stores))
          (stores.left.lookup base key) (stores.right.lookup base key)) :
    (program.scopings names expr defines).Opens stores base base' added added' body := by
  rcases hadded.nil_or_ne_nil with ⟨rfl, rfl⟩ | ⟨hne, hne'⟩
  · refine ⟨⟨h, fun _ _ h => h, fun _ _ _ h => h⟩, hbase, hbase', ?_⟩
    intro use text key hfree htext hnot
    exact (hbody use text key hfree htext hnot).resolve_left List.not_mem_nil
  · have hleads := h.extend hbase hbase' hadded hne hne' houter
    obtain ⟨hframe, hsize, -⟩ := Setting.extend_of_ne_nil stores.left base hne
    obtain ⟨hframe', hsize', -⟩ := Setting.extend_of_ne_nil stores.right base' hne'
    have hnodup' := hadded.sameKeys ▸ hadded.nodup
    rw [h.size] at hframe'
    refine ⟨hleads, ?_⟩
    rw [hframe, hframe']
    refine ⟨?_, ?_, fun use text key hfree htext hnot => ⟨rfl, ?_⟩⟩
    · simp only [Stores.extend, Store.Holds, hsize]
      omega
    · simp only [Stores.extend, Store.Holds, hsize', h.size]
      omega
    · simp only [Stores.extend]
      rw [Setting.lookup_extend base _ hne hadded.nodup, Setting.lookup_extend base' _ hne' hnodup',
        h.size, if_pos rfl, if_pos rfl]
      refine rel_mono (fun _ _ => Value.Coupled.mono hleads.closures) ?_
      rcases hbody use text key hfree htext hnot with hkey | ⟨rfl, hrel⟩
      · have hbinds := Bindings.mem_keys_iff.1 hkey
        rw [Bindings.binds] at hbinds
        have hrel := hadded.values key
        generalize added.find? key = found at hrel hbinds
        generalize added'.find? key = found' at hrel
        cases hrel with
        | some hvalue => exact .some hvalue
        | none => cases hbinds
      · exact rel_or (hadded.values key) hrel

/-! ### Assignment -/

theorem KeepsOuter.reassign {store : Store} (h : KeepsOuter names expr defines store)
    (htext : names.text? name = some text) (hnot : ¬ expr.FreeInLambda text)
    (hbound : store.contains frame name = true) (value : Value) :
    KeepsOuter names expr defines (store.reassign frame name value) := by
  intro other key word hother hword hfree
  have hne : ¬ (other = frame ∧ name = key) := by
    rintro ⟨-, rfl⟩
    exact hnot (Option.some.inj (htext.symm.trans hword) ▸ hfree)
  rw [Store.lookup_reassign value other key hbound, if_neg hne]
  refine h other key word ?_ hword hfree
  rwa [Store.Holds, Store.reassign, Setting.size_update] at hother

/-- An assignment to a name that both runs read from one frame. -/
theorem Apart.reassign (h : Apart names expr defines stores) (htext : names.text? name = some text)
    (hnot : ¬ expr.FreeInLambda text) (hbound : stores.left.contains frame name = true)
    (hbound' : stores.right.contains frame name = true)
    (hvalue : Value.Coupled (program.Callable names expr stores) value value') :
    (program.scopings names expr defines).Leads stores
      (stores.reassign frame frame name value value') := by
  have hleft := Setting.size_update stores.left frame (·.replace name value)
  have hright := Setting.size_update stores.right frame (·.replace name value')
  have hle := Nat.le_of_eq hleft.symm
  refine ⟨⟨?_, ?_, ?_⟩, fun first second h => h.mono hle, fun tree other other' hshares => ?_⟩
  · exact hright.trans (h.size.trans hleft.symm)
  · exact h.left.reassign htext hnot hbound value
  · exact h.right.reassign htext hnot hbound' value'
  · refine hshares.mono hle (Nat.le_of_eq hright.symm) fun word key hword _ _ hrel => ?_
    simp only [Stores.reassign]
    rw [Store.lookup_reassign value other key hbound, Store.lookup_reassign value' other key hbound']
    split
    · exact .some (hvalue.mono fun _ _ h => h.mono hle)
    · exact hrel

/-! ### Both kinds of scoping -/

/-- The parameters of a lambda are no outer names, and what else its body uses is one. -/
theorem SameLambda.free_body {first second : Closure}
    (h : program.SameLambda names expr first second) (hself : expr.SelfContained)
    (htext : names.text? name = some text) :
    (expr.FreeInLambda text → name ∉ first.params) ∧
      ∀ use, text ∈ ((program.reading names).exprAt first.body).free use →
        ¬ expr.FreeInLambda text → name ∈ first.params := by
  have htextOf : (program.reading names).textOf name = text := Setting.textOf_of_text? htext
  constructor
  · intro houter hname
    refine hself.not_mem_sets houter h.part ?_
    exact List.mem_map.2 ⟨name, hname, htextOf⟩
  · intro use hfree hnot
    by_cases hparam : text ∈ first.params.map (program.reading names).textOf
    · have hnamed : ((program.reading names).names.text? name).isSome :=
        Option.isSome_iff_exists.2 ⟨text, htext⟩
      rw [← htextOf] at hparam
      exact Setting.mem_of_textOf_mem h.named hnamed hparam
    · exact absurd ⟨_, h.part, rfl, use, Expr.free_lambda hfree hparam⟩ hnot

theorem coupling_scopings (hdecoded : Decoded program names expr) (hself : expr.SelfContained)
    (depth : Option Nat) (defines : List (String × Word)) :
    (program.scopings names expr defines).Coupling
      (program.startSetting names ⟨.lexical, depth⟩ defines)
      (program.startSetting names ⟨.dynamic, depth⟩ defines) where
  decoded := hdecoded
  code_left := rfl
  code_right := rfl
  names_left := keptBy_start names defines
  names_right := keptBy_start names defines
  sameLambda h := h.1
  direct h hpart := ⟨h.left, h.right, fun use text name hfree =>
    h.free use text name (Expr.free_of_direct hpart hfree)⟩
  ident := by
    intro stores name text frame frame' hvalid htext hpart hshares
    by_cases houter : expr.FreeInLambda text
    · have hleft := hvalid.left frame name text hshares.left htext houter
      have hright := hvalid.right frame' name text hshares.right htext houter
      rw [hleft, hright]
      exact rel_lookup_start _ names defines startFrame name
    · obtain ⟨rfl, hrel⟩ := hshares.free .reference text name (by simp [Expr.free]) htext houter
      exact hrel
  lambda := by
    intro stores params body frame frame' hvalid hsame hshares
    exact ⟨⟨⟨hvalid.size, hvalid.left, hvalid.right⟩, fun _ _ h => h,
      fun _ _ _ h => ⟨h.left, h.right, h.free⟩⟩, hsame, hshares.left⟩
  letIn := by
    intro stores name text init body frame frame' value value' hvalid htext hpart hshares hvalue
    have hnot : ¬ expr.FreeInLambda text := fun houter =>
      hself.not_mem_sets houter hpart (List.mem_singleton_self text)
    refine hvalid.opens hshares.left hshares.right (.single name hvalue) ?_ ?_
    · intro key word hword houter hkey
      obtain rfl : key = name := List.mem_singleton.1 hkey
      exact hnot (Option.some.inj (htext.symm.trans hword) ▸ houter)
    · intro use word key hfree hword houter
      by_cases hkey : key = name
      · exact .inl (List.mem_singleton.2 hkey)
      · have hne : word ≠ text := fun heq => hkey (NameTable.text?_inj hword (heq ▸ htext))
        exact .inr (hshares.free use word key (Expr.free_letIn_body hfree hne) hword houter)
  assign := by
    intro stores name text init frame frame' value value' hvalid htext hpart hshares hvalue
    have hnot : ¬ expr.FreeInLambda text := fun houter =>
      hself.not_mem_sets houter hpart (List.mem_singleton_self text)
    obtain ⟨rfl, hrel⟩ := hshares.free .assignment text name (by simp [Expr.free]) htext hnot
    have hsame : stores.right.contains frame name = stores.left.contains frame name :=
      isSome_eq_of_rel hrel
    exact ⟨hsame, fun hbound => hvalid.reassign htext hnot hbound (hsame.trans hbound) hvalue⟩
  call := by
    intro stores caller first second frame frame' args args' hvalid hshares hcallable hargs hcount
      hnodup
    have hkeys (key : Name) :
        key ∈ Bindings.keys (first.params.zip args).reverse ↔ key ∈ first.params := by
      rw [Bindings.keys, List.map_reverse, List.mem_reverse, ← Bindings.keys, Bindings.keys_zip hcount]
    refine hvalid.opens hcallable.2 hshares.right (.zip hargs hcount hnodup) ?_ ?_
    · intro key text htext houter hkey
      exact (hcallable.1.free_body hself htext).1 houter ((hkeys key).1 hkey)
    · intro use text key hfree htext hnot
      exact .inl ((hkeys key).2 ((hcallable.1.free_body hself htext).2 use hfree hnot))

theorem apart_start : Apart names expr defines ⟨(start names defines).2, (start names defines).2⟩ := by
  have hkeeps : KeepsOuter names expr defines (start names defines).2 := by
    intro frame name text hframe _ _
    have hindex : frame.index = 0 := by
      rw [Store.Holds, size_start] at hframe
      omega
    obtain rfl : frame = startFrame := congrArg FrameId.mk hindex
    rfl
  exact ⟨rfl, hkeeps, hkeeps⟩

theorem shares_start : program.Shares names expr
    ⟨(start names defines).2, (start names defines).2⟩ tree startFrame startFrame := by
  have hheld : (start names defines).2.Holds startFrame := by
    rw [Store.Holds, size_start]
    exact Nat.zero_lt_one
  exact ⟨hheld, hheld, fun use text name _ _ _ => ⟨rfl, rel_lookup_start _ names defines _ name⟩⟩

/-! ### Programs -/

/-- What can be seen of two outcomes is the same: the failure, or the type and the text of the value
and the body of a closure. -/
inductive SameOutcome : Except Failure Value → Except Failure Value → Prop where
  | failure (failure : Failure) : SameOutcome (.error failure) (.error failure)
  | value {first second : Value} (htype : second.typeName = first.typeName)
      (htext : second.text = first.text)
      (hbody : ∀ closure closure', first = .closure closure → second = .closure closure' →
        closure'.body = closure.body) : SameOutcome (.ok first) (.ok second)

theorem sameOutcome_of_values {stores : Stores} {value value' : Value}
    (h : Value.Coupled (program.Callable names expr stores) value value') :
    SameOutcome (.ok value) (.ok value') := by
  cases h with
  | plain hplain => exact .value rfl rfl fun closure _ hclosure => absurd hclosure (hplain closure)
  | closure hcallable =>
    obtain ⟨hparams, hbody, -, -⟩ := hcallable.1
    refine .value rfl ?_ ?_
    · rw [Value.text, Value.text, hparams]
    · rintro closure closure' ⟨⟩ ⟨⟩
      exact hbody

theorem sameOutcome_runProgram (steps : Nat) (hdecoded : Decoded program names expr) (hself : expr.SelfContained)
    (depth : Option Nat) (defines : List (String × Word)) :
    SameOutcome (runProgram steps program names ⟨.lexical, depth⟩ defines)
      (runProgram steps program names ⟨.dynamic, depth⟩ defines) := by
  rcases Relating.runProgram_cases steps (coupling_scopings hdecoded hself depth defines) rfl apart_start
    shares_start with ⟨failure, hleft, hright⟩ | ⟨stores, value, value', hleft, hright, hvalue⟩
  · rw [hleft, hright]
    exact .failure failure
  · rw [hleft, hright]
    exact sameOutcome_of_values hvalue

theorem exists_config_eq (options : Options) (scopingValue : Option String) :
    ∃ depth, ∀ scoping, { options with scoping := some scoping }.config scopingValue =
      .ok ⟨scoping, depth⟩ := by
  obtain ⟨_, depth, _, _, _⟩ := options
  cases depth with
  | default => exact ⟨_, fun scoping => rfl⟩
  | unlimited => exact ⟨_, fun scoping => rfl⟩
  | limit depth => exact ⟨_, fun scoping => rfl⟩

/-- If nothing that is free in a lambda of a program gets a value in the program, then lexical and
dynamic scoping give the same outcome. -/
theorem scopings_agree_on_self_contained_programs (engine : Engine) (text : String)
    (options : Options) (scopingValue : Option String)
    (hself : ∀ expr, Denotes engine.numbers text expr → expr.SelfContained) :
    SameOutcome (runText engine text { options with scoping := some .lexical } scopingValue)
      (runText engine text { options with scoping := some .dynamic } scopingValue) := by
  obtain ⟨depth, hconfig⟩ := exists_config_eq options scopingValue
  rcases runText_cases engine text with
    ⟨error, herror⟩ | ⟨expr, program, names, hdenotes, hdecoded, hrun⟩
  · rw [herror _ _ _ (hconfig .lexical), herror _ _ _ (hconfig .dynamic)]
    exact .failure _
  · rw [hrun _ _ _ (hconfig .lexical), hrun _ _ _ (hconfig .dynamic)]
    exact sameOutcome_runProgram engine.steps hdecoded (hself expr hdenotes) depth options.defines

/-- The text of a call of `x ↦ x` where `x` is bound to another value. -/
def shadowing : String :=
  "\x7b\"Let\":[\x7b\"Identifier\":\"x\"\x7d,1,\x7b\"Application\":[\x7b\"Lambda\":[" ++
    "\x7b\"Parameters\":[\x7b\"Identifier\":\"x\"\x7d]\x7d,\x7b\"Identifier\":\"x\"\x7d]\x7d,5]\x7d]\x7d"

/-- The lambda has no free names, so the dynamic run ends with the value of the lexical one. -/
theorem scopings_agree_on_self_contained_programs_shadowing :
    runText .standard shadowing { Options.default with scoping := some .lexical } none =
        .ok (.int ⟨5, by decide⟩) ∧
      ∃ value, runText .standard shadowing { Options.default with scoping := some .dynamic } none =
          .ok value ∧ value.typeName = "int" ∧ value.text = "5" := by
  have hself : ∀ expr, Denotes Engine.standard.numbers shadowing expr → expr.SelfContained :=
    forall_denotes (by decide +kernel)
  have hlexical : runText .standard shadowing { Options.default with scoping := some .lexical } none =
      .ok (.int ⟨5, by decide⟩) := by decide +kernel
  have hsame := scopings_agree_on_self_contained_programs .standard shadowing .default none hself
  rw [hlexical] at hsame
  generalize hdynamic :
    runText .standard shadowing { Options.default with scoping := some .dynamic } none = outcome
    at hsame
  cases hsame with
  | value htype htext hbody => exact ⟨hlexical, _, rfl, htype, htext⟩

end Program

end FlatScope
