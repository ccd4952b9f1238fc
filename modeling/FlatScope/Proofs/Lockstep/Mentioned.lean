import FlatScope.Proofs.Lockstep.InStep

/-!
# Names that a program does not mention

Frames are copied with everything that they bind, so a definition is carried along through the whole
run.  It plays a part only where the program refers to its name or assigns to it: two runs whose first
frames agree on the names that the program mentions are the same.
-/

namespace FlatScope.Program

/-- Two stores with the same frames that agree on the names which a program mentions. -/
structure Agrees (program : Program) (names : NameTable) (expr : Expr) (stores : Stores) :
    Prop where
  size : stores.right.frames.size = stores.left.frames.size
  closures : stores.right.closures = stores.left.closures
  lookup : ∀ frame name text, names.text? name = some text → text ∈ expr.mentions →
    Option.Rel (Value.Coupled fun first second =>
        first = second ∧ program.SameLambda names expr first second)
      (stores.left.lookup frame name) (stores.right.lookup frame name)

/-- Both runs are in the same frame, and give the same closures. -/
def agreement (program : Program) (names : NameTable) (expr : Expr) :
    Relating program names expr where
  valid := program.Agrees names expr
  closures _ first second := first = second ∧ program.SameLambda names expr first second
  fits _ _ frame frame' := frame = frame'

variable {program : Program} {names : NameTable} {expr : Expr} {stores : Stores}
  {frame : FrameId} {name : Name} {text : String} {value value' : Value}

/-- The relation changes with the stores only in that they agree. -/
theorem Agrees.leads (h : program.Agrees names expr stores) (before : Stores) :
    (program.agreement names expr).Leads before stores :=
  ⟨h, fun _ _ h => h, fun _ _ _ h => h⟩

theorem Agrees.newClosure (h : program.Agrees names expr stores) (params : List Name)
    (body : NodeId) (frame : FrameId) :
    program.Agrees names expr (stores.newClosure params body frame frame) :=
  ⟨h.size, congrArg (· + 1) h.closures, h.lookup⟩

theorem Agrees.extend {added added' : Bindings} (h : program.Agrees names expr stores)
    (base : FrameId)
    (hadded : Bindings.Paired ((program.agreement names expr).closures stores) added added') :
    program.Agrees names expr (stores.extend base base added added') ∧
      (stores.left.extend base added).1 = (stores.right.extend base added').1 := by
  rcases hadded.nil_or_ne_nil with ⟨rfl, rfl⟩ | ⟨hne, hne'⟩
  · exact ⟨h, rfl⟩
  · obtain ⟨hframe, hsize, hclosures⟩ := Setting.extend_of_ne_nil stores.left base hne
    obtain ⟨hframe', hsize', hclosures'⟩ := Setting.extend_of_ne_nil stores.right base hne'
    refine ⟨⟨?_, ?_, fun frame name text htext hmentioned => ?_⟩, ?_⟩
    · exact hsize'.trans ((congrArg (· + 1) h.size).trans hsize.symm)
    · exact hclosures'.trans (h.closures.trans hclosures.symm)
    · have hnodup' := hadded.sameKeys ▸ hadded.nodup
      simp only [Stores.extend]
      rw [Setting.lookup_extend base frame hne hadded.nodup,
        Setting.lookup_extend base frame hne' hnodup', h.size]
      split
      · exact rel_or (hadded.values name) (h.lookup base name text htext hmentioned)
      · exact h.lookup frame name text htext hmentioned
    · rw [hframe, hframe', h.size]

theorem Agrees.contains_eq (h : program.Agrees names expr stores)
    (htext : names.text? name = some text) (hmentioned : text ∈ expr.mentions) :
    stores.right.contains frame name = stores.left.contains frame name :=
  isSome_eq_of_rel (h.lookup frame name text htext hmentioned)

theorem Agrees.reassign (h : program.Agrees names expr stores)
    (htext : names.text? name = some text) (hmentioned : text ∈ expr.mentions)
    (hvalue : (program.agreement names expr).values stores value value')
    (hbound : stores.left.contains frame name = true) :
    program.Agrees names expr (stores.reassign frame frame name value value') := by
  have hbound' : stores.right.contains frame name = true :=
    (h.contains_eq htext hmentioned).trans hbound
  refine ⟨?_, h.closures, fun other key word hword hmention => ?_⟩
  · simp only [Stores.reassign, Store.reassign, Setting.size_update, h.size]
  · simp only [Stores.reassign]
    rw [Store.lookup_reassign value other key hbound, Store.lookup_reassign value' other key hbound']
    split
    · exact .some hvalue
    · exact h.lookup other key word hword hmention

theorem opens_agreement {base : FrameId} {added added' : Bindings} (body : Expr)
    (h : program.Agrees names expr stores)
    (hadded : Bindings.Paired ((program.agreement names expr).closures stores) added added') :
    (program.agreement names expr).Opens stores base base added added' body :=
  ⟨(h.extend base hadded).1.leads stores, (h.extend base hadded).2⟩

/-- Runs with different definitions are coupled, whatever these are. -/
theorem coupling_agreement (hdecoded : Decoded program names expr) (config : Config)
    (defines defines' : List (String × Word)) :
    (program.agreement names expr).Coupling (program.startSetting names config defines)
      (program.startSetting names config defines') where
  decoded := hdecoded
  code_left := rfl
  code_right := rfl
  names_left := keptBy_start names defines
  names_right := keptBy_start names defines'
  sameLambda h := h.2
  direct h _ := h
  ident := by
    rintro stores name text frame _ hvalid htext hpart rfl
    exact hvalid.lookup frame name text htext (Expr.mem_mentions hpart (List.mem_singleton_self text))
  lambda := by
    rintro stores params body frame _ hvalid hsame rfl
    refine ⟨(hvalid.newClosure params body frame).leads stores, ?_, hsame⟩
    simp only [Store.newClosure, hvalid.closures]
  letIn := by
    rintro stores name text init body frame _ value value' hvalid htext hpart rfl hvalue
    exact opens_agreement body hvalid (.single name hvalue)
  assign := by
    rintro stores name text init frame _ value value' hvalid htext hpart rfl hvalue
    have hmentioned := Expr.mem_mentions hpart (List.mem_singleton_self text)
    refine ⟨hvalid.contains_eq htext hmentioned, fun hbound => ?_⟩
    exact (hvalid.reassign htext hmentioned hvalue hbound).leads stores
  call := by
    rintro stores caller first _ frame _ args args' hvalid rfl ⟨rfl, hsame⟩ hargs hcount hnodup
    exact opens_agreement _ hvalid (.zip hargs hcount hnodup)

/-! ### Programs -/

theorem agrees_start {defines defines' : List (String × Word)}
    (h : ∀ text ∈ expr.mentions, startValue? defines' text = startValue? defines text) :
    program.Agrees names expr ⟨(start names defines).2, (start names defines').2⟩ := by
  refine ⟨?_, ?_, fun frame name text htext hmentioned => ?_⟩
  · rw [size_start, size_start]
  · rw [closures_start, closures_start]
  · by_cases hframe : frame = startFrame
    · subst hframe
      have hleft := lookup_start (keptBy_start names defines name text htext)
      have hright := lookup_start (keptBy_start names defines' name text htext)
      have hsame : (start names defines').2.lookup startFrame name =
          (start names defines).2.lookup startFrame name :=
        hright.trans ((h text hmentioned).trans hleft.symm)
      simp only [hsame]
      exact rel_lookup_start _ names defines startFrame name
    · simp only [lookup_start_of_ne name hframe]
      exact .none

theorem runProgram_eq_of_agree (steps : Nat) {defines defines' : List (String × Word)} {config : Config}
    (hdecoded : Decoded program names expr)
    (h : ∀ text ∈ expr.mentions, startValue? defines' text = startValue? defines text) :
    runProgram steps program names config defines' =
      runProgram steps program names config defines := by
  rcases Relating.runProgram_cases steps (coupling_agreement hdecoded config defines defines') rfl
    (agrees_start h) rfl with ⟨failure, hleft, hright⟩ | ⟨stores, value, value', hleft, hright, hvalue⟩
  · rw [hleft, hright]
  · rw [hleft, hright]
    cases hvalue with
    | plain => rfl
    | closure hclosures => rw [hclosures.1]

theorem startValue?_insert {text key : String} (hkey : text ≠ key) (word : Word)
    (before after : List (String × Word)) :
    startValue? (before ++ (key, word) :: after) text = startValue? (before ++ after) text := by
  have hbeq : (text == key) = false := by simpa using hkey
  simp [startValue?, startEntries, List.lookup_append, List.lookup_cons, hbeq]

/-- Two sets of definitions give a program the same outcome if the first frames that they lead to
agree on every name to which the program refers or assigns.  So a definition of any other name can be
left out. -/
theorem unmentioned_definitions_are_irrelevant (engine : Engine) (text : String) (options : Options)
    (scopingValue : Option String) :
    (∀ defines, (∀ expr, Denotes engine.numbers text expr → ∀ name ∈ expr.mentions,
        startValue? defines name = startValue? options.defines name) →
      runText engine text { options with defines := defines } scopingValue =
        runText engine text options scopingValue) ∧
    ∀ before name word after, options.defines = before ++ (name, word) :: after →
      (∀ expr, Denotes engine.numbers text expr → name ∉ expr.mentions) →
      runText engine text { options with defines := before ++ after } scopingValue =
        runText engine text options scopingValue := by
  have hagree : ∀ defines, (∀ expr, Denotes engine.numbers text expr → ∀ name ∈ expr.mentions,
        startValue? defines name = startValue? options.defines name) →
      runText engine text { options with defines := defines } scopingValue =
        runText engine text options scopingValue := by
    intro defines hmentions
    have hsame : { options with defines := defines }.config scopingValue =
        options.config scopingValue := rfl
    cases hconfig : options.config scopingValue with
    | error error => simp only [runText, hsame, hconfig]
    | ok config =>
      have hconfig' := hsame.trans hconfig
      rcases runText_cases engine text with
        ⟨error, herror⟩ | ⟨expr, program, names, hdenotes, hdecoded, hrun⟩
      · exact (herror _ _ _ hconfig').trans (herror _ _ _ hconfig).symm
      · rw [hrun _ _ _ hconfig, hrun _ _ _ hconfig']
        exact runProgram_eq_of_agree engine.steps hdecoded (hmentions expr hdenotes)
  refine ⟨hagree, fun before name word after hdefines hunmentioned => ?_⟩
  refine hagree (before ++ after) fun expr hdenotes other hother => ?_
  have hne : other ≠ name := fun heq => hunmentioned expr hdenotes (heq ▸ hother)
  rw [hdefines, startValue?_insert hne]

/-- The text of a reference to `y`. -/
def referToY : String := "\x7b\"Identifier\":\"y\"\x7d"

/-- A definition of `z` plays no part, before or after the definition of `y`. -/
theorem unmentioned_definitions_are_irrelevant_referToY :
    runText .standard referToY
        { Options.default with defines := [("z", ⟨4, by decide⟩), ("y", ⟨5, by decide⟩)] } none =
      .ok (.int ⟨5, by decide⟩) := by
  have hrun : runText .standard referToY
      { Options.default with defines := [("y", ⟨5, by decide⟩)] } none =
      .ok (.int ⟨5, by decide⟩) := by decide +kernel
  have hunmentioned : ∀ expr, Denotes Engine.standard.numbers referToY expr → "z" ∉ expr.mentions :=
    forall_denotes (by decide +kernel)
  have hsame := (unmentioned_definitions_are_irrelevant .standard referToY
    { Options.default with defines := [("z", ⟨4, by decide⟩), ("y", ⟨5, by decide⟩)] } none).2
    [] "z" ⟨4, by decide⟩ [("y", ⟨5, by decide⟩)] rfl hunmentioned
  exact hsame.symm.trans hrun

end FlatScope.Program
