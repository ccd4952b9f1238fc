import FlatScope.Proofs.CommandLine.Values
import Mathlib.Data.List.Forall2
import Mathlib.Data.List.Perm.Basic

/-!
# Groups of arguments

The arguments fall into groups: an option with its value, or an argument alone.  `Settles` says what
groups lead to from left to right: the first that asks for help or is invalid decides, else the
options are what the groups say together (`Collects`).  `parse` does this to the groups of its
arguments, and reads options back from groups that write them in any order (`Writes`).
-/

namespace FlatScope.Options

/-! ### Groups -/

/-- Arguments that belong together. -/
inductive Group where
  | help (flag : String)
  | scoping (mode : Scoping)
  | trace
  | depth (value : String)
  | define (value : String)
  /-- An option that takes a value, at the end of the arguments. -/
  | missing (option : String)
  /-- An argument with a dash in front that is no option. -/
  | unknown (argument : String)
  | input (argument : String)
deriving DecidableEq

namespace Group

def arguments : Group → List String
  | help argument | missing argument | unknown argument | input argument => [argument]
  | scoping .lexical => ["--lexical"]
  | scoping .dynamic => ["--dynamic"]
  | trace => ["--trace"]
  | depth value => ["--max-depth", value]
  | define value => ["--define", value]

def scoping? : Group → Option Scoping
  | scoping mode => some mode
  | _ => none

def depth? : Group → Option String
  | depth value => some value
  | _ => none

def define? : Group → Option String
  | define value => some value
  | _ => none

def input? : Group → Option String
  | input argument => some argument
  | _ => none

/-- The group of an argument that stands alone. -/
def single (argument : String) : Group :=
  if argument = "-h" ∨ argument = "--help" then help argument
  else if argument = "--lexical" then scoping .lexical
  else if argument = "--dynamic" then scoping .dynamic
  else if argument = "--trace" then trace
  else if isDashed argument ∧ argument ≠ "-" then unknown argument
  else input argument

end Group

/-- The groups of arguments.  An option that takes a value takes the next argument, whatever it
is. -/
def groupsOf : List String → List Group
  | [] => []
  | argument :: rest =>
    if argument = "--max-depth" then
      match rest with
      | [] => [.missing argument]
      | value :: rest => .depth value :: groupsOf rest
    else if argument = "--define" then
      match rest with
      | [] => [.missing argument]
      | value :: rest => .define value :: groupsOf rest
    else .single argument :: groupsOf rest

/-! ### What groups lead to -/

/-- A group ends the reading, after the groups before it. -/
inductive Decides (before : List Group) : Group → Except UsageError Command → Prop where
  | help (flag : String) : Decides before (.help flag) (.ok .help)
  | unknown (argument : String) :
      Decides before (.unknown argument) (.error (.unknownOption argument))
  | missing (option : String) : Decides before (.missing option) (.error (.missingValue option))
  | depth {value : String} (h : ∀ choice, ¬ DepthValue value choice) :
      Decides before (.depth value) (.error (.invalidDepth value))
  | define {value : String} (h : ∀ entry, ¬ DefineValue value entry) :
      Decides before (.define value) (.error (.invalidDefine value))
  | extra {argument : String} (h : before.filterMap Group.input? ≠ []) :
      Decides before (.input argument) (.error (.extraArgument argument))

inductive ChoosesDepth : Option String → DepthChoice → Prop where
  | default : ChoosesDepth none .default
  | value {value : String} {choice : DepthChoice} (h : DepthValue value choice) :
      ChoosesDepth (some value) choice

inductive ChoosesInput : List String → Source → Prop where
  | stdin : ChoosesInput [] .stdin
  | single (argument : String) : ChoosesInput [argument] (sourceOf argument)

/-- The options that groups ask for together: the last scoping flag and the last depth count, the
definitions add up in their order, and there is at most one input. -/
structure Collects (groups : List Group) (options : Options) : Prop where
  scoping : options.scoping = (groups.filterMap Group.scoping?).getLast?
  depth : ChoosesDepth (groups.filterMap Group.depth?).getLast? options.depth
  defines : List.Forall₂ DefineValue (groups.filterMap Group.define?) options.defines
  trace : options.trace = true ↔ .trace ∈ groups
  input : ChoosesInput (groups.filterMap Group.input?) options.input

/-- What groups lead to, after the groups before them. -/
inductive Settles : (before groups : List Group) → Except UsageError Command → Prop where
  | collected {before : List Group} {options : Options} (h : Collects before options) :
      Settles before [] (.ok (.run options))
  | decided {before rest : List Group} {group : Group} {result : Except UsageError Command}
      (h : Decides before group result) : Settles before (group :: rest) result
  | next {before rest : List Group} {group : Group} {result : Except UsageError Command}
      (h : ∀ other, ¬ Decides before group other) (hrest : Settles (before ++ [group]) rest result) :
      Settles before (group :: rest) result

variable {before rest groups : List Group} {group : Group} {result : Except UsageError Command}
  {options other : Options}

theorem Decides.unique {result' : Except UsageError Command} (h : Decides before group result)
    (h' : Decides before group result') : result = result' := by
  cases h <;> cases h' <;> rfl

theorem ChoosesDepth.unique {value : Option String} {first second : DepthChoice}
    (h : ChoosesDepth value first) (h' : ChoosesDepth value second) : first = second := by
  cases h with
  | default =>
    cases h'
    rfl
  | value h =>
    obtain ⟨⟩ | h' := h'
    exact Except.ok.inj ((parseDepth_eq_ok_iff.2 h).symm.trans (parseDepth_eq_ok_iff.2 h'))

theorem defines_unique {values : List String} {first second : List (String × Word)}
    (h : List.Forall₂ DefineValue values first) (h' : List.Forall₂ DefineValue values second) :
    first = second := by
  induction h generalizing second with
  | nil =>
    cases h'
    rfl
  | cons hentry _ ih =>
    obtain ⟨⟩ | ⟨hentry', hrest'⟩ := h'
    rw [ih hrest', Except.ok.inj
      ((parseDefine_eq_ok_iff.2 hentry).symm.trans (parseDefine_eq_ok_iff.2 hentry'))]

theorem Collects.unique (h : Collects groups options) (h' : Collects groups other) :
    options = other := by
  obtain ⟨scoping, depth, defines, trace, input⟩ := options
  obtain ⟨scoping', depth', defines', trace', input'⟩ := other
  obtain rfl : scoping = scoping' := h.scoping.trans h'.scoping.symm
  obtain rfl : depth = depth' := h.depth.unique h'.depth
  obtain rfl : defines = defines' := defines_unique h.defines h'.defines
  obtain rfl : trace = trace' := Bool.eq_iff_iff.2 (h.trace.trans h'.trace.symm)
  have hinput : input = input' := by
    have hfirst := h.input
    have hsecond := h'.input
    generalize groups.filterMap Group.input? = inputs at hfirst hsecond
    cases hfirst <;> cases hsecond <;> rfl
  rw [hinput]

theorem Settles.unique {result' : Except UsageError Command} (h : Settles before groups result)
    (h' : Settles before groups result') : result = result' := by
  induction h with
  | collected h =>
    obtain ⟨h'⟩ := h'
    rw [h.unique h']
  | decided h =>
    rcases h' with _ | h' | ⟨h', -⟩
    · exact h.unique h'
    · exact absurd h (h' _)
  | next h _ ih =>
    rcases h' with _ | h' | ⟨-, hrest'⟩
    · exact absurd h' (h _)
    · exact ih hrest'

/-! ### Reading the groups -/

theorem filterMap_concat_some {α : Type} (f : Group → Option α) (group : Group) {item : α}
    (h : f group = some item) : (before ++ [group]).filterMap f = before.filterMap f ++ [item] := by
  simp [h]

theorem filterMap_concat_none {α : Type} {f : Group → Option α} (group : Group)
    (h : f group = none) : (before ++ [group]).filterMap f = before.filterMap f := by
  simp [h]

theorem trace_mem_concat_iff (group : Group) (h : .trace ≠ group) :
    .trace ∈ before ++ [group] ↔ .trace ∈ before := by
  simp [h]

/-- The state of the reading after groups of which none decides. -/
structure Reached (before : List Group) (options : Options) (input : Option Source) : Prop where
  collects : Collects before { options with input := input.getD .stdin }
  isSome_iff : input.isSome = true ↔ before.filterMap Group.input? ≠ []

namespace Reached

variable {input : Option Source}

theorem start : Reached [] default none :=
  ⟨⟨rfl, .default, .nil, by simp [default], .stdin⟩, by simp⟩

theorem scoping (h : Reached before options input) (mode : Scoping) :
    Reached (before ++ [.scoping mode]) { options with scoping := some mode } input := by
  obtain ⟨⟨-, hdepth, hdefines, htrace, hinput⟩, hisSome⟩ := h
  rw [← filterMap_concat_none (.scoping mode) rfl] at hdepth hdefines hinput hisSome
  rw [← trace_mem_concat_iff (.scoping mode) nofun] at htrace
  refine ⟨⟨?_, hdepth, hdefines, htrace, hinput⟩, hisSome⟩
  rw [filterMap_concat_some Group.scoping? (.scoping mode) rfl, List.getLast?_concat]

theorem trace (h : Reached before options input) :
    Reached (before ++ [.trace]) { options with trace := true } input := by
  obtain ⟨⟨hscoping, hdepth, hdefines, -, hinput⟩, hisSome⟩ := h
  rw [← filterMap_concat_none .trace rfl] at hscoping hdepth hdefines hinput hisSome
  exact ⟨⟨hscoping, hdepth, hdefines, by simp, hinput⟩, hisSome⟩

theorem depth (h : Reached before options input) {value : String} {choice : DepthChoice}
    (hvalue : DepthValue value choice) :
    Reached (before ++ [.depth value]) { options with depth := choice } input := by
  obtain ⟨⟨hscoping, -, hdefines, htrace, hinput⟩, hisSome⟩ := h
  rw [← filterMap_concat_none (.depth value) rfl] at hscoping hdefines hinput hisSome
  rw [← trace_mem_concat_iff (.depth value) nofun] at htrace
  refine ⟨⟨hscoping, ?_, hdefines, htrace, hinput⟩, hisSome⟩
  rw [filterMap_concat_some Group.depth? (.depth value) rfl, List.getLast?_concat]
  exact .value hvalue

theorem define (h : Reached before options input) {value : String} {entry : String × Word}
    (hvalue : DefineValue value entry) :
    Reached (before ++ [.define value]) { options with defines := options.defines ++ [entry] }
      input := by
  obtain ⟨⟨hscoping, hdepth, hdefines, htrace, hinput⟩, hisSome⟩ := h
  rw [← filterMap_concat_none (.define value) rfl] at hscoping hdepth hinput hisSome
  rw [← trace_mem_concat_iff (.define value) nofun] at htrace
  refine ⟨⟨hscoping, hdepth, ?_, htrace, hinput⟩, hisSome⟩
  rw [filterMap_concat_some Group.define? (.define value) rfl]
  exact List.rel_append hdefines (.cons hvalue .nil)

theorem source (h : Reached before options none) (argument : String) :
    Reached (before ++ [.input argument]) options (some (sourceOf argument)) := by
  obtain ⟨⟨hscoping, hdepth, hdefines, htrace, -⟩, hisSome⟩ := h
  rw [← filterMap_concat_none (.input argument) rfl] at hscoping hdepth hdefines
  rw [← trace_mem_concat_iff (.input argument) nofun] at htrace
  have hnone : before.filterMap Group.input? = [] := by simpa using hisSome
  have hinputs : (before ++ [Group.input argument]).filterMap Group.input? = [argument] := by
    rw [filterMap_concat_some Group.input? (.input argument) rfl, hnone, List.nil_append]
  refine ⟨⟨hscoping, hdepth, hdefines, htrace, ?_⟩, ?_⟩
  · rw [hinputs]
    exact .single argument
  · rw [hinputs]
    simp

end Reached

section Reading

variable {input : Option Source} {args : List String}

/-- The groups of the remaining arguments lead to what the reading of them gives. -/
def Reads (args : List String) : Prop :=
  ∀ before options input, Reached before options input →
    Settles before (groupsOf args) (parseFrom options input args)

theorem Reads.depth (hrest : Reads args) (value : String) : Reads ("--max-depth" :: value :: args) := by
  intro before options input h
  have hgroups : groupsOf ("--max-depth" :: value :: args) = .depth value :: groupsOf args := rfl
  rw [hgroups]
  by_cases hvalue : ∃ choice, DepthValue value choice
  · obtain ⟨choice, hvalue⟩ := hvalue
    have hparse : parseFrom options input ("--max-depth" :: value :: args) =
        parseFrom { options with depth := choice } input args := by
      rw [parseFrom]
      simp [parseDepth_eq_ok_iff.2 hvalue]
    rw [hparse]
    refine .next (fun other hdecides => ?_) (hrest _ _ _ (h.depth hvalue))
    obtain ⟨⟩ | ⟨⟩ | ⟨⟩ | hinvalid := hdecides
    exact hinvalid choice hvalue
  · have hinvalid := not_exists.1 hvalue
    have hparse : parseFrom options input ("--max-depth" :: value :: args) =
        .error (.invalidDepth value) := by
      rw [parseFrom]
      simp [parseDepth_of_invalid hinvalid]
    rw [hparse]
    exact .decided (.depth hinvalid)

theorem Reads.define (hrest : Reads args) (value : String) : Reads ("--define" :: value :: args) := by
  intro before options input h
  have hgroups : groupsOf ("--define" :: value :: args) = .define value :: groupsOf args := rfl
  rw [hgroups]
  by_cases hvalue : ∃ entry, DefineValue value entry
  · obtain ⟨entry, hvalue⟩ := hvalue
    have hparse : parseFrom options input ("--define" :: value :: args) =
        parseFrom { options with defines := options.defines ++ [entry] } input args := by
      rw [parseFrom]
      simp [parseDefine_eq_ok_iff.2 hvalue]
    rw [hparse]
    refine .next (fun other hdecides => ?_) (hrest _ _ _ (h.define hvalue))
    obtain ⟨⟩ | ⟨⟩ | ⟨⟩ | ⟨⟩ | hinvalid := hdecides
    exact hinvalid entry hvalue
  · have hinvalid := not_exists.1 hvalue
    have hparse : parseFrom options input ("--define" :: value :: args) =
        .error (.invalidDefine value) := by
      rw [parseFrom]
      simp [parseDefine_of_invalid hinvalid]
    rw [hparse]
    exact .decided (.define hinvalid)

theorem groupsOf_single {argument : String} (hdepth : argument ≠ "--max-depth")
    (hdefine : argument ≠ "--define") (args : List String) :
    groupsOf (argument :: args) = .single argument :: groupsOf args := by
  cases args <;> simp [groupsOf, hdepth, hdefine]

theorem Reads.single (hrest : Reads args) {argument : String} (hdepth : argument ≠ "--max-depth")
    (hdefine : argument ≠ "--define") : Reads (argument :: args) := by
  intro before options input h
  rw [groupsOf_single hdepth hdefine, Group.single]
  unfold parseFrom
  by_cases hhelp : argument = "-h" ∨ argument = "--help"
  · rw [if_pos hhelp, if_pos hhelp]
    exact .decided (.help argument)
  rw [if_neg hhelp, if_neg hhelp]
  by_cases hlexical : argument = "--lexical"
  · rw [if_pos hlexical, if_pos hlexical]
    exact .next nofun (hrest _ _ _ (h.scoping .lexical))
  rw [if_neg hlexical, if_neg hlexical]
  by_cases hdynamic : argument = "--dynamic"
  · rw [if_pos hdynamic, if_pos hdynamic]
    exact .next nofun (hrest _ _ _ (h.scoping .dynamic))
  rw [if_neg hdynamic, if_neg hdynamic]
  by_cases htrace : argument = "--trace"
  · rw [if_pos htrace, if_pos htrace]
    exact .next nofun (hrest _ _ _ h.trace)
  rw [if_neg htrace, if_neg htrace, if_neg hdepth, if_neg hdefine]
  by_cases hdashed : isDashed argument ∧ argument ≠ "-"
  · rw [if_pos hdashed, if_pos hdashed]
    exact .decided (.unknown argument)
  rw [if_neg hdashed, if_neg hdashed]
  cases input with
  | some source => exact .decided (.extra (h.isSome_iff.1 rfl))
  | none =>
    refine .next (fun other hdecides => ?_) (hrest _ _ _ (h.source argument))
    obtain ⟨⟩ | ⟨⟩ | ⟨⟩ | ⟨⟩ | ⟨⟩ | hextra := hdecides
    exact absurd (h.isSome_iff.2 hextra) (by simp)

theorem reads (args : List String) : Reads args := by
  fun_induction groupsOf args with
  | case1 => exact fun before options input h => .collected h.collects
  | case2 => exact fun before options input h => .decided (.missing _)
  | case3 value rest ih => exact ih.depth value
  | case4 => exact fun before options input h => .decided (.missing _)
  | case5 value rest _ ih => exact ih.define value
  | case6 argument rest hdepth hdefine ih => exact ih.single hdepth hdefine

end Reading

theorem parse_eq_iff_settles (args : List String) :
    parse args = result ↔ Settles [] (groupsOf args) result := by
  have hsettles : Settles [] (groupsOf args) (parse args) := reads args [] default none .start
  exact ⟨fun h => h ▸ hsettles, fun h => hsettles.unique h⟩

theorem flatMap_groupsOf (args : List String) : (groupsOf args).flatMap Group.arguments = args := by
  have hsingle (argument : String) : (Group.single argument).arguments = [argument] := by
    unfold Group.single
    split_ifs <;> simp_all [Group.arguments]
  fun_induction groupsOf args with
  | case1 => rfl
  | case2 => rfl
  | case3 value rest ih => simp [Group.arguments, ih]
  | case4 => rfl
  | case5 value rest _ ih => simp [Group.arguments, ih]
  | case6 argument rest hdepth hdefine ih => simp [hsingle, ih]

/-! ### Writing options as groups -/

def depthText? : DepthChoice → Option String
  | .default => none
  | .unlimited => some "0"
  | .limit depth => some (toString depth)

/-- Standard input can be left out or written as a dash. -/
inductive WritesInput : Source → Option String → Prop where
  | absent : WritesInput .stdin none
  | dash : WritesInput .stdin (some "-")
  | file (path : String) : WritesInput (.file path) (some path)

/-- A group for each thing that is chosen. -/
def written (options : Options) (input : Option String) : List Group :=
  options.scoping.toList.map .scoping ++ (depthText? options.depth).toList.map .depth ++
    (if options.trace then [.trace] else []) ++ input.toList.map .input ++
    options.defines.map fun entry => .define (definition entry)

/-- Groups write options, in any order in which the definitions keep theirs. -/
structure Writes (options : Options) (groups : List Group) : Prop where
  perm : ∃ input, WritesInput options.input input ∧ groups.Perm (written options input)
  order : groups.filterMap Group.define? = options.defines.map definition

/-- Options that arguments can express. -/
structure Writable (options : Options) : Prop where
  input : ∀ path, options.input = .file path → isDashed path = false
  depth : ∀ depth, options.depth = .limit depth → depth ≠ 0 ∧ depth ≤ maxDepth
  defines : ∀ entry ∈ options.defines,
    entry.1 ≠ "" ∧ Text.IsTrimmed entry.1 ∧ '=' ∉ entry.1.toList

/-- A group that is valid by itself. -/
inductive Group.Valid : Group → Prop where
  | scoping (mode : Scoping) : Valid (.scoping mode)
  | trace : Valid .trace
  | depth {value : String} {choice : DepthChoice} (h : DepthValue value choice) :
      Valid (.depth value)
  | define {value : String} {entry : String × Word} (h : DefineValue value entry) :
      Valid (.define value)
  | input {argument : String} (h : isDashed argument = false ∨ argument = "-") :
      Valid (.input argument)

theorem groupsOf_append (h : group.Valid) (args : List String) :
    groupsOf (group.arguments ++ args) = group :: groupsOf args := by
  cases h with
  | scoping mode => cases mode <;> exact groupsOf_single (by decide) (by decide) args
  | trace => exact groupsOf_single (by decide) (by decide) args
  | depth => rfl
  | define => rfl
  | @input argument h =>
    have hne {option : String} (hoption : isDashed option = true ∧ option ≠ "-") :
        argument ≠ option := by
      rintro rfl
      rcases h with hdashed | hdash
      · rw [hoption.1] at hdashed
        cases hdashed
      · exact hoption.2 hdash
    have hsingle : Group.single argument = .input argument := by
      have hdashed : ¬ (isDashed argument ∧ argument ≠ "-") := fun hdashed => hne hdashed rfl
      rw [Group.single, if_neg, if_neg, if_neg, if_neg, if_neg hdashed]
      · exact hne (by decide)
      · exact hne (by decide)
      · exact hne (by decide)
      · exact not_or.2 ⟨hne (by decide), hne (by decide)⟩
    rw [← hsingle]
    simp only [hsingle, Group.arguments, List.singleton_append]
    rw [groupsOf_single (hne (by decide)) (hne (by decide)), hsingle]

theorem groupsOf_flatMap (h : ∀ group ∈ groups, group.Valid) :
    groupsOf (groups.flatMap Group.arguments) = groups := by
  induction groups with
  | nil => rfl
  | cons group rest ih =>
    obtain ⟨hgroup, hrest⟩ := List.forall_mem_cons.1 h
    rw [List.flatMap_cons, groupsOf_append hgroup, ih hrest]

/-- Valid groups with at most one input among them lead to the options that they ask for. -/
theorem settles_of_valid (h : ∀ group ∈ groups, group.Valid)
    (hinputs : ((before ++ groups).filterMap Group.input?).length ≤ 1)
    (hcollects : Collects (before ++ groups) options) :
    Settles before groups (.ok (.run options)) := by
  induction groups generalizing before with
  | nil =>
    rw [List.append_nil] at hcollects
    exact .collected hcollects
  | cons group rest ih =>
    obtain ⟨hgroup, hrest⟩ := List.forall_mem_cons.1 h
    rw [List.append_cons] at hcollects
    refine .next (fun result hdecides => ?_) (ih hrest ?_ hcollects)
    · cases hdecides with
      | help | unknown | missing => cases hgroup
      | depth hinvalid =>
        obtain ⟨⟩ | ⟨⟩ | hvalue := hgroup
        exact hinvalid _ hvalue
      | define hinvalid =>
        obtain ⟨⟩ | ⟨⟩ | ⟨⟩ | hvalue := hgroup
        exact hinvalid _ hvalue
      | extra hinput =>
        have hpos := List.length_pos_of_ne_nil hinput
        rw [List.filterMap_append, List.length_append, List.filterMap_cons] at hinputs
        simp only [Group.input?, List.length_cons] at hinputs
        omega
    · rwa [← List.append_cons]

theorem eq_toList_of_perm {α : Type} {items : List α} {item : Option α}
    (h : items.Perm item.toList) : items = item.toList := by
  cases item with
  | none => exact List.perm_nil.1 h
  | some item => exact List.perm_singleton.1 h

theorem choosesDepth_depthText? (h : options.Writable) :
    ChoosesDepth (depthText? options.depth) options.depth := by
  have hlimit := h.depth
  cases hdepth : options.depth with
  | default => exact .default
  | unlimited => exact .value (.unlimited (Text.unsigned_toString 0))
  | limit depth =>
    obtain ⟨hpos, hmax⟩ := hlimit depth hdepth
    exact .value (.limit (Text.unsigned_toString depth) (Nat.pos_of_ne_zero hpos) hmax)

theorem Writes.valid (hwrites : Writes options groups) (h : options.Writable) :
    ∀ group ∈ groups, group.Valid := by
  obtain ⟨input, hinput, hperm⟩ := hwrites.perm
  intro group hgroup
  have hmem := hperm.mem_iff.1 hgroup
  simp only [written, List.mem_append, List.mem_map, Option.mem_toList] at hmem
  rcases hmem with (((⟨mode, -, rfl⟩ | ⟨value, hvalue, rfl⟩) | htrace) | ⟨argument, hargument, rfl⟩) |
    ⟨entry, hentry, rfl⟩
  · exact .scoping mode
  · have hchooses := choosesDepth_depthText? h
    rw [hvalue] at hchooses
    obtain ⟨⟩ | hvalue := hchooses
    exact .depth hvalue
  · split at htrace
    · rw [List.mem_singleton.1 htrace]
      exact .trace
    · cases htrace
  · have hpath := h.input
    generalize options.input = source at hinput hpath
    cases hinput with
    | absent => cases hargument
    | dash =>
      cases hargument
      exact .input (.inr rfl)
    | file path =>
      cases hargument
      exact .input (.inl (hpath _ rfl))
  · obtain ⟨hne, htrimmed, hequals⟩ := h.defines entry hentry
    exact .define (defineValue_definition hne htrimmed hequals)

theorem forall₂_definition {entries : List (String × Word)}
    (h : ∀ entry ∈ entries, DefineValue (definition entry) entry) :
    List.Forall₂ DefineValue (entries.map definition) entries := by
  induction entries with
  | nil => exact .nil
  | cons entry rest ih =>
    obtain ⟨hentry, hrest⟩ := List.forall_mem_cons.1 h
    exact .cons hentry (ih hrest)

theorem filterMap_written (options : Options) (input : Option String) :
    (written options input).filterMap Group.scoping? = options.scoping.toList ∧
      (written options input).filterMap Group.depth? = (depthText? options.depth).toList ∧
      (written options input).filterMap Group.input? = input.toList := by
  unfold written
  simp only [List.filterMap_append, List.filterMap_map, Function.comp_def, Group.scoping?,
    Group.depth?, Group.input?]
  cases options.trace <;> simp [List.filterMap_cons, Group.scoping?, Group.depth?, Group.input?]

/-- Groups that write options ask for these options, with at most one input. -/
theorem Writes.collects (hwrites : Writes options groups) (h : options.Writable) :
    Collects groups options ∧ (groups.filterMap Group.input?).length ≤ 1 := by
  obtain ⟨input, hinput, hperm⟩ := hwrites.perm
  obtain ⟨hscoping, hdepth, hinputs⟩ := filterMap_written options input
  replace hscoping := eq_toList_of_perm (hscoping ▸ hperm.filterMap Group.scoping?)
  replace hdepth := eq_toList_of_perm (hdepth ▸ hperm.filterMap Group.depth?)
  replace hinputs := eq_toList_of_perm (hinputs ▸ hperm.filterMap Group.input?)
  refine ⟨⟨?_, ?_, ?_, ?_, ?_⟩, ?_⟩
  · rw [hscoping]
    cases options.scoping <;> rfl
  · have hlast : (depthText? options.depth).toList.getLast? = depthText? options.depth := by
      cases depthText? options.depth <;> rfl
    rw [hdepth, hlast]
    exact choosesDepth_depthText? h
  · rw [hwrites.order]
    refine forall₂_definition fun entry hentry => ?_
    obtain ⟨hne, htrimmed, hequals⟩ := h.defines entry hentry
    exact defineValue_definition hne htrimmed hequals
  · rw [hperm.mem_iff]
    cases htrace : options.trace <;> simp [written, htrace]
  · have hpath := h.input
    generalize options.input = source at hinput hpath ⊢
    rw [hinputs]
    cases hinput with
    | absent => exact .stdin
    | dash => exact .single "-"
    | file path =>
      have hfile : sourceOf path = .file path := by
        refine if_neg ?_
        rintro rfl
        cases hpath "-" rfl
      exact hfile ▸ .single path
  · rw [hinputs]
    cases input <;> simp

/-- Arguments are read in groups from left to right: the first group that asks for help or is invalid
decides, and otherwise the groups together say what the options are.  Options that are written as
groups, in any order that keeps the definitions in theirs, are read back. -/
theorem arguments_are_read_in_groups :
    (∀ args : List String, (groupsOf args).flatMap Group.arguments = args ∧
      ∀ result, parse args = result ↔ Settles [] (groupsOf args) result) ∧
    ∀ (options : Options) (groups : List Group), options.Writable → Writes options groups →
      parse (groups.flatMap Group.arguments) = .ok (.run options) := by
  refine ⟨fun args => ⟨flatMap_groupsOf args, fun result => parse_eq_iff_settles args⟩, ?_⟩
  intro options groups hwritable hwrites
  have hvalid := hwrites.valid hwritable
  obtain ⟨hcollects, hinputs⟩ := hwrites.collects hwritable
  rw [parse_eq_iff_settles, groupsOf_flatMap hvalid]
  exact settles_of_valid hvalid hinputs hcollects

/-- Options in which everything is chosen; a name among them looks like an option. -/
def fullOptions : Options :=
  ⟨some .dynamic, .limit 64, [("x", ⟨10, by decide⟩), ("--help", ⟨-5, by decide⟩)], true,
    .file "prog.json"⟩

def fullGroups : List Group :=
  [.define "x=10", .input "prog.json", .trace, .define "--help=-5", .depth "64", .scoping .dynamic]

theorem arguments_are_read_in_groups_full :
    fullOptions.Writable ∧ Writes fullOptions fullGroups ∧
      parse ["--define", "x=10", "prog.json", "--trace", "--define", "--help=-5", "--max-depth", "64",
        "--dynamic"] = .ok (.run fullOptions) ∧
      Settles [] [.define "--help", .unknown "--bogus"] (parse ["--define", "--help", "--bogus"]) := by
  have hwritable : fullOptions.Writable := by
    refine ⟨?_, ?_, ?_⟩
    · rintro path ⟨⟩
      decide
    · rintro depth ⟨⟩
      decide
    · have hblank : Text.isBlank 'x' = false ∧ Text.isBlank '-' = false ∧
          Text.isBlank 'p' = false := by decide
      simp [fullOptions, Text.IsTrimmed, hblank]
  have hwrites : Writes fullOptions fullGroups := by
    refine ⟨⟨some "prog.json", .file _, ?_⟩, ?_⟩
    · decide
    · decide
  refine ⟨hwritable, hwrites, ?_, ?_⟩
  · exact arguments_are_read_in_groups.2 fullOptions fullGroups hwritable hwrites
  · exact ((arguments_are_read_in_groups.1 ["--define", "--help", "--bogus"]).2 _).1 rfl

end FlatScope.Options
