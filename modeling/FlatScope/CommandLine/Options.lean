import FlatScope.Config
import FlatScope.Text.Numeral
import FlatScope.Word

/-!
# Command-line options

`Options.parse` reads arguments from left to right.  A help flag and an invalid argument end the
reading; a later scoping flag or depth replaces an earlier one; definitions add up; there is at most
one input.
-/

namespace FlatScope

def usageLines : List String :=
  ["Usage: cinder [OPTIONS] [FILE]",
   "",
   "Evaluate a JSON-encoded Cinder program read from FILE, or stdin when FILE",
   "is absent or `-`.",
   "",
   "Options:",
   "  --lexical           Resolve free variables where a lambda was defined (default)",
   "  --dynamic           Resolve free variables where a lambda is called",
   "  --max-depth <N>     Limit active closure calls to N (0 = unlimited)",
   "  --define NAME=INT   Bind NAME to an integer before evaluation (repeatable)",
   "  --trace             Print a hierarchical evaluation trace to stderr",
   "  -h, --help          Print this help",
   "",
   "Environment:",
   "  CINDER_SCOPING      `lexical` or `dynamic`, used when no scoping flag is given",
   "  RUST_LOG            Log filter (tracing EnvFilter syntax)"]

def usage : String := String.intercalate "\n" usageLines

/-- The environment variable that chooses a scoping mode when no flag does. -/
def scopingVariable : String := "CINDER_SCOPING"

inductive Source where
  | stdin
  | file (path : String)
deriving DecidableEq

/-- What the arguments say about the limit on open calls. -/
inductive DepthChoice where
  | default
  | unlimited
  | limit (depth : Nat)
deriving DecidableEq

/-- What the arguments ask for. -/
structure Options where
  scoping : Option Scoping
  depth : DepthChoice
  defines : List (String × Word)
  trace : Bool
  input : Source
deriving DecidableEq

inductive Command where
  | help
  | run (options : Options)
deriving DecidableEq

/-- Why the command line cannot be obeyed. -/
inductive UsageError where
  | unknownOption (argument : String)
  | missingValue (option : String)
  | invalidDepth (value : String)
  | invalidDefine (value : String)
  | extraArgument (argument : String)
  | invalidScoping (value : String)
deriving DecidableEq

def UsageError.message : UsageError → String
  | .unknownOption argument => "unknown option: " ++ argument
  | .missingValue option => option ++ " requires a value"
  | .invalidDepth value => "invalid --max-depth value: " ++ value
  | .invalidDefine value => "invalid --define (expected NAME=INT): " ++ value
  | .extraArgument argument => "unexpected extra argument: " ++ argument
  | .invalidScoping value =>
    "invalid " ++ scopingVariable ++ " value: " ++ value ++ " (expected `lexical` or `dynamic`)"

namespace Options

def default : Options := ⟨none, .default, [], false, .stdin⟩

/-- The largest limit on open calls. -/
def maxDepth : Nat := 18446744073709551615

/-- The limit that a value of `--max-depth` chooses; zero means that there is none. -/
def parseDepth (value : String) : Except UsageError DepthChoice :=
  match Text.unsigned? value with
  | some depth =>
    if depth ≤ maxDepth then .ok (if depth = 0 then .unlimited else .limit depth)
    else .error (.invalidDepth value)
  | none => .error (.invalidDepth value)

/-- The parts of a text before and after the first `=`. -/
def splitAtEquals (cs : List Char) : Option (List Char × List Char) :=
  match cs.span (· ≠ '=') with
  | (before, _ :: after) => some (before, after)
  | (_, []) => none

/-- The name and the integer that a value of `--define` gives; blanks around both are dropped. -/
def parseDefine (value : String) : Except UsageError (String × Word) :=
  match splitAtEquals value.toList with
  | none => .error (.invalidDefine value)
  | some (before, after) =>
    let name := Text.trim (String.ofList before)
    if name = "" then .error (.invalidDefine value)
    else
      match (Text.signed? (Text.trim (String.ofList after))).bind Word.ofInt? with
      | some word => .ok (name, word)
      | none => .error (.invalidDefine value)

/-- The source that an argument names which is no option. -/
def sourceOf (argument : String) : Source := if argument = "-" then .stdin else .file argument

def isDashed (argument : String) : Bool := argument.toList.head? = some '-'

/-- Reads arguments after others that gave `options` and, if there was one, the input. -/
def parseFrom (options : Options) (input : Option Source) :
    List String → Except UsageError Command
  | [] => .ok (.run { options with input := input.getD .stdin })
  | argument :: rest =>
    if argument = "-h" ∨ argument = "--help" then .ok .help
    else if argument = "--lexical" then
      parseFrom { options with scoping := some .lexical } input rest
    else if argument = "--dynamic" then
      parseFrom { options with scoping := some .dynamic } input rest
    else if argument = "--trace" then parseFrom { options with trace := true } input rest
    else if argument = "--max-depth" then
      match rest with
      | [] => .error (.missingValue argument)
      | value :: rest =>
        match parseDepth value with
        | .error error => .error error
        | .ok depth => parseFrom { options with depth } input rest
    else if argument = "--define" then
      match rest with
      | [] => .error (.missingValue argument)
      | value :: rest =>
        match parseDefine value with
        | .error error => .error error
        | .ok entry =>
          parseFrom { options with defines := options.defines ++ [entry] } input rest
    else if isDashed argument ∧ argument ≠ "-" then .error (.unknownOption argument)
    else if input.isSome then .error (.extraArgument argument)
    else parseFrom options (some (sourceOf argument)) rest

/-- What the arguments ask for; the name of the program is not among them. -/
def parse (arguments : List String) : Except UsageError Command :=
  parseFrom default none arguments

/-- How the program is evaluated.  A scoping flag counts before the environment variable. -/
def config (options : Options) (scopingValue : Option String) : Except UsageError Config := do
  let scoping ←
    match options.scoping, scopingValue with
    | some scoping, _ => .ok scoping
    | none, none => .ok Scoping.lexical
    | none, some value =>
      match Scoping.parse? value with
      | some scoping => .ok scoping
      | none => .error (.invalidScoping value)
  return match options.depth with
    | .default => .ofScoping scoping
    | .unlimited => ⟨scoping, none⟩
    | .limit depth => ⟨scoping, some depth⟩

end Options

end FlatScope
