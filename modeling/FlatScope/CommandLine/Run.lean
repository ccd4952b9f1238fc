import FlatScope.CommandLine.Folder
import FlatScope.Eval.Machine
import FlatScope.Program.Layout

/-!
# Running programs from the command line

`runText` evaluates the text of a program with given options.  `CommandLine.start` and
`CommandLine.finish` are what the command line does before and after it reads its input: the texts
for both output channels and the exit status.
-/

namespace FlatScope

/-- Why a program gives no value. -/
inductive Failure where
  | usage (error : UsageError)
  | read (source : Source) (error : ReadError)
  | decode (error : DecodeError)
  | halt (halt : Halt)
  /-- The evaluation was given up. -/
  | unfinished
deriving DecidableEq

def Source.text : Source → String
  | .stdin => "<stdin>"
  | .file path => path

namespace Failure

def message : Failure → String
  | .usage error => error.message
  | .read source error => "cannot read " ++ source.text ++ ": " ++ error.message
  | .decode error => error.message
  | .halt (.raised raised) => raised.fault.message
  | .halt (.breach _) => "access out of bounds"
  | .unfinished => "evaluation given up"

/-- The exit status: 1 when the program failed, 2 when it could not start. -/
def exitStatus : Failure → Nat
  | .usage _ | .read _ _ | .decode _ => 2
  | .halt _ | .unfinished => 1

def backtraceText : Failure → String
  | .halt (.raised ⟨_, some backtrace⟩) => backtrace.text
  | _ => ""

end Failure

/-- What a run takes from outside: what number tokens stand for, and after how many steps the
evaluation is given up. -/
structure Engine where
  numbers : Json.NumberReader
  steps : Nat

/-- The engine of the command line. -/
def Engine.standard : Engine := ⟨Json.Numeral.number?, Setting.maxSteps⟩

theorem Engine.numbers_standard : Engine.standard.numbers = Json.Numeral.number? := rfl

/-- Evaluates a program in a frame that holds the prelude and the given definitions.  `names` are the
names after reading the program. -/
def runProgram (steps : Nat) (program : Program) (names : NameTable) (config : Config)
    (defines : List (String × Word)) : Except Failure Value :=
  let (frame, names, store) := Prelude.frame names .empty
  let (names, store) :=
    Prelude.defineAll names store frame (defines.map fun (name, word) => (name, .int word))
  let setting : Setting := ⟨program.code, names, config.scoping⟩
  match setting.evaluateWithin steps program.root frame ⟨store, .new config.maxDepth⟩ with
  | none => .error .unfinished
  | some (.error halt, _) => .error (.halt halt)
  | some (.ok value, _) => .ok value

/-- Evaluates the text of a program; `scopingValue` is the value of the scoping variable. -/
def runText (engine : Engine) (text : String) (options : Options) (scopingValue : Option String) :
    Except Failure Value :=
  match options.config scopingValue with
  | .error error => .error (.usage error)
  | .ok config =>
    match Program.ofText engine.numbers text .new with
    | (.error error, _) => .error (.decode error)
    | (.ok program, names) => runProgram engine.steps program names config options.defines

/-! ### The command line -/

/-- What a run of the command line leaves behind. -/
structure Report where
  exitStatus : Nat
  stdout : String
  stderr : String
deriving DecidableEq

namespace CommandLine

/-- What the arguments lead to before any input is read: a report, or options to run with. -/
def start (arguments : List String) : Except Report Options :=
  match Options.parse arguments with
  | .ok .help => .error ⟨0, usage ++ "\n", ""⟩
  | .ok (.run options) => .ok options
  | .error error => .error ⟨2, "", "error: " ++ error.message ++ "\n\n" ++ usage ++ "\n"⟩

def report : Except Failure Value → Report
  | .ok value => ⟨0, value.text ++ "\n", ""⟩
  | .error failure =>
    ⟨failure.exitStatus, "", "error: " ++ failure.message ++ "\n" ++ failure.backtraceText⟩

/-- What a run with given options leads to once its input was read, or could not be read. -/
def finish (options : Options) (input : Except ReadError ByteArray) (scopingValue : Option String) :
    Report :=
  match input.bind textOfBytes with
  | .error error => report (.error (.read options.input error))
  | .ok text => report (runText .standard text options scopingValue)

end CommandLine

end FlatScope
