import TaggedLisp.CommandLine.Invocation
import TaggedLisp.Console.Session
import TaggedLisp.Settings.Json

/-!
# Launching the program

The program makes its settings, starts a machine, and evaluates the source file if there is one. A
session follows if it is asked for or if there is no source file. The parts are checked in this order:
arguments, settings file, numbers of the command line, machine, source file. The program ends with 1
if it cannot start, with 2 if a source file that no session follows has a failure, and with 0
otherwise.

Files are given as a function from their paths to what reading them answers.
-/

set_option autoImplicit false

namespace TaggedLisp

inductive ReadFailure where
  | missing
  | directory
  | notText
  | other (reason : String)
deriving DecidableEq, Repr

def ReadFailure.message : ReadFailure → String
  | .missing => "No such file or directory (os error 2)"
  | .directory => "Is a directory (os error 21)"
  | .notText => "stream did not contain valid UTF-8"
  | .other reason => reason

abbrev Files := String → Except ReadFailure String

inductive LaunchFailure where
  | arguments (reason : Refusal)
  | unreadableConfig (path : String) (reason : ReadFailure)
  | invalidConfig (path : String)
  | invalidNumber (parameter : Parameter) (text : String)
  | machine (error : Error)
  | unreadableFile (path : String) (reason : ReadFailure)
deriving DecidableEq, Repr

def LaunchFailure.complaint : LaunchFailure → Emission
  | .arguments reason => .complaint reason.message
  | .unreadableConfig path reason =>
    .complaint (s!"cannot read config `{path}`: " ++ reason.message)
  | .invalidConfig path => .complaint s!"invalid config `{path}`: not a settings object"
  | .invalidNumber parameter text =>
    .complaint ("error: invalid value for `--" ++ parameter.name ++ s!"`: `{text}` is no number")
  | .machine error => .failure error
  | .unreadableFile path reason => .complaint (s!"cannot read `{path}`: " ++ reason.message)

/-- The number that a parameter asks for: digits for at most 64 bits, perhaps after a plus sign. -/
def parameterNumber? (text : String) : Option Nat :=
  match text.toList with
  | '+' :: digits => Text.decimal64? digits
  | digits => Text.decimal64? digits

namespace Invocation

def baseSettings (invocation : Invocation) (files : Files) : Except LaunchFailure Settings :=
  match invocation.config? with
  | none => .ok {}
  | some path =>
    match files path with
    | .error reason => .error (.unreadableConfig path reason)
    | .ok text =>
      match Settings.ofJson? text with
      | some settings => .ok settings
      | none => .error (.invalidConfig path)

def limit (parameter : Parameter) (value? : Option String) (default : Nat) :
    Except LaunchFailure Nat :=
  match value? with
  | none => .ok default
  | some text =>
    match parameterNumber? text with
    | some number => .ok number
    | none => .error (.invalidNumber parameter text)

def settings (invocation : Invocation) (files : Files) : Except LaunchFailure Settings := do
  let base ← invocation.baseSettings files
  let maxSymbols ← limit .maxSymbols invocation.maxSymbols? base.maxSymbols
  let environmentCapacity ←
    limit .environmentCapacity invocation.environmentCapacity? base.environmentCapacity
  return { base with
    maxSymbols
    environmentCapacity
    listBuiltins := base.listBuiltins && !invocation.noListBuiltins }

def source (invocation : Invocation) (files : Files) : Except LaunchFailure (Option String) :=
  match invocation.file? with
  | none => .ok none
  | some path =>
    match files path with
    | .ok text => .ok (some text)
    | .error reason => .error (.unreadableFile path reason)

def format (invocation : Invocation) : OutputFormat :=
  if invocation.json then .json else .text

def paths (invocation : Invocation) : List String :=
  invocation.config?.toList ++ invocation.file?.toList

end Invocation

inductive Continuation where
  | exit (code : Nat)
  | session (session : Session)

/-- What the start of the program prints, and how it goes on. -/
structure Launch where
  emissions : List Emission
  next : Continuation

namespace Launch

def failed (failure : LaunchFailure) : Launch :=
  ⟨[failure.complaint], .exit 1⟩

def usage : String :=
  "usage: " ++ programName ++ " [options] [FILE]\n" ++
    "  -i, --interactive      start the REPL after evaluating FILE\n" ++
    "      --json             print results as JSON\n" ++
    "      --config FILE      read interpreter limits from a JSON file\n" ++
    "      --max-symbols N    maximum number of distinct symbols\n" ++
    "      --env-capacity N   maximum number of bindings\n" ++
    "      --no-list-builtins do not bind `head` and `tail`\n" ++
    "  -v, --verbose          raise the log level\n" ++
    "  -h, --help             print this summary\n" ++
    "  -V, --version          print the version\n"

def stopped : Stop → Launch
  | .version => ⟨[.line s!"{programName} {versionNumber}"], .exit 0⟩
  | .help => ⟨[.print usage], .exit 0⟩
  | .refusal reason => failed (.arguments reason)

def session (emissions : List Emission) (machine : Machine) (format : OutputFormat) : Launch :=
  ⟨emissions ++ Session.greeting, .session { machine, format }⟩

def start (invocation : Invocation) (files : Files) (machine : Machine) : Checked Launch :=
  match invocation.source files with
  | .error failure => return failed failure
  | .ok none => return session [] machine invocation.format
  | .ok (some source) => do
    let report ← Report.ofSource .none invocation.format false source machine
    if invocation.interactive then
      return session report.emissions report.machine invocation.format
    else
      return ⟨report.emissions, .exit (if report.succeeded then 0 else 2)⟩

def ofInvocation (invocation : Invocation) (files : Files) : Checked Launch :=
  match invocation.settings files with
  | .error failure => return failed failure
  | .ok settings => do
    match ← Machine.new settings with
    | .error error => return failed (.machine error)
    | .ok machine => start invocation files machine

def ofArguments (arguments : List String) (files : Files) : Checked Launch :=
  match Invocation.ofArguments arguments with
  | .error stop => return stopped stop
  | .ok invocation => ofInvocation invocation files

/-- Everything that the program prints, and the code that it ends with, when the given lines are its
input. A session always ends with 0. -/
def run (launch : Launch) (lines : List InputLine) : Checked (List Emission × Nat) :=
  match launch.next with
  | .exit code => return (launch.emissions, code)
  | .session session => do
    let (later, _) ← session.run lines
    return (launch.emissions ++ later, 0)

end Launch

end TaggedLisp
