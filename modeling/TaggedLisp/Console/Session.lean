import TaggedLisp.Console.Command
import TaggedLisp.Console.Report

/-!
# Console sessions

A session reads lines. Source text is evaluated in its machine; commands look at the machine, or say
what is shown besides results. No command changes the machine. A session ends with the quit command,
with the last line, or at a line whose bytes are not text.
-/

set_option autoImplicit false

namespace TaggedLisp

def programName : String := "tal"

def versionNumber : String := "0.1.0"

structure Session where
  machine : Machine
  format : OutputFormat
  host : Host := .none
  showTokens : Bool := false
  showValues : Bool := false

/-- A line of input, or nothing where its bytes are not text. -/
abbrev InputLine := Option String

namespace Session

def greeting : List Emission :=
  [.line s!"{programName} version {versionNumber}", .print Command.summary]

def bindingLine (heap : Heap) (symbol : Nat) (value : Value) : Checked Emission := do
  let name ← heap.name symbol
  return .line (Text.alignLeft 16 name ++ " " ++ (← heap.display value))

def bindingLines (machine : Machine) : Checked (List Emission) := do
  let environment := machine.environment
  let lines ← environment.bindings.mapM fun (symbol, value) =>
    bindingLine machine.heap symbol value
  return lines ++ [.line s!"{environment.size} of {environment.capacity} bindings used"]

def toggleWord (on : Bool) : String :=
  if on then "on" else "off"

/-- Evaluates a line of source text. The tokens are shown first if that is wanted. -/
def evaluate (session : Session) (source : String) : Checked (List Emission × Session) := do
  let report ←
    Report.ofSource session.host session.format session.showValues source session.machine
  let tokens :=
    if session.showTokens then [.print (session.format.renderTokens source)] else []
  return (tokens ++ report.emissions, { session with machine := report.machine })

/-- Carries out a command. There is no session afterwards if the command ends it. -/
def perform (session : Session) : Command → Checked (List Emission × Option Session)
  | .help => return ([.print Command.summary], some session)
  | .quit => return ([], none)
  | .tokens =>
    let on := !session.showTokens
    return ([.line ("token dump " ++ toggleWord on)], some { session with showTokens := on })
  | .values =>
    let on := !session.showValues
    return ([.line ("value dump " ++ toggleWord on)], some { session with showValues := on })
  | .environment => do
    return (← bindingLines session.machine, some session)
  | .stats =>
    return ([.line (session.format.renderStats session.machine.heap.stats)], some session)
  | .unknown text => return ([.complaint s!"unknown command `{text}`, try \\h"], some session)
  | .eval source => do
    let (emissions, session) ← session.evaluate source
    return (emissions, some session)

def step (session : Session) : InputLine → Checked (List Emission × Option Session)
  | some line => session.perform (Command.ofLine line)
  | none => return ([.complaint "error: stream did not contain valid UTF-8"], none)

def run (session : Session) : List InputLine → Checked (List Emission × Session)
  | [] => return ([], session)
  | line :: lines => do
    match ← session.step line with
    | (emissions, none) => return (emissions, session)
    | (emissions, some session) =>
      let (later, session) ← session.run lines
      return (emissions ++ later, session)

end Session

/-- The text of a line without the marks of its end. A carriage return belongs to the end only before
a line feed. -/
def InputLine.ofBytes (bytes : ByteArray) : InputLine :=
  let content := bytes.data.toList
  let unended :=
    match content.reverse with
    | 10 :: 13 :: rest => rest.reverse
    | 10 :: rest => rest.reverse
    | _ => content
  String.fromUTF8? ⟨unended.toArray⟩

end TaggedLisp
