import TaggedLisp.CommandLine.Launch

/-!
# The program

The outer layer of the program: it reads files and lines and prints. What is printed is decided by
`Launch` and `Session`.
-/

set_option autoImplicit false

namespace TaggedLisp

def readText (path : String) : IO (Except ReadFailure String) := do
  try
    match String.fromUTF8? (← IO.FS.readBinFile path) with
    | some text => return .ok text
    | none => return .error .notText
  catch
    | .noFileOrDirectory .. => return .error .missing
    | .inappropriateType _ 21 _ => return .error .directory
    | failure => return .error (.other failure.toString)

def readFiles (arguments : List String) : IO Files := do
  match Invocation.ofArguments arguments with
  | .error _ => return fun _ => .error .missing
  | .ok invocation => do
    let texts ← invocation.paths.mapM fun path => return (path, ← readText path)
    return fun path => (texts.lookup path).getD (.error .missing)

def emit (emissions : List Emission) : IO Unit :=
  emissions.forM fun emission =>
    match emission.channel with
    | .output => IO.print emission.text
    | .error => IO.eprint emission.text

partial def readBytes (input : IO.FS.Stream) (line : ByteArray) : IO ByteArray := do
  let next ← input.read 1
  if next.isEmpty then return line
  else if next.toList = [10] then return line ++ next
  else readBytes input (line ++ next)

partial def converse (input : IO.FS.Stream) (session : Session) : IO UInt32 := do
  if ← input.isTty then IO.print ">> "
  (← IO.getStdout).flush
  let bytes ← readBytes input .empty
  if bytes.isEmpty then return 0
  match session.step (InputLine.ofBytes bytes) with
  | .error _ => IO.eprintln "error: inconsistent heap"; return 70
  | .ok (emissions, next) =>
    emit emissions
    match next with
    | some session => converse input session
    | none => return 0

end TaggedLisp

open TaggedLisp in
def main (arguments : List String) : IO UInt32 := do
  match Launch.ofArguments arguments (← readFiles arguments) with
  | .error _ => IO.eprintln "error: inconsistent heap"; return 70
  | .ok launch =>
    emit launch.emissions
    match launch.next with
    | .exit code => return .ofNat code
    | .session session => converse (← IO.getStdin) session
