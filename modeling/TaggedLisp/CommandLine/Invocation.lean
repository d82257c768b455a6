import TaggedLisp.CommandLine.Argument

/-!
# Invocations

An invocation is what all arguments of the command line together ask for. Arguments are read from
left to right. A request for the version or for help, an option that does not exist, and a second
source file end the reading at once; what is missing or repeated is only found when all arguments
have been read.
-/

set_option autoImplicit false

namespace TaggedLisp

inductive Switch where
  | interactive
  | json
  | noListBuiltins
  | verbose
  | version
  | help
deriving DecidableEq, Repr

namespace Switch

def all : List Switch := [.interactive, .json, .noListBuiltins, .verbose, .version, .help]

def name : Switch → String
  | .interactive => "interactive"
  | .json => "json"
  | .noListBuiltins => "no-list-builtins"
  | .verbose => "verbose"
  | .version => "version"
  | .help => "help"

def letter? : Switch → Option Char
  | .interactive => some 'i'
  | .verbose => some 'v'
  | .version => some 'V'
  | .help => some 'h'
  | .json | .noListBuiltins => none

def ofName? (name : String) : Option Switch :=
  all.find? fun switch => switch.name = name

def ofLetter? (letter : Char) : Option Switch :=
  all.find? fun switch => switch.letter? = some letter

end Switch

inductive Parameter where
  | config
  | maxSymbols
  | environmentCapacity
deriving DecidableEq, Repr

namespace Parameter

def all : List Parameter := [.config, .maxSymbols, .environmentCapacity]

def name : Parameter → String
  | .config => "config"
  | .maxSymbols => "max-symbols"
  | .environmentCapacity => "env-capacity"

def ofName? (name : String) : Option Parameter :=
  all.find? fun parameter => parameter.name = name

end Parameter

inductive Refusal where
  | unknownOption (text : String)
  | unexpectedFile (path : String)
  | missingValue (parameter : Parameter)
  | repeatedParameter (parameter : Parameter)
  | repeatedSwitch (switch : Switch)
deriving DecidableEq, Repr

def Refusal.message : Refusal → String
  | .unknownOption text => s!"error: unknown option `{text}`"
  | .unexpectedFile path => s!"error: unexpected argument `{path}`"
  | .missingValue parameter => "error: `--" ++ parameter.name ++ "` needs a value"
  | .repeatedParameter parameter => "error: `--" ++ parameter.name ++ "` is given more than once"
  | .repeatedSwitch switch => "error: `--" ++ switch.name ++ "` is given more than once"

/-- Why the reading of arguments ends before the last one. -/
inductive Stop where
  | version
  | help
  | refusal (reason : Refusal)
deriving DecidableEq, Repr

/-- What the arguments have said so far, the latest first. -/
structure Gathered where
  switches : List Switch := []
  parameters : List (Parameter × Option String) := []
  file? : Option String := none
deriving DecidableEq, Repr

namespace Gathered

def addSwitch (gathered : Gathered) (switch : Switch) : Except Stop Gathered :=
  match switch with
  | .version => .error .version
  | .help => .error .help
  | _ => .ok { gathered with switches := switch :: gathered.switches }

def addLetter (gathered : Gathered) (letter : Char) : Except Stop Gathered :=
  match Switch.ofLetter? letter with
  | some switch => gathered.addSwitch switch
  | none => .error (.refusal (.unknownOption s!"-{letter}"))

def addParameter (gathered : Gathered) (parameter : Parameter) (value? : Option String) :
    Gathered :=
  { gathered with parameters := (parameter, value?) :: gathered.parameters }

def addFile (gathered : Gathered) (path : String) : Except Stop Gathered :=
  match gathered.file? with
  | none => .ok { gathered with file? := some path }
  | some _ => .error (.refusal (.unexpectedFile path))

/-- Reads arguments of which some may be options. A parameter without an attached value takes the next
argument, unless that is an option. -/
def read (gathered : Gathered) : List String → Except Stop Gathered
  | [] => .ok gathered
  | argument :: rest =>
    match Argument.ofString argument with
    | .terminator => rest.foldlM addFile gathered
    | .word path => do
      let gathered ← gathered.addFile path
      gathered.read rest
    | .short letters => do
      let gathered ← letters.foldlM addLetter gathered
      gathered.read rest
    | .long name attached? =>
      match Parameter.ofName? name, attached?, rest with
      | some parameter, some value, rest =>
        (gathered.addParameter parameter (some value)).read rest
      | some parameter, none, next :: others =>
        if (Argument.ofString next).isWord then
          (gathered.addParameter parameter (some next)).read others
        else (gathered.addParameter parameter none).read (next :: others)
      | some parameter, none, [] => .ok (gathered.addParameter parameter none)
      | none, _, rest =>
        match Switch.ofName? name with
        | some switch => do
          let gathered ← gathered.addSwitch switch
          gathered.read rest
        | none => .error (.refusal (.unknownOption argument))
termination_by arguments => arguments.length

def value? (gathered : Gathered) (parameter : Parameter) : Option String :=
  (gathered.parameters.lookup parameter).join

def has (gathered : Gathered) (switch : Switch) : Bool :=
  gathered.switches.contains switch

def occurrences (gathered : Gathered) (parameter : Parameter) : Nat :=
  gathered.parameters.countP fun (other, _) => other = parameter

/-- What is wrong with the arguments as a whole. Every parameter needs a value, and only the verbose
switch may be repeated. -/
def refusal? (gathered : Gathered) : Option Refusal :=
  match gathered.parameters.find? fun (_, value?) => value?.isNone with
  | some (parameter, _) => some (.missingValue parameter)
  | none =>
    match Parameter.all.find? fun parameter => 1 < gathered.occurrences parameter with
    | some parameter => some (.repeatedParameter parameter)
    | none =>
      (Switch.all.find? fun switch =>
        switch ≠ .verbose && 1 < gathered.switches.count switch).map .repeatedSwitch

end Gathered

structure Invocation where
  file? : Option String := none
  interactive : Bool := false
  json : Bool := false
  config? : Option String := none
  maxSymbols? : Option String := none
  environmentCapacity? : Option String := none
  noListBuiltins : Bool := false
deriving DecidableEq, Repr

namespace Invocation

def ofArguments (arguments : List String) : Except Stop Invocation := do
  let gathered ← Gathered.read {} arguments
  match gathered.refusal? with
  | some reason => throw (.refusal reason)
  | none =>
    return {
      file? := gathered.file?
      interactive := gathered.has .interactive
      json := gathered.has .json
      config? := gathered.value? .config
      maxSymbols? := gathered.value? .maxSymbols
      environmentCapacity? := gathered.value? .environmentCapacity
      noListBuiltins := gathered.has .noListBuiltins }

end Invocation

end TaggedLisp
