import TaggedLisp.Json.Node
import TaggedLisp.Json.Text
import TaggedLisp.Settings

/-!
# Settings as JSON

Settings are written as an object with all four fields. They are read from an object in which each
field may be missing and none may be repeated, and in which members with other keys do not count; or
from an array of at most four elements, which are the fields in order. A missing field has its
default. Limits are whole numbers of at most 64 bits, written with digits alone.
-/

set_option autoImplicit false

namespace TaggedLisp

namespace Settings

inductive Field where
  | maxSymbols
  | maxCells
  | environmentCapacity
  | listBuiltins
deriving DecidableEq, Repr

namespace Field

def all : List Field := [.maxSymbols, .maxCells, .environmentCapacity, .listBuiltins]

def key : Field → String
  | .maxSymbols => "max_symbols"
  | .maxCells => "max_cells"
  | .environmentCapacity => "env_capacity"
  | .listBuiltins => "list_builtins"

def ofKey? (key : String) : Option Field :=
  all.find? fun field => field.key = key

end Field

def fieldJson (settings : Settings) : Field → String
  | .maxSymbols => Json.natural settings.maxSymbols
  | .maxCells => Json.natural settings.maxCells
  | .environmentCapacity => Json.natural settings.environmentCapacity
  | .listBuiltins => Json.bool settings.listBuiltins

def toJson (settings : Settings) : String :=
  Json.object (Field.all.map fun field => (field.key, settings.fieldJson field))

def limit? : Json.Node → Option Nat
  | .number literal => Text.decimal64? literal
  | _ => none

def setField? (settings : Settings) (value : Json.Node) : Field → Option Settings
  | .maxSymbols => (limit? value).map fun limit => { settings with maxSymbols := limit }
  | .maxCells => (limit? value).map fun limit => { settings with maxCells := limit }
  | .environmentCapacity =>
    (limit? value).map fun limit => { settings with environmentCapacity := limit }
  | .listBuiltins =>
    match value with
    | .bool choice => some { settings with listBuiltins := choice }
    | _ => none

/-- Sets fields to the members of an object, in order. A field in `seen` has been set before and may
not be set again. -/
def setMembers? (settings : Settings) (seen : List Field) :
    List (Option String × Json.Node) → Option Settings
  | [] => some settings
  | (none, _) :: _ => none
  | (some key, value) :: members =>
    match Field.ofKey? key with
    | none => settings.setMembers? seen members
    | some field =>
      if field ∈ seen then none
      else do
        let settings ← settings.setField? value field
        settings.setMembers? (field :: seen) members

/-- Sets the given fields to the elements of an array, one by one. There may be fewer elements than
fields but not more. -/
def setElements? (settings : Settings) : List Field → List Json.Node → Option Settings
  | _, [] => some settings
  | [], _ :: _ => none
  | field :: fields, value :: values => do
    let settings ← settings.setField? value field
    settings.setElements? fields values

def ofNode? : Json.Node → Option Settings
  | .object members => setMembers? {} [] members
  | .array elements => setElements? {} Field.all elements
  | _ => none

def ofJson? (text : String) : Option Settings := do
  ofNode? (← Json.Node.ofString? text)

end Settings

end TaggedLisp
