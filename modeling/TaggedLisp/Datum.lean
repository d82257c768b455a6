import TaggedLisp.Heap.List
import TaggedLisp.Json.Text

/-!
# Data

A datum is the tree that a value stands for, apart from any heap: symbols and lambdas by name, errors
by their text, and lists by their elements.
-/

set_option autoImplicit false

namespace TaggedLisp

inductive Datum where
  | symbol (name : String)
  | list (elements : List Datum)
  /-- An error, by its message; an internal error by the name of its category. -/
  | error (message : String)
  | lambda (name : String) (arity : Nat)
deriving Repr

namespace Datum

def symbol? : Datum → Option String
  | .symbol name => some name
  | _ => none

def isError : Datum → Bool
  | .error _ => true
  | _ => false

mutual

/-- A datum as JSON: an object with one member, whose key says what the datum is. -/
def toJson : Datum → String
  | .symbol name => Json.object [("Sym", Json.string name)]
  | .list elements => Json.object [("Lst", Json.array (toJsonEach elements))]
  | .error message => Json.object [("Err", Json.string message)]
  | .lambda name arity =>
    Json.object
      [("Lambda", Json.object [("name", Json.string name), ("arity", Json.natural arity)])]

def toJsonEach : List Datum → List String
  | [] => []
  | datum :: data => datum.toJson :: toJsonEach data

end

end Datum

namespace Heap

/-- The datum of a value whose lists are nested less than `depth` deep. -/
def toDatumWithin (heap : Heap) : Nat → Value → Checked Datum
  | 0, _ => .error .endless
  | depth + 1, value =>
    match value with
    | .internal cause => return .error (ofInternal cause).kind.name
    | .error record => return .error (← heap.errorRecord record).message
    | .symbol id => return .symbol (← heap.name id)
    | .lambda record => do
      let lambda ← heap.lambda record
      return .lambda lambda.name lambda.arity
    | .emptyList | .list _ => do
      let elements ← heap.elements value
      return .list (← elements.mapM (heap.toDatumWithin depth))

/-- The datum of a value. Lists that are nested deeper than there are cells contain themselves. -/
def toDatum (heap : Heap) (value : Value) : Checked Datum :=
  heap.toDatumWithin (heap.cells.size + 1) value

end Heap

end TaggedLisp
