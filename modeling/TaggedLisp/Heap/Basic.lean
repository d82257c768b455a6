import TaggedLisp.Lambda
import TaggedLisp.SymbolTable

/-!
# The heap

A heap owns four stores: symbols, cells, lambda records and error records. Entries are appended and
never changed, so lists may share their ends freely. A value carries no mark of its heap, so a value
of another heap may point outside the stores, and a cell built from such a value may point outside
them too, or later to a cell that is not older. Reading such a value is a `Fault`, which no operation
of the language reports: it is kept apart from `Error`.

Operations that allocate answer an outcome together with the heap that they leave, also when they
fail.
-/

set_option autoImplicit false

namespace TaggedLisp

inductive Fault where
  /-- A value points outside the stores of the heap it is read in. -/
  | dangling
  /-- A walk through cells comes back to a cell that it is still inside of. -/
  | endless
  /-- The evaluator is nested deeper than its budget. -/
  | exhausted
deriving DecidableEq, Repr

abbrev Checked (α : Type) := Except Fault α

structure Cell where
  head : Value
  tail : Value
deriving DecidableEq, Repr

structure Keywords where
  definition : Nat
  quote : Nat
deriving DecidableEq, Repr

structure Heap where
  symbols : SymbolTable
  cells : Array Cell
  lambdas : Array Lambda
  errors : Array Error
  maxCells : Nat
  keywords : Keywords

structure HeapStats where
  symbols : Nat
  cells : Nat
  lambdas : Nat
  errors : Nat
deriving DecidableEq, Repr

namespace Heap

/-- A heap with nothing but its keywords, `def` and `quote` in this order. A symbol limit below two
leaves no room for them. -/
def new (settings : Settings) : Except Error Heap :=
  match (SymbolTable.empty settings.maxSymbols).intern "def" with
  | (.error error, _) => .error error
  | (.ok definition, symbols) =>
    match symbols.intern "quote" with
    | (.error error, _) => .error error
    | (.ok quote, symbols) =>
      .ok
        { symbols
          cells := #[]
          lambdas := #[]
          errors := #[]
          maxCells := min settings.maxCells indexLimit
          keywords := { definition, quote } }

def stats (heap : Heap) : HeapStats where
  symbols := heap.symbols.size
  cells := heap.cells.size
  lambdas := heap.lambdas.size
  errors := heap.errors.size

/-- Whether a value points inside the stores. Cells that it leads to are not looked at. -/
def contains (heap : Heap) : Value → Bool
  | .internal _ | .emptyList => true
  | .symbol id => id < heap.symbols.size
  | .list cell => cell < heap.cells.size
  | .lambda record => record < heap.lambdas.size
  | .error record => record < heap.errors.size

/-! ### Reading the stores -/

def name (heap : Heap) (id : Nat) : Checked String :=
  match heap.symbols.name? id with
  | some name => .ok name
  | none => .error .dangling

def cell (heap : Heap) (index : Nat) : Checked Cell :=
  match heap.cells[index]? with
  | some cell => .ok cell
  | none => .error .dangling

def lambda (heap : Heap) (record : Nat) : Checked Lambda :=
  match heap.lambdas[record]? with
  | some lambda => .ok lambda
  | none => .error .dangling

def errorRecord (heap : Heap) (record : Nat) : Checked Error :=
  match heap.errors[record]? with
  | some error => .ok error
  | none => .error .dangling

def symbolName? (heap : Heap) (value : Value) : Checked (Option String) :=
  match value with
  | .symbol id => some <$> heap.name id
  | _ => .ok none

/-! ### Appending to the stores -/

def intern (heap : Heap) (name : String) : Except Error Nat × Heap :=
  let (outcome, symbols) := heap.symbols.intern name
  (outcome, { heap with symbols })

def symbol (heap : Heap) (name : String) : Except Error Value × Heap :=
  let (outcome, heap) := heap.intern name
  (outcome.map .symbol, heap)

/-- Puts an element in front of a list. That the tail is a list is checked before there is room. -/
def cons (heap : Heap) (head tail : Value) : Except Error Value × Heap :=
  if !tail.isList then (.error .notAList, heap)
  else if heap.maxCells ≤ heap.cells.size then (.error .outOfMemory, heap)
  else (.ok (.list heap.cells.size), { heap with cells := heap.cells.push { head, tail } })

def addLambda (heap : Heap) (lambda : Lambda) : Except Error Value × Heap :=
  if indexLimit < heap.lambdas.size then (.error .outOfMemory, heap)
  else (.ok (.lambda heap.lambdas.size), { heap with lambdas := heap.lambdas.push lambda })

/-- The value of an error. Internal errors need no record; for others a record is added, and if no
index is left for it the value says so. -/
def addError (heap : Heap) : Error → Value × Heap
  | .undefined => (.undefined, heap)
  | .outOfMemory => (.outOfMemory, heap)
  | error =>
    if heap.errors.size ≤ indexLimit then
      (.error heap.errors.size, { heap with errors := heap.errors.push error })
    else (.outOfMemory, heap)

/-! ### Errors as values -/

def ofInternal : InternalError → Error
  | .undefined => .undefined
  | .outOfMemory => .outOfMemory

def toError? (heap : Heap) (value : Value) : Checked (Option Error) :=
  match value with
  | .internal cause => .ok (some (ofInternal cause))
  | .error record => some <$> heap.errorRecord record
  | _ => .ok none

def errorKind? (heap : Heap) (value : Value) : Checked (Option ErrorKind) :=
  (·.map Error.kind) <$> heap.toError? value

end Heap

end TaggedLisp
