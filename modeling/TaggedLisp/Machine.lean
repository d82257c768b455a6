import TaggedLisp.Evaluation

/-!
# Machines

A machine starts with the keywords and the builtins bound. It evaluates single forms, or all forms of
a source one after the other until one fails. A source is read as a whole before anything in it is
evaluated.
-/

set_option autoImplicit false

namespace TaggedLisp

/-- How deep the routines of a host may nest evaluations beyond what room for cells allows. -/
def hostNesting : Nat := 1 <<< 32

namespace Environment

/-- Binds the keyword of definitions to itself, so that it can never be redefined, and then each
builtin to a record of its own. -/
def seed (settings : Settings) : Evaluation Unit := do
  let keywords ← Evaluation.examine fun machine => return machine.heap.keywords
  let _ ← Evaluation.define keywords.definition (.symbol keywords.definition)
  (Lambda.reserved settings).forM fun lambda => do
    let symbol ← Evaluation.allocate (·.intern lambda.name)
    let value ← Evaluation.allocate (·.addLambda lambda)
    let _ ← Evaluation.define symbol value

/-- A fresh environment on a heap. The heap keeps what was added to it also when no environment comes
of it. -/
def new (heap : Heap) (settings : Settings) : Checked (Except Error Environment × Heap) := do
  let (outcome, machine) ←
    (seed settings).runIn { heap, environment := .empty settings.environmentCapacity }
  return (outcome.map fun _ => machine.environment, machine.heap)

end Environment

namespace Machine

def new (settings : Settings) : Checked (Except Error Machine) :=
  match Heap.new settings with
  | .error error => return .error error
  | .ok heap => do
    let (outcome, heap) ← Environment.new heap settings
    return outcome.map fun environment => { heap, environment }

/-- The nesting that evaluation in a machine may use. Forms nest no deeper than there may be cells, as
long as no cell leads back to itself; the rest is for the routines of the host. -/
def budget (machine : Machine) : Nat :=
  machine.heap.maxCells + hostNesting

def run (host : Host) (task : Task) (machine : Machine) : Checked (Except Error Value × Machine) :=
  (task.run host machine.budget).runIn machine

def perform (host : Host) (operation : Operation) (machine : Machine) :
    Checked (Except Error Value × Machine) :=
  (operation.run (Task.run host machine.budget)).runIn machine

/-- Evaluates a form of this machine. A value from elsewhere that points outside the stores has no
meaning here; the cells that it leads to are not looked at. -/
def eval (host : Host) (form : Value) (machine : Machine) :
    Checked (Except Error Value × Machine) :=
  if machine.heap.contains form then machine.run host (.eval form)
  else return (.error .undefined, machine)

/-- Evaluates forms in order and stops after the first that fails. The outcomes are those of the forms
that were evaluated. -/
def evalEach (host : Host) (machine : Machine) :
    List Value → Checked (List (Except Error Value) × Machine)
  | [] => return ([], machine)
  | form :: forms => do
    let (outcome, machine) ← machine.eval host form
    match outcome with
    | .error error => return ([.error error], machine)
    | .ok value =>
      let (outcomes, machine) ← machine.evalEach host forms
      return (.ok value :: outcomes, machine)

/-- Evaluates the forms of a source up to the first that fails. If the source cannot be read, nothing
is evaluated. -/
def evalForms (host : Host) (source : String) (machine : Machine) :
    Checked (Except Error (List (Except Error Value)) × Machine) :=
  match machine.heap.readForms source with
  | (.error error, heap) => return (.error error, { machine with heap })
  | (.ok forms, heap) => do
    let (outcomes, machine) ← { machine with heap }.evalEach host forms
    return (.ok outcomes, machine)

def reify (heap : Heap) : List (Except Error Value) → List Value × Heap
  | [] => ([], heap)
  | .ok value :: outcomes =>
    let (values, heap) := reify heap outcomes
    (value :: values, heap)
  | .error error :: outcomes =>
    let (value, heap) := heap.addError error
    let (values, heap) := reify heap outcomes
    (value :: values, heap)

/-- Evaluates the forms of a source like `evalForms` and builds the list of their outcomes. -/
def evalSource (host : Host) (source : String) (machine : Machine) :
    Checked (Except Error Value × Machine) := do
  match ← machine.evalForms host source with
  | (.error error, machine) => return (.error error, machine)
  | (.ok outcomes, machine) =>
    let (values, heap) := reify machine.heap outcomes
    let (list, heap) := heap.listOf values
    return (list, { machine with heap })

/-- The value that a name is bound to. A name that is no symbol yet does not become one. -/
def lookup (name : String) (machine : Machine) : Checked (Except Error Value) :=
  match machine.heap.symbols.find? name with
  | some symbol => machine.environment.lookup machine.heap symbol
  | none => return .error (.unbound name)

end Machine

end TaggedLisp
