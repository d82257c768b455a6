import TaggedLisp.Reader
import TaggedLisp.Script

/-!
# Evaluation

A form is evaluated in a machine, which is a heap with an environment. The empty list stands for
itself and a symbol for its binding. Of the other lists, quoted forms stand for what is quoted,
`(def symbol form)` binds the symbol, and a list headed by a symbol applies what the symbol is bound
to. The arguments of an application are evaluated first, from left to right, then the list of them is
allocated, and only then is the head looked up.

Evaluation may come back to itself through a routine of the host, so it runs on a budget of nested
calls. A machine that runs out of it has a fault and not an error: no form can see the budget.
-/

set_option autoImplicit false

namespace TaggedLisp

structure Machine where
  heap : Heap
  environment : Environment

/-- A computation in a machine. An error leaves the machine as it was when the error arose. -/
abbrev Evaluation (α : Type) := ExceptT Error (StateT Machine Checked) α

namespace Evaluation

def ofFunction {α : Type} (run : Machine → Checked (Except Error α × Machine)) : Evaluation α :=
  ExceptT.mk run

def runIn {α : Type} (computation : Evaluation α) (machine : Machine) :
    Checked (Except Error α × Machine) :=
  computation.run.run machine

def examine {α : Type} (read : Machine → Checked α) : Evaluation α :=
  ofFunction fun machine => do return (.ok (← read machine), machine)

def consult {α : Type} (read : Machine → Checked (Except Error α)) : Evaluation α :=
  ofFunction fun machine => do return (← read machine, machine)

def allocate {α : Type} (build : Heap → Except Error α × Heap) : Evaluation α :=
  ofFunction fun machine =>
    let (outcome, heap) := build machine.heap
    return (outcome, { machine with heap })

def define (symbol : Nat) (value : Value) : Evaluation Value :=
  ofFunction fun machine => do
    let (outcome, environment) ← machine.environment.define machine.heap symbol value
    return (outcome, { machine with environment })

def lookup (symbol : Nat) : Evaluation Value :=
  consult fun machine => machine.environment.lookup machine.heap symbol

end Evaluation

inductive Task where
  | eval (form : Value)
  | apply (lambda : Nat) (arguments : Value)

/-- The parts of a definition, if a list is one: a triple of the keyword, a symbol and any form. -/
def Heap.definition? (heap : Heap) (form : Value) : Checked (Option (Nat × Value)) := do
  match ← heap.take 4 form with
  | [.symbol keyword, .symbol symbol, body] =>
    return if keyword = heap.keywords.definition then some (symbol, body) else none
  | _ => return none

/-- One operation, where `recur` carries out the tasks in it. -/
def Operation.run (recur : Task → Evaluation Value) : Operation → Evaluation Value
  | .symbol name => Evaluation.allocate (·.symbol name)
  | .cons element list => Evaluation.allocate (·.cons element list)
  | .listOf elements => Evaluation.allocate (·.listOf elements)
  | .head list => Evaluation.consult (·.heap.head list)
  | .tail list => Evaluation.consult (·.heap.tail list)
  | .reverse list => Evaluation.ofFunction fun machine => do
    let (outcome, heap) ← machine.heap.reverse list
    return (outcome, { machine with heap })
  | .quote value => Evaluation.allocate (·.quote value)
  | .unquote value => Evaluation.consult (·.heap.unquote value)
  | .addError error => Evaluation.allocate fun heap =>
    let (value, heap) := heap.addError error
    (.ok value, heap)
  | .addLambda lambda => Evaluation.allocate (·.addLambda lambda)
  | .parse source => Evaluation.allocate (·.parse source)
  | .define id value => Evaluation.define id value
  | .lookup id => Evaluation.lookup id
  | .eval form => recur (.eval form)
  | .apply record arguments => recur (.apply record arguments)

def Script.run (recur : Task → Evaluation Value) : Script → Evaluation Value
  | .done outcome => ExceptT.mk (pure outcome)
  | .perform operation next => Evaluation.ofFunction fun machine => do
    let (outcome, machine) ← (operation.run recur).runIn machine
    ((next outcome).run recur).runIn machine
  | .examine next => Evaluation.ofFunction fun machine =>
    ((next machine.heap machine.environment).run recur).runIn machine

def Routine.run (host : Host) (recur : Task → Evaluation Value) (arguments : Value) :
    Routine → Evaluation Value
  | .quote => Evaluation.consult (·.heap.head arguments)
  | .head => do
    let list ← Evaluation.consult (·.heap.head arguments)
    Evaluation.consult (·.heap.head list)
  | .tail => do
    let list ← Evaluation.consult (·.heap.head arguments)
    Evaluation.consult (·.heap.tail list)
  | .host id => (host.routine id arguments).run recur

/-- Applies a lambda. The number of arguments is checked before its routine runs. -/
def applyLambda (host : Host) (recur : Task → Evaluation Value) (record : Nat) (arguments : Value) :
    Evaluation Value := do
  let lambda ← Evaluation.examine (·.heap.lambda record)
  let given ← Evaluation.consult (·.heap.count arguments)
  if given = lambda.arity then
    lambda.routine.run host recur arguments
  else
    throw (.arityMismatch lambda.name lambda.arity given)

/-- Evaluates a list that is neither empty, nor quoted, nor a definition. -/
def evalApplication (recur : Task → Evaluation Value) (cell : Nat) : Evaluation Value := do
  let link ← Evaluation.examine (·.heap.cell cell)
  match link.head with
  | .symbol head =>
    let forms ← Evaluation.consult (·.heap.toList link.tail)
    let values ← forms.mapM fun form => recur (.eval form)
    let arguments ← Evaluation.allocate (·.listOf values)
    match ← Evaluation.lookup head with
    | .lambda record => recur (.apply record arguments)
    | _ => throw (.notCallable (← Evaluation.examine (·.heap.name head)))
  | _ => throw .undefined

def evalForm (recur : Task → Evaluation Value) (form : Value) : Evaluation Value := do
  match form with
  | .emptyList => return form
  | .symbol symbol => Evaluation.lookup symbol
  | .list cell =>
    if ← Evaluation.examine (·.heap.isQuoted form) then
      Evaluation.consult (·.heap.unquote form)
    else
      match ← Evaluation.examine (·.heap.definition? form) with
      | some (symbol, body) =>
        let value ← recur (.eval body)
        Evaluation.define symbol value
      | none => evalApplication recur cell
  | _ => throw .undefined

/-- Carries out a task with calls nested at most `budget` deep. -/
def Task.run (host : Host) : Nat → Task → Evaluation Value
  | 0, _ => Evaluation.ofFunction fun _ => throw .exhausted
  | budget + 1, .eval form => evalForm (Task.run host budget) form
  | budget + 1, .apply record arguments => applyLambda host (Task.run host budget) record arguments

end TaggedLisp
