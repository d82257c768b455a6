import TaggedLisp.Lambda
import TaggedLisp.Script

/-!
# Stock routines

Routines that a host can offer as they are, each a short script over the list of its arguments. They
do nothing that a program could not do with the operations of the language, but two of them come back
to the evaluator and to the bindings, which the builtins of the language never do.
-/

set_option autoImplicit false

namespace TaggedLisp

inductive StockRoutine where
  | first
  | arguments
  | reverse
  | cons
  | fail
  | eval
  | set
deriving DecidableEq, Repr

namespace StockRoutine

def all : List StockRoutine := [.first, .arguments, .reverse, .cons, .fail, .eval, .set]

def firstTwo (arguments : Value) (next : Value → Value → Script) : Script :=
  .andThen (.head arguments) fun first =>
    .andThen (.tail arguments) fun rest =>
      .andThen (.head rest) fun second => next first second

def routine (stock : StockRoutine) : Routine := .host (all.idxOf stock)

def script (arguments : Value) : StockRoutine → Script
  | .first => .finish (.head arguments)
  | .arguments => .done (.ok arguments)
  | .reverse => .finish (.reverse arguments)
  | .cons => firstTwo arguments fun first second => .finish (.cons first second)
  | .fail => .done (.error .undefined)
  | .eval => .andThen (.head arguments) fun form => .finish (.eval form)
  | .set => firstTwo arguments fun first second =>
    match first with
    | .symbol id => .finish (.define id second)
    | _ => .done (.error .undefined)

end StockRoutine

def Host.stock : Host where
  routine id arguments :=
    match StockRoutine.all[id]? with
    | some routine => routine.script arguments
    | _ => .done (.error .undefined)

end TaggedLisp
