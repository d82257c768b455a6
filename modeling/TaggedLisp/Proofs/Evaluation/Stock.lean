import TaggedLisp.Proofs.Evaluation.Layout
import TaggedLisp.StockRoutine

/-! The stock routines do not look at the layout of the cells: they take arguments apart, build lists of
them, and come back to the evaluator and to the bindings with what they find, whatever it is. -/

set_option autoImplicit false

namespace TaggedLisp

open Evaluation Machine

variable {recur : Task → Evaluation Value}

/-! ## Scripts as computations -/

namespace StockRoutine

variable {routines : Set Nat} {spare : Nat} {left right : Machine} {arguments others : Value}

end StockRoutine

end TaggedLisp
