import TaggedLisp.Heap.Basic

/-!
# Structural equality

Two lists are equal if their elements are, one by one, wherever their cells lie. Symbols and lambdas
are equal if they are the same entry. Errors are compared by category, and all internal errors are
equal to each other.
-/

set_option autoImplicit false

namespace TaggedLisp

namespace Heap

/-- Compares two values to the given depth, where each step to a head or to a tail counts as one.
Heads are compared before tails, and the first difference decides. -/
def equalWithin (heap : Heap) : Nat → Value → Value → Checked Bool
  | 0, _, _ => .error .endless
  | depth + 1, left, right =>
    match left, right with
    | .internal _, .internal _ => .ok true
    | .emptyList, .emptyList => .ok true
    | .symbol left, .symbol right => .ok (left = right)
    | .lambda left, .lambda right => .ok (left = right)
    | .error left, .error right => do
      return (← heap.errorRecord left).kind = (← heap.errorRecord right).kind
    | .list left, .list right => do
      let leftCell ← heap.cell left
      let rightCell ← heap.cell right
      if ← heap.equalWithin depth leftCell.head rightCell.head then
        heap.equalWithin depth leftCell.tail rightCell.tail
      else
        return false
    | _, _ => .ok false

/-- Whether two values are structurally equal. A comparison that is nested deeper than there are
pairs of cells has come back to a pair that it is still inside of. -/
def isEqual (heap : Heap) (left right : Value) : Checked Bool :=
  heap.equalWithin (heap.cells.size * heap.cells.size + 1) left right

end Heap

end TaggedLisp
