import TaggedLisp.Heap.List

/-!
# The text of a value

A value is shown as the source text that would read as it: symbols by their names, lists in
parentheses with single spaces. Errors and lambdas have no source text and are shown in angle
brackets.
-/

set_option autoImplicit false

namespace TaggedLisp

def Lambda.display (lambda : Lambda) : String :=
  s!"#lambda<builtin:{lambda.signature}>"

namespace Heap

/-- The text of a value whose lists are nested less than `depth` deep. -/
def displayWithin (heap : Heap) : Nat → Value → Checked String
  | 0, _ => .error .endless
  | depth + 1, value =>
    match value with
    | .internal .undefined => return "#error<undefined>"
    | .internal .outOfMemory => return "#error<out-of-memory>"
    | .error record => return "#error<" ++ (← heap.errorRecord record).message ++ ">"
    | .emptyList => return "()"
    | .symbol id => heap.name id
    | .lambda record => return (← heap.lambda record).display
    | .list _ => do
      let elements ← heap.elements value
      let texts ← elements.mapM (heap.displayWithin depth)
      return "(" ++ " ".intercalate texts ++ ")"

/-- The text of a value. Lists that are nested deeper than there are cells contain themselves. -/
def display (heap : Heap) (value : Value) : Checked String :=
  heap.displayWithin (heap.cells.size + 1) value

end Heap

end TaggedLisp
