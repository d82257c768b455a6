import TaggedLisp.Heap.List

/-!
# Quoted forms

A quoted form is a list of exactly two elements of which the first is the keyword `quote`. Quoting
puts one such layer around a value, and unquoting takes exactly one away.
-/

set_option autoImplicit false

namespace TaggedLisp

namespace Heap

/-- The quoted form of a value: `(quote value)`. The inner cell is allocated first, and stays if
there is no room for the outer one. -/
def quote (heap : Heap) (value : Value) : Except Error Value × Heap :=
  heap.listOf [.symbol heap.keywords.quote, value]

def isQuoted (heap : Heap) (value : Value) : Checked Bool :=
  match value with
  | .list cell => do
    let link ← heap.cell cell
    if link.head = .symbol heap.keywords.quote then heap.isPair value else return false
  | _ => .ok false

def unquote (heap : Heap) (value : Value) : Checked (Except Error Value) := do
  if ← heap.isQuoted value then
    match ← heap.tail value with
    | .ok rest => heap.head rest
    | .error error => return .error error
  else
    return .error .notQuoted

end Heap

end TaggedLisp
