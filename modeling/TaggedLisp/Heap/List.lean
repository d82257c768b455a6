import TaggedLisp.Heap.Basic

/-!
# Lists in the heap

A list is the empty list or a cell whose tail is a list. Lists are built from their last element
backwards. Walks follow tails; a walk that takes more steps than there are cells has come back to a
cell, so it is cut off there as endless.
-/

set_option autoImplicit false

namespace TaggedLisp

namespace Heap

def head (heap : Heap) (list : Value) : Checked (Except Error Value) :=
  match list with
  | .list cell => do return .ok (← heap.cell cell).head
  | .emptyList => .ok (.error (.emptyListAccess "head"))
  | _ => .ok (.error .notAList)

def tail (heap : Heap) (list : Value) : Checked (Except Error Value) :=
  match list with
  | .list cell => do return .ok (← heap.cell cell).tail
  | .emptyList => .ok (.error (.emptyListAccess "tail"))
  | _ => .ok (.error .notAList)

/-- At most the first `count` elements along the tails of a value. A value that is no list has
none. -/
def take (heap : Heap) : Nat → Value → Checked (List Value)
  | count + 1, .list cell => do
    let link ← heap.cell cell
    let rest ← heap.take count link.tail
    return link.head :: rest
  | _, _ => .ok []

def elements (heap : Heap) (value : Value) : Checked (List Value) := do
  let found ← heap.take (heap.cells.size + 1) value
  if found.length ≤ heap.cells.size then return found else throw .endless

def toList (heap : Heap) (list : Value) : Checked (Except Error (List Value)) :=
  if list.isList then .ok <$> heap.elements list else .ok (.error .notAList)

def count (heap : Heap) (list : Value) : Checked (Except Error Nat) :=
  (·.map List.length) <$> heap.toList list

/-- Builds the list of the given elements. Cells that were allocated before room ran out stay. -/
def listOf (heap : Heap) (elements : List Value) : Except Error Value × Heap :=
  elements.foldr
    (fun element built =>
      match built with
      | (.ok tail, heap) => heap.cons element tail
      | (.error error, heap) => (.error error, heap))
    (.ok .emptyList, heap)

/-- Builds the list with the elements in the opposite order. The given list is left as it is. -/
def reverse (heap : Heap) (list : Value) : Checked (Except Error Value × Heap) := do
  match ← heap.toList list with
  | .ok elements => return heap.listOf elements.reverse
  | .error error => return (.error error, heap)

def isPair (heap : Heap) (value : Value) : Checked Bool := do
  return (← heap.take 3 value).length = 2

def isTriple (heap : Heap) (value : Value) : Checked Bool := do
  return (← heap.take 4 value).length = 3

end Heap

end TaggedLisp
