/-!
# Settings

The resource ceilings of an interpreter and the choice of its builtins.
-/

set_option autoImplicit false

namespace TaggedLisp

structure Settings where
  maxSymbols : Nat := 1 <<< 20
  maxCells : Nat := 1 <<< 24
  environmentCapacity : Nat := 1024
  listBuiltins : Bool := true
deriving DecidableEq, Repr, Inhabited

end TaggedLisp
