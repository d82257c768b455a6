import TaggedLisp.Heap.Basic
import Std.Data.TreeMap

/-!
# Environments

An environment binds symbols to values. There are no scopes: a symbol that is bound keeps its value
for the life of the environment, and the number of bindings is limited.
-/

set_option autoImplicit false

namespace TaggedLisp

structure Environment where
  table : Std.TreeMap Nat Value
  capacity : Nat

namespace Environment

def empty (capacity : Nat) : Environment where
  table := ∅
  capacity := capacity

def size (environment : Environment) : Nat :=
  environment.table.size

def find? (environment : Environment) (symbol : Nat) : Option Value :=
  environment.table[symbol]?

def isBound (environment : Environment) (symbol : Nat) : Bool :=
  (environment.find? symbol).isSome

def bindings (environment : Environment) : List (Nat × Value) :=
  environment.table.toList

/-- Binds a symbol that is not bound, if there is room, and answers the symbol. That it is not bound
is checked first. The heap is read only for the name in the message. -/
def define (environment : Environment) (heap : Heap) (symbol : Nat) (value : Value) :
    Checked (Except Error Value × Environment) :=
  if environment.isBound symbol then do
    return (.error (.redefinition (← heap.name symbol)), environment)
  else if environment.capacity ≤ environment.size then
    return (.error (.environmentFull environment.capacity), environment)
  else
    return (.ok (.symbol symbol),
      { environment with table := environment.table.insert symbol value })

/-- The value of a symbol. The heap is read only for the name in the message. -/
def lookup (environment : Environment) (heap : Heap) (symbol : Nat) :
    Checked (Except Error Value) :=
  match environment.find? symbol with
  | some value => return .ok value
  | none => do return .error (.unbound (← heap.name symbol))

end Environment

end TaggedLisp
