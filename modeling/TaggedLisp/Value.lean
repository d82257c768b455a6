/-!
# Values

A value is an immediate, which is one of two internal errors or the empty list, or it names an entry
of one of the four stores of a heap: error records, symbols, cells and lambda records. A value does
not say which heap it belongs to. How a value is packed into a machine word is the subject of
`TaggedLisp.Word`.
-/

set_option autoImplicit false

namespace TaggedLisp

/-- The largest store index that fits in a machine word beside its tags. Every store refuses to grow
past it. -/
def indexLimit : Nat := (1 <<< 61) - 1

/-- The failures that need no record, so that they can be reported when no store has room. -/
inductive InternalError where
  | undefined
  | outOfMemory
deriving DecidableEq, Repr, Inhabited

/-- A value of the language. Boxed values hold the index of their entry. -/
inductive Value where
  | internal (cause : InternalError)
  | emptyList
  | error (record : Nat)
  | symbol (id : Nat)
  | list (cell : Nat)
  | lambda (record : Nat)
deriving DecidableEq, Repr, Inhabited

namespace Value

abbrev undefined : Value := .internal .undefined

abbrev outOfMemory : Value := .internal .outOfMemory

/-- Lists are the empty list and the values that name a cell. Only these may be the tail of a cell. -/
def isList : Value → Bool
  | .emptyList | .list _ => true
  | _ => false

def symbol? : Value → Option Nat
  | .symbol id => some id
  | _ => none

def cell? : Value → Option Nat
  | .list cell => some cell
  | _ => none

def lambda? : Value → Option Nat
  | .lambda record => some record
  | _ => none

end Value

end TaggedLisp
