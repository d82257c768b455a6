import TaggedLisp.Value

/-!
# Machine words

A word is 64 bits. Its lowest bit is the storage tag. An immediate word (tag 0) has its kind in the
next bit and a payload above; a boxed word (tag 1) has its kind in the next two bits and a store
index above. `Value.word` packs a value and `Word.view` reads any word back; indices up to
`indexLimit` survive the round trip, larger ones lose their high bits.
-/

set_option autoImplicit false

namespace TaggedLisp

inductive Storage where
  | immediate
  | boxed
deriving DecidableEq, Repr

inductive ImmediateKind where
  | error
  | emptyList
deriving DecidableEq, Repr

inductive BoxedKind where
  | error
  | symbol
  | list
  | lambda
deriving DecidableEq, Repr

def Storage.code : Storage → Nat
  | .immediate => 0
  | .boxed => 1

def ImmediateKind.code : ImmediateKind → Nat
  | .error => 0
  | .emptyList => 1

def BoxedKind.code : BoxedKind → Nat
  | .error => 0
  | .symbol => 1
  | .list => 2
  | .lambda => 3

def InternalError.code : InternalError → Nat
  | .undefined => 0
  | .outOfMemory => 1

def Storage.name : Storage → String
  | .immediate => "Immediate"
  | .boxed => "Boxed"

def ImmediateKind.name : ImmediateKind → String
  | .error => "Error"
  | .emptyList => "EmptyList"

def BoxedKind.name : BoxedKind → String
  | .error => "Error"
  | .symbol => "Symbol"
  | .list => "List"
  | .lambda => "Lambda"

structure Word where
  bits : UInt64
deriving DecidableEq, Repr

namespace Word

/-- The immediate word of the given kind and payload. A payload of more than 62 bits loses its high
bits. -/
def immediate (kind : ImmediateKind) (payload : Nat) : Word :=
  ⟨.ofNat (payload * 4 + kind.code * 2)⟩

/-- The boxed word of the given kind and index. An index of more than 61 bits loses its high bits. -/
def boxed (kind : BoxedKind) (index : Nat) : Word :=
  ⟨.ofNat (index * 8 + kind.code * 2 + 1)⟩

def toNat (word : Word) : Nat :=
  word.bits.toNat

def storage (word : Word) : Storage :=
  if word.toNat % 2 = 1 then .boxed else .immediate

def immediateKind? (word : Word) : Option ImmediateKind :=
  match word.storage with
  | .immediate => some (if word.toNat / 2 % 2 = 1 then .emptyList else .error)
  | .boxed => none

def boxedKind? (word : Word) : Option BoxedKind :=
  match word.storage with
  | .immediate => none
  | .boxed =>
    some (match word.toNat / 2 % 4 with
      | 0 => .error
      | 1 => .symbol
      | 2 => .list
      | _ => .lambda)

def payload? (word : Word) : Option Nat :=
  word.immediateKind?.map fun _ => word.toNat / 4

def index? (word : Word) : Option Nat :=
  word.boxedKind?.map fun _ => word.toNat / 8

/-- The value that a word stands for. An immediate error with a payload that marks no error counts
as undefined, and the payload of the empty list is ignored. -/
def view (word : Word) : Value :=
  match word.storage with
  | .immediate =>
    match word.immediateKind? with
    | some .emptyList => .emptyList
    | _ => if word.toNat / 4 = 1 then .outOfMemory else .undefined
  | .boxed =>
    match word.boxedKind? with
    | some .symbol => .symbol (word.toNat / 8)
    | some .list => .list (word.toNat / 8)
    | some .lambda => .lambda (word.toNat / 8)
    | _ => .error (word.toNat / 8)

def isImmediate (word : Word) : Bool :=
  word.storage = .immediate

def isBoxed (word : Word) : Bool :=
  word.storage = .boxed

def isSymbol (word : Word) : Bool :=
  word.boxedKind? = some .symbol

def isEmptyList (word : Word) : Bool :=
  word.immediateKind? = some .emptyList

def isNonemptyList (word : Word) : Bool :=
  word.boxedKind? = some .list

def isList (word : Word) : Bool :=
  word.isEmptyList || word.isNonemptyList

def isLambda (word : Word) : Bool :=
  word.boxedKind? = some .lambda

def isError (word : Word) : Bool :=
  word.immediateKind? = some .error || word.boxedKind? = some .error

end Word

def Value.word : Value → Word
  | .internal cause => .immediate .error cause.code
  | .emptyList => .immediate .emptyList 0
  | .error record => .boxed .error record
  | .symbol id => .boxed .symbol id
  | .list cell => .boxed .list cell
  | .lambda record => .boxed .lambda record

example : Value.undefined.word.bits = 0 := by decide

example : Value.emptyList.word.bits = 2 := by decide

example : (Value.symbol 5).word.bits = 0x2b := by decide

end TaggedLisp
