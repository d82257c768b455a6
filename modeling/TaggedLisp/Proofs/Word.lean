import TaggedLisp.Word
import Mathlib.Algebra.Group.Nat.Defs

/-! Words and the values that they stand for. Every word is viewed as one value, and the tests on words,
each of which looks at a few bits only, agree with the view. A value comes back from its word exactly
if its index leaves room for the tags; of a larger index the high bits are lost, but the tags are
right also then. -/

set_option autoImplicit false

namespace TaggedLisp

/-! ## What a value says about its word -/

def BoxedKind.value : BoxedKind → Nat → Value
  | .error => .error
  | .symbol => .symbol
  | .list => .list
  | .lambda => .lambda

namespace Value

def storage : Value → Storage
  | .internal _ | .emptyList => .immediate
  | _ => .boxed

def immediateKind? : Value → Option ImmediateKind
  | .internal _ => some .error
  | .emptyList => some .emptyList
  | _ => none

def boxedKind? : Value → Option BoxedKind
  | .error _ => some .error
  | .symbol _ => some .symbol
  | .list _ => some .list
  | .lambda _ => some .lambda
  | _ => none

def index? : Value → Option Nat
  | .error index | .symbol index | .list index | .lambda index => some index
  | _ => none

def isError : Value → Bool
  | .internal _ | .error _ => true
  | _ => false

/-- The index, if there is one, leaves room for the tags. -/
def Fits (value : Value) : Prop :=
  ∀ index, value.index? = some index → index ≤ indexLimit

end Value

namespace Word

/-! ## Packing -/

theorem toNat_immediate (kind : ImmediateKind) (payload : Nat) :
    (immediate kind payload).toNat = (payload * 4 + kind.code * 2) % 2 ^ 64 :=
  UInt64.toNat_ofNat

theorem toNat_boxed (kind : BoxedKind) (index : Nat) :
    (boxed kind index).toNat = (index * 8 + kind.code * 2 + 1) % 2 ^ 64 :=
  UInt64.toNat_ofNat

theorem storage_immediate (kind : ImmediateKind) (payload : Nat) :
    (immediate kind payload).storage = .immediate := by
  rw [storage, toNat_immediate, if_neg (by omega)]

theorem storage_boxed (kind : BoxedKind) (index : Nat) :
    (boxed kind index).storage = .boxed := by
  rw [storage, toNat_boxed, if_pos (by omega)]

theorem immediateKind?_immediate (kind : ImmediateKind) (payload : Nat) :
    (immediate kind payload).immediateKind? = some kind := by
  simp only [immediateKind?, storage_immediate, toNat_immediate]
  cases kind with
  | error => rw [ImmediateKind.code, if_neg (by omega)]
  | emptyList => rw [ImmediateKind.code, if_pos (by omega)]

theorem boxedKind?_boxed (kind : BoxedKind) (index : Nat) :
    (boxed kind index).boxedKind? = some kind := by
  have tag : (boxed kind index).toNat / 2 % 4 = kind.code := by
    rw [toNat_boxed]
    cases kind <;> simp only [BoxedKind.code] <;> omega
  simp only [boxedKind?, storage_boxed, tag]
  cases kind <;> rfl

theorem isError_immediate (kind : ImmediateKind) (payload : Nat) :
    (immediate kind payload).isError = decide (kind = .error) := by
  simp [isError, immediateKind?_immediate, boxedKind?, storage_immediate]

theorem isError_boxed (kind : BoxedKind) (index : Nat) :
    (boxed kind index).isError = decide (kind = .error) := by
  simp [isError, boxedKind?_boxed, immediateKind?, storage_boxed]

/-- What remains of the index is its lowest 61 bits. -/
theorem view_boxed (kind : BoxedKind) (index : Nat) :
    (boxed kind index).view = kind.value (index % 2 ^ 61) := by
  have kept : (boxed kind index).toNat / 8 = index % 2 ^ 61 := by
    rw [toNat_boxed]
    cases kind <;> simp only [BoxedKind.code] <;> omega
  simp only [view, storage_boxed, boxedKind?_boxed, kept]
  cases kind <;> rfl

/-- The fields of a boxed word lie side by side, and no shift moves a bit out of the word. -/
theorem toNat_boxed_of_le {kind : BoxedKind} {index : Nat} (le : index ≤ indexLimit) :
    (boxed kind index).toNat = index <<< 3 ||| kind.code <<< 1 ||| 1 := by
  have bound : index < 2 ^ 61 := by
    simp only [indexLimit] at le
    omega
  have tags : kind.code <<< 1 ||| 1 = kind.code * 2 + 1 := by cases kind <;> rfl
  have small : kind.code * 2 + 1 < 2 ^ 3 := by cases kind <;> decide
  rw [toNat_boxed, Nat.or_assoc, tags, ← Nat.shiftLeft_add_eq_or_of_lt small, Nat.shiftLeft_eq]
  omega

end Word

namespace Value

/-! ## Values and their words -/

theorem view_word_of_fits {value : Value} (fits : value.Fits) : value.word.view = value := by
  have kept : ∀ index, value.index? = some index → index % 2 ^ 61 = index := by
    intro index same
    have le := fits index same
    simp only [indexLimit] at le
    omega
  cases value with
  | internal cause => cases cause <;> decide
  | emptyList => decide
  | error index => rw [word, Word.view_boxed, kept index rfl, BoxedKind.value]
  | symbol index => rw [word, Word.view_boxed, kept index rfl, BoxedKind.value]
  | list index => rw [word, Word.view_boxed, kept index rfl, BoxedKind.value]
  | lambda index => rw [word, Word.view_boxed, kept index rfl, BoxedKind.value]

theorem fits_view (word : Word) : word.view.Fits := by
  have bound : word.toNat / 8 ≤ indexLimit := by
    have := word.bits.toNat_lt
    simp only [Word.toNat, indexLimit]
    omega
  intro index same
  unfold Word.view at same
  split at same
  · split at same
    · cases same
    · split at same <;> cases same
  · split at same <;> cases same <;> exact bound

theorem fits_iff {value : Value} : value.Fits ↔ value.word.view = value :=
  ⟨view_word_of_fits, fun same => same ▸ fits_view value.word⟩

/-- The view of a word that was packed packs into that word again, also if bits of the index were
lost. -/
theorem word_view_word (value : Value) : value.word.view.word = value.word := by
  have again : ∀ kind index, Word.boxed kind (index % 2 ^ 61) = Word.boxed kind index := by
    intro kind index
    simp only [Word.boxed, Word.mk.injEq, ← UInt64.toNat_inj, UInt64.toNat_ofNat']
    omega
  cases value with
  | internal cause => cases cause <;> decide
  | emptyList => decide
  | error index => exact (congrArg word (Word.view_boxed .error index)).trans (again .error index)
  | symbol index => exact (congrArg word (Word.view_boxed .symbol index)).trans (again .symbol index)
  | list index => exact (congrArg word (Word.view_boxed .list index)).trans (again .list index)
  | lambda index => exact (congrArg word (Word.view_boxed .lambda index)).trans (again .lambda index)

theorem word_eq_iff {left right : Value} :
    left.word = right.word ↔ left.word.view = right.word.view := by
  refine ⟨congrArg Word.view, fun same => ?_⟩
  rw [← word_view_word left, same, word_view_word right]

theorem eq_of_word_eq {left right : Value} (leftFits : left.Fits) (rightFits : right.Fits)
    (same : left.word = right.word) : left = right := by
  rw [← view_word_of_fits leftFits, same, view_word_of_fits rightFits]

end Value

/-! ## Tests on words -/

/-- All tests on the word tell what its view tells, and it is of exactly one of the four sorts. -/
structure Word.AgreesWithView (word : Word) : Prop where
  storage : word.storage = word.view.storage
  immediateKind? : word.immediateKind? = word.view.immediateKind?
  boxedKind? : word.boxedKind? = word.view.boxedKind?
  index? : word.index? = word.view.index?
  isImmediate : word.isImmediate = decide (word.view.storage = .immediate)
  isBoxed : word.isBoxed = decide (word.view.storage = .boxed)
  isSymbol : word.isSymbol = word.view.symbol?.isSome
  isList : word.isList = word.view.isList
  isEmptyList : word.isEmptyList = decide (word.view = .emptyList)
  isNonemptyList : word.isNonemptyList = word.view.cell?.isSome
  isLambda : word.isLambda = word.view.lambda?.isSome
  isError : word.isError = word.view.isError
  symbol? : word.view.symbol? = if word.isSymbol then word.index? else none
  cell? : word.view.cell? = if word.isNonemptyList then word.index? else none
  lambda? : word.view.lambda? = if word.isLambda then word.index? else none
  oneSort : [word.isSymbol, word.isList, word.isLambda, word.isError].count true = 1

namespace Word

theorem storage_eq (word : Word) : word.storage = word.view.storage := by
  unfold view
  cases word.storage with
  | immediate =>
      dsimp only
      split
      · rfl
      · split <;> rfl
  | boxed =>
      dsimp only
      split <;> rfl

theorem immediateKind?_eq (word : Word) : word.immediateKind? = word.view.immediateKind? := by
  unfold view immediateKind?
  cases word.storage with
  | immediate =>
      by_cases empty : word.toNat / 2 % 2 = 1
      · simp only [empty, ↓reduceIte, Value.immediateKind?]
      · simp only [empty, ↓reduceIte]
        split <;> rfl
  | boxed =>
      dsimp only
      split <;> rfl

theorem boxedKind?_eq (word : Word) : word.boxedKind? = word.view.boxedKind? := by
  unfold view
  cases stored : word.storage with
  | immediate =>
      simp only [boxedKind?, stored]
      split
      · rfl
      · split <;> rfl
  | boxed =>
      simp only [boxedKind?, stored]
      generalize word.toNat / 2 % 4 = tag
      split <;> rfl

theorem index?_eq (word : Word) : word.index? = word.view.index? := by
  unfold view index?
  cases stored : word.storage with
  | immediate =>
      simp only [boxedKind?, stored]
      split
      · rfl
      · split <;> rfl
  | boxed =>
      simp only [boxedKind?, stored]
      generalize word.toNat / 2 % 4 = tag
      split <;> rfl

/-- The tests read the tags, and the tags are those of the view. -/
theorem agreesWithView (word : Word) : word.AgreesWithView := by
  constructor
  case storage => exact word.storage_eq
  case immediateKind? => exact word.immediateKind?_eq
  case boxedKind? => exact word.boxedKind?_eq
  case index? => exact word.index?_eq
  case isImmediate | isBoxed => simp only [isImmediate, isBoxed, word.storage_eq]
  all_goals
    simp only [isSymbol, isList, isEmptyList, isNonemptyList, isLambda, isError,
      word.immediateKind?_eq, word.boxedKind?_eq, word.index?_eq]
    cases word.view <;> rfl

end Word

end TaggedLisp
