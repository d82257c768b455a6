import TaggedLisp.Proofs.Heap.WellFormed
import TaggedLisp.Proofs.Walks

/-! Two values are equal exactly if their trees are, once everything is blurred that equality does
not look at: which internal error a tree holds, and what any other error says beyond its category. So
equality is an equivalence, and on values of lists and symbols it is equality of trees, wherever the
cells lie and whichever of them are shared. -/

set_option autoImplicit false

namespace TaggedLisp

/-- The error of a category that says nothing else. -/
def ErrorKind.bare : ErrorKind → Error
  | .undefined => .undefined
  | .outOfMemory => .outOfMemory
  | .invalidSymbolLength => .invalidSymbolLength 0
  | .symbolLimitExceeded => .symbolLimitExceeded 0
  | .emptyListAccess => .emptyListAccess ""
  | .notAList => .notAList
  | .notQuoted => .notQuoted
  | .unbound => .unbound ""
  | .malformed => .invalidToken ""
  | .arityMismatch => .arityMismatch "" 0 0
  | .redefinition => .redefinition ""
  | .notCallable => .notCallable ""
  | .environmentFull => .environmentFull 0

theorem ErrorKind.kind_bare (kind : ErrorKind) : kind.bare.kind = kind := by
  cases kind <;> rfl

theorem ErrorKind.bare_injective {left right : ErrorKind} (same : left.bare = right.bare) :
    left = right := by
  rw [← left.kind_bare, same, right.kind_bare]

namespace Tree

mutual

/-- The tree with all internal errors made one, and with nothing left of other errors but their
category. -/
def blurred : Tree → Tree
  | .internal _ => .internal .undefined
  | .error cause => .error cause.kind.bare
  | .symbol name => .symbol name
  | .lambda record contents => .lambda record contents
  | .list elements => .list (blurredEach elements)

def blurredEach : List Tree → List Tree
  | [] => []
  | element :: elements => element.blurred :: blurredEach elements

end

/-- Trees of lists and symbols, which hold no error and no lambda. -/
inductive IsPlain : Tree → Prop where
  | symbol {name : String} : IsPlain (.symbol name)
  | list {elements : List Tree} : (∀ element ∈ elements, IsPlain element) → IsPlain (.list elements)

@[simp] theorem blurred_internal (cause : InternalError) :
    (Tree.internal cause).blurred = .internal .undefined := by
  rw [blurred]

@[simp] theorem blurred_error (cause : Error) :
    (Tree.error cause).blurred = .error cause.kind.bare := by
  rw [blurred]

@[simp] theorem blurred_symbol (name : String) : (Tree.symbol name).blurred = .symbol name := by
  rw [blurred]

@[simp] theorem blurred_lambda (record : Nat) (contents : Lambda) :
    (Tree.lambda record contents).blurred = .lambda record contents := by
  rw [blurred]

@[simp] theorem blurred_list (elements : List Tree) :
    (Tree.list elements).blurred = .list (elements.map blurred) := by
  rw [blurred]
  congr 1
  induction elements with
  | nil => rw [blurredEach, List.map_nil]
  | cons element elements ih => rw [blurredEach, List.map_cons, ih]

theorem IsPlain.blurred_eq {tree : Tree} (plain : tree.IsPlain) : tree.blurred = tree := by
  induction plain with
  | symbol => rw [blurred_symbol]
  | @list elements _ ih => rw [blurred_list, List.map_congr_left ih, List.map_id']

private theorem eq_of_map_datum_eq {trees others : List Tree}
    (known : ∀ tree ∈ trees, ∀ other : Tree, tree.datum = other.datum → tree = other)
    (same : trees.map datum = others.map datum) : trees = others := by
  induction trees generalizing others with
  | nil => exact (List.map_eq_nil_iff.mp same.symm).symm
  | cons tree trees ih =>
      cases others with
      | nil => cases same
      | cons other others =>
          obtain ⟨first, later⟩ := List.cons.inj same
          obtain ⟨here, there⟩ := List.forall_mem_cons.mp known
          rw [here other first, ih there later]

/-- A plain tree can be told from all others by its datum. -/
theorem IsPlain.eq_of_datum_eq {tree : Tree} (plain : tree.IsPlain) :
    ∀ other : Tree, tree.datum = other.datum → tree = other := by
  induction plain with
  | symbol =>
      intro other same
      cases other <;> simp_all [datum]
  | list _ ih =>
      intro other same
      cases other with
      | list others =>
          simp only [datum, datumEach_eq_map, Datum.list.injEq] at same
          rw [eq_of_map_datum_eq ih same]
      | _ => simp [datum] at same

end Tree

namespace Heap

/-- What equality finds out in two heaps with the same lambdas: whether the blurred trees are equal. -/
theorem Unfolds.isSame_iff {heap other : Heap} (lambdas : other.lambdas = heap.lambdas)
    {left right : Value} {leftTree rightTree : Tree} (leftUnfolds : heap.Unfolds left leftTree)
    (rightUnfolds : other.Unfolds right rightTree) :
    leftTree.isSame rightTree = true ↔ leftTree.blurred = rightTree.blurred := by
  induction leftUnfolds generalizing right rightTree with
  | internal => cases rightUnfolds <;> simp [Tree.isSame]
  | emptyList => cases rightUnfolds <;> simp [Tree.isSame, Tree.isSameEach]
  | error =>
      cases rightUnfolds with
      | error =>
          simp only [Tree.isSame, decide_eq_true_eq, Tree.blurred_error, Tree.error.injEq]
          exact ⟨congrArg ErrorKind.bare, ErrorKind.bare_injective⟩
      | _ => simp [Tree.isSame]
  | symbol => cases rightUnfolds <;> simp [Tree.isSame]
  | lambda found =>
      cases rightUnfolds with
      | lambda otherFound =>
          -- A record is the same lambda in both heaps, so the numbers decide.
          simp only [Tree.isSame, decide_eq_true_eq, Tree.blurred_lambda, Tree.lambda.injEq]
          refine ⟨fun same => ⟨same, ?_⟩, And.left⟩
          subst same
          rw [lambdas] at otherFound
          exact Option.some.inj (found.symm.trans otherFound)
      | _ => simp [Tree.isSame]
  | list _ _ _ headIH tailIH =>
      cases rightUnfolds with
      | list _ head tail =>
          have tails := tailIH tail
          simp only [Tree.isSame, Tree.blurred_list, Tree.list.injEq] at tails
          simp only [Tree.isSame, Tree.isSameEach, Bool.and_eq_true, headIH head, tails,
            Tree.blurred_list, List.map_cons, Tree.list.injEq, List.cons.injEq]
      | _ => simp [Tree.isSame, Tree.isSameEach]

/-- Comparing ends for all values of a heap, and finds out whether their blurred trees are equal. So
it does not matter which of the two stands first, and equality passes from value to value. Plain
values are equal exactly if their data are, and exactly if their trees are. -/
theorem WellFormed.isEqual_compares_trees {heap : Heap} (wellFormed : heap.WellFormed)
    {left right : Value} (leftContained : heap.contains left = true)
    (rightContained : heap.contains right = true) :
    heap.isEqual left left = .ok true ∧
    ∃ same leftTree rightTree leftDatum rightDatum,
      heap.isEqual left right = .ok same ∧ heap.isEqual right left = .ok same ∧
      heap.Unfolds left leftTree ∧ heap.Unfolds right rightTree ∧
      (same = true ↔ leftTree.blurred = rightTree.blurred) ∧
      (∀ third, heap.contains third = true → same = true →
        heap.isEqual left third = heap.isEqual right third) ∧
      heap.toDatum left = .ok leftDatum ∧ heap.toDatum right = .ok rightDatum ∧
      (leftTree.IsPlain → rightTree.IsPlain →
        (same = true ↔ leftDatum = rightDatum) ∧ (same = true ↔ leftTree = rightTree)) := by
  obtain ⟨leftTree, leftUnfolds⟩ := wellFormed.exists_unfolds leftContained
  obtain ⟨rightTree, rightUnfolds⟩ := wellFormed.exists_unfolds rightContained
  have compared := leftUnfolds.isSame_iff rfl rightUnfolds
  have swapped : rightTree.isSame leftTree = leftTree.isSame rightTree :=
    Bool.eq_iff_iff.mpr
      ((rightUnfolds.isSame_iff rfl leftUnfolds).trans (eq_comm.trans compared.symm))
  refine ⟨leftTree.isSame_refl ▸ leftUnfolds.isEqual leftUnfolds, _, leftTree, rightTree, _, _,
    leftUnfolds.isEqual rightUnfolds, swapped ▸ rightUnfolds.isEqual leftUnfolds, leftUnfolds,
    rightUnfolds, compared, fun third contained same => ?_, leftUnfolds.toDatum,
    rightUnfolds.toDatum, fun leftPlain rightPlain => ?_⟩
  · obtain ⟨thirdTree, thirdUnfolds⟩ := wellFormed.exists_unfolds contained
    have alike : leftTree.isSame thirdTree = rightTree.isSame thirdTree :=
      Bool.eq_iff_iff.mpr (by
        rw [leftUnfolds.isSame_iff rfl thirdUnfolds, rightUnfolds.isSame_iff rfl thirdUnfolds,
          compared.mp same])
    rw [leftUnfolds.isEqual thirdUnfolds, rightUnfolds.isEqual thirdUnfolds, alike]
  · rw [compared, leftPlain.blurred_eq, rightPlain.blurred_eq]
    exact ⟨⟨congrArg Tree.datum, leftPlain.eq_of_datum_eq rightTree⟩, Iff.rfl⟩

/-- In `(a) (a)` the two lists are different words, and equal. -/
theorem isEqual_of_lists_apart :
    ∃ heap forms after left right, Heap.new {} = .ok heap ∧
      heap.parse "(a) (a)" = (.ok forms, after) ∧ after.WellFormed ∧
      after.toList forms = .ok (.ok [left, right]) ∧ left ≠ right ∧
      after.contains left = true ∧ after.contains right = true ∧
      after.isEqual left right = .ok true ∧ after.isEqual right left = .ok true := by
  have created : Heap.new {} = .ok ((Heap.new {}).toOption.get (by decide)) := rfl
  have checked :
      let read := ((Heap.new {}).toOption.get (by decide)).parse "(a) (a)"
      read.1 = .ok (.list 3) ∧ read.2.toList (.list 3) = .ok (.ok [.list 0, .list 1]) ∧
        read.2.contains (.list 0) = true ∧ read.2.contains (.list 1) = true ∧
        read.2.isEqual (.list 0) (.list 1) = .ok true := by
    decide +kernel
  have wellFormed := ((wellFormed_new created).keeps_parse "(a) (a)").wellFormed
  generalize (Heap.new {}).toOption.get (by decide) = heap at created checked wellFormed
  obtain ⟨parsed, listed, leftContained, rightContained, equal⟩ := checked
  obtain ⟨-, same, _, _, _, _, compared, swapped, -⟩ :=
    wellFormed.isEqual_compares_trees leftContained rightContained
  rw [compared] at equal
  cases equal
  exact ⟨heap, _, _, _, _, created, Prod.ext parsed rfl, wellFormed, listed, by decide,
    leftContained, rightContained, compared, swapped⟩

end Heap

end TaggedLisp
