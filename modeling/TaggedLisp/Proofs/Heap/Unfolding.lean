import TaggedLisp.Proofs.Heap.Growth
import TaggedLisp.Proofs.Tree
import Mathlib.Data.List.Perm.Subperm

/-! Unfolding relates a value of a heap to the tree that it stands for. A value has at most one tree,
and allocation never changes it. Whoever knows the tree of a value knows what every walk through
its cells finds: no order of the cells and no invariant of the heap is needed for that, because a
finite tree already rules out that a walk comes back to a cell. -/

set_option autoImplicit false

namespace TaggedLisp

namespace Heap

/-- The value stands for the tree in this heap. -/
inductive Unfolds (heap : Heap) : Value → Tree → Prop where
  | internal {cause : InternalError} : Unfolds heap (.internal cause) (.internal cause)
  | error {record : Nat} {error : Error} :
      heap.errors[record]? = some error → Unfolds heap (.error record) (.error error)
  | symbol {id : Nat} {name : String} :
      heap.symbols.name? id = some name → Unfolds heap (.symbol id) (.symbol name)
  | lambda {record : Nat} {contents : Lambda} :
      heap.lambdas[record]? = some contents →
      Unfolds heap (.lambda record) (.lambda record contents)
  | emptyList : Unfolds heap .emptyList (.list [])
  | list {cell : Nat} {link : Cell} {element : Tree} {elements : List Tree} :
      heap.cells[cell]? = some link → Unfolds heap link.head element →
      Unfolds heap link.tail (.list elements) →
      Unfolds heap (.list cell) (.list (element :: elements))

theorem Unfolds.unique {heap : Heap} {value : Value} {left right : Tree}
    (unfolds : heap.Unfolds value left) (other : heap.Unfolds value right) : left = right := by
  induction unfolds generalizing right with
  | internal | emptyList => cases other; rfl
  | error found =>
      cases other with
      | error otherFound => cases found.symm.trans otherFound; rfl
  | symbol found =>
      cases other with
      | symbol otherFound => cases found.symm.trans otherFound; rfl
  | lambda found =>
      cases other with
      | lambda otherFound => cases found.symm.trans otherFound; rfl
  | list found _ _ headIH tailIH =>
      cases other with
      | list otherFound head tail =>
          cases found.symm.trans otherFound
          cases headIH head
          cases tailIH tail
          rfl

theorem Unfolds.grow {before after : Heap} (growth : before.GrowsTo after) {value : Value}
    {tree : Tree} (unfolds : before.Unfolds value tree) : after.Unfolds value tree := by
  induction unfolds with
  | internal => exact .internal
  | emptyList => exact .emptyList
  | error found => exact .error (growth.errors found)
  | symbol found => exact .symbol (growth.symbols.names found)
  | lambda found => exact .lambda (growth.lambdas found)
  | list found _ _ headIH tailIH => exact .list (growth.cells found) headIH tailIH

theorem Unfolds.contains {heap : Heap} {value : Value} {tree : Tree}
    (unfolds : heap.Unfolds value tree) : heap.contains value = true := by
  cases unfolds with
  | internal | emptyList => rfl
  | symbol named => exact decide_eq_true (SymbolTable.lt_size_of_name? named)
  | error found | lambda found | list found =>
      exact decide_eq_true (Array.getElem?_eq_some_iff.mp found).1

theorem contains_of_unfoldsEach {heap : Heap} {values : List Value} {trees : List Tree}
    (each : List.Forall₂ heap.Unfolds values trees) :
    ∀ value ∈ values, heap.contains value = true := by
  induction each with
  | nil => simp
  | cons unfolds _ ih => exact List.forall_mem_cons.mpr ⟨unfolds.contains, ih⟩

theorem Unfolds.isList {heap : Heap} {value : Value} {elements : List Tree}
    (unfolds : heap.Unfolds value (.list elements)) : value.isList = true := by
  cases unfolds <;> rfl

/-! ### The height of a tree is bounded by the number of cells -/

theorem length_le_of_distinct_cells {heap : Heap} {cells : List Nat}
    (distinct : cells.Nodup) (known : ∀ cell ∈ cells, heap.contains (.list cell) = true) :
    cells.length ≤ heap.cells.size := by
  have inside : cells ⊆ List.range heap.cells.size := by
    intro cell member
    exact List.mem_range.mpr (of_decide_eq_true (known cell member))
  simpa using (distinct.subperm inside).length_le

/-- On the way down from a value every cell stands for a larger tree than those below it, so no cell
is met twice. -/
private theorem Unfolds.height_add_length_le {heap : Heap} {value : Value} {tree : Tree}
    (unfolds : heap.Unfolds value tree) :
    ∀ passed : List Nat, passed.Nodup →
      (∀ cell ∈ passed, ∃ larger, heap.Unfolds (.list cell) larger ∧ sizeOf tree < sizeOf larger) →
      tree.height + passed.length ≤ heap.cells.size := by
  induction unfolds with
  | @list cell link element elements found head tail headIH tailIH =>
      intro passed distinct known
      have self := Unfolds.list found head tail
      -- A cell met again would stand for a tree that is larger than itself.
      have unmet : cell ∉ passed := by
        intro member
        obtain ⟨larger, unfolds, bigger⟩ := known cell member
        rw [self.unique unfolds] at bigger
        exact Nat.lt_irrefl _ bigger
      have distinctBelow : (cell :: passed).Nodup := List.nodup_cons.mpr ⟨unmet, distinct⟩
      have smallerHead : sizeOf element < sizeOf (Tree.list (element :: elements)) := by
        simp only [Tree.list.sizeOf_spec, List.cons.sizeOf_spec]
        omega
      have smallerTail :
          sizeOf (Tree.list elements) < sizeOf (Tree.list (element :: elements)) := by
        simp only [Tree.list.sizeOf_spec, List.cons.sizeOf_spec]
        omega
      have knownBelow : ∀ smaller : Nat, smaller < sizeOf (Tree.list (element :: elements)) →
          ∀ passedCell ∈ cell :: passed,
            ∃ larger, heap.Unfolds (.list passedCell) larger ∧ smaller < sizeOf larger := by
        intro smaller less passedCell member
        rcases List.mem_cons.mp member with rfl | member
        · exact ⟨_, self, less⟩
        · obtain ⟨larger, unfolds, bigger⟩ := known passedCell member
          exact ⟨larger, unfolds, Nat.lt_trans less bigger⟩
      have headBound := headIH (cell :: passed) distinctBelow (knownBelow _ smallerHead)
      have tailBound := tailIH (cell :: passed) distinctBelow (knownBelow _ smallerTail)
      simp only [Tree.height_list, Tree.heightEach_cons, List.length_cons] at headBound tailBound ⊢
      omega
  | _ =>
      intro passed distinct known
      have contained : ∀ cell ∈ passed, heap.contains (.list cell) = true := by
        intro cell member
        obtain ⟨larger, unfolds, -⟩ := known cell member
        exact unfolds.contains
      simpa [Tree.height] using length_le_of_distinct_cells distinct contained

theorem Unfolds.height_le {heap : Heap} {value : Value} {tree : Tree}
    (unfolds : heap.Unfolds value tree) : tree.height ≤ heap.cells.size := by
  simpa using unfolds.height_add_length_le [] List.nodup_nil (by simp)

/-! ### Reading lists -/

theorem Unfolds.exists_take {heap : Heap} {value : Value} {trees : List Tree}
    (unfolds : heap.Unfolds value (.list trees)) :
    ∃ values, List.Forall₂ heap.Unfolds values trees ∧
      ∀ count, heap.take count value = .ok (values.take count) := by
  generalize shape : Tree.list trees = tree at unfolds
  induction unfolds generalizing trees with
  | emptyList =>
      cases shape
      exact ⟨[], .nil, fun count => by cases count <;> rfl⟩
  | @list cell link element elements found head tail _ tailIH =>
      cases shape
      obtain ⟨values, each, taken⟩ := tailIH rfl
      refine ⟨link.head :: values, .cons head each, fun count => ?_⟩
      cases count with
      | zero => rfl
      | succ count =>
          simp only [Heap.take, Heap.cell, found, taken, List.take_succ_cons, bind, Except.bind]
          rfl
  | _ => cases shape

theorem Unfolds.length_le {heap : Heap} {value : Value} {trees : List Tree}
    (unfolds : heap.Unfolds value (.list trees)) : trees.length ≤ heap.cells.size :=
  Nat.le_trans (Tree.length_le_heightEach trees) (by simpa using unfolds.height_le)

/-- What every way of reading a list finds. -/
theorem Unfolds.exists_elements {heap : Heap} {value : Value} {trees : List Tree}
    (unfolds : heap.Unfolds value (.list trees)) :
    ∃ values, List.Forall₂ heap.Unfolds values trees ∧
      heap.elements value = .ok values ∧ heap.toList value = .ok (.ok values) ∧
      ∀ count, heap.take count value = .ok (values.take count) := by
  obtain ⟨values, each, taken⟩ := unfolds.exists_take
  have short : values.length ≤ heap.cells.size := each.length_eq ▸ unfolds.length_le
  have whole : heap.elements value = .ok values := by
    simp only [elements, taken, bind, Except.bind]
    rw [List.take_of_length_le (Nat.le_succ_of_le short), if_pos short]
    rfl
  refine ⟨values, each, whole, ?_, taken⟩
  simp only [toList, unfolds.isList, whole, ↓reduceIte]
  rfl

theorem Unfolds.count {heap : Heap} {value : Value} {trees : List Tree}
    (unfolds : heap.Unfolds value (.list trees)) : heap.count value = .ok (.ok trees.length) := by
  obtain ⟨values, each, -, listed, -⟩ := unfolds.exists_elements
  simp only [Heap.count, listed, ← each.length_eq]
  rfl

end Heap

end TaggedLisp
