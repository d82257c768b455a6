import TaggedLisp.Proofs.Heap.Unfolding

/-! What building lists does: which cells are added, when there is no room, and which tree the new
list stands for. The elements may be any values that stand for trees; they need not be new. -/

set_option autoImplicit false

namespace TaggedLisp

namespace Heap

/-- What putting an element in front of a value can do: refuse a tail that is no list, refuse for
lack of room, or add one cell. -/
inductive Conses (heap : Heap) (head tail : Value) : Except Error Value × Heap → Prop where
  | refused (notList : tail.isList = false) : Conses heap head tail (.error .notAList, heap)
  | full (isList : tail.isList = true) (noRoom : heap.maxCells ≤ heap.cells.size) :
      Conses heap head tail (.error .outOfMemory, heap)
  | added (isList : tail.isList = true) (room : heap.cells.size < heap.maxCells) :
      Conses heap head tail
        (.ok (.list heap.cells.size), { heap with cells := heap.cells.push ⟨head, tail⟩ })

theorem cons_conses (heap : Heap) (head tail : Value) :
    Conses heap head tail (heap.cons head tail) := by
  unfold cons
  split
  · next notList => exact .refused (by simpa using notList)
  · next isList =>
    have isList : tail.isList = true := by simpa using isList
    split
    · next noRoom => exact .full isList noRoom
    · next room => exact .added isList (Nat.lt_of_not_le room)

/-- What building a list can do: add a cell for each element, or run out of room on the way. Only
cells are added, and room runs out only if there is not enough for all elements. -/
inductive Lists (heap : Heap) (values : List Value) : Except Error Value × Heap → Prop where
  | built {list : Value} {cells : Array Cell} (isList : list.isList = true)
      (size : cells.size = heap.cells.size + values.length)
      (room : values = [] ∨ heap.cells.size + values.length ≤ heap.maxCells) :
      Lists heap values (.ok list, { heap with cells })
  | full {cells : Array Cell} (noRoom : heap.maxCells < heap.cells.size + values.length)
      (filled : heap.maxCells ≤ cells.size)
      (bounded : heap.cells.size ≤ heap.maxCells → cells.size ≤ heap.maxCells) :
      Lists heap values (.error .outOfMemory, { heap with cells })

theorem listOf_lists (heap : Heap) (values : List Value) :
    Lists heap values (heap.listOf values) := by
  induction values with
  | nil => exact .built rfl rfl (.inl rfl)
  | cons element values ih =>
      rw [listOf_cons]
      generalize heap.listOf values = result at ih
      cases ih with
      | @built list cells isList size room =>
          dsimp only
          generalize consed : Heap.cons { heap with cells } element list = result
          have outcome := cons_conses { heap with cells } element list
          rw [consed] at outcome
          cases outcome with
          | refused notList => simp [isList] at notList
          | full _ noRoom =>
              simp only at noRoom
              refine .full ?_ noRoom fun bounded => ?_
              · simp only [List.length_cons]
                omega
              · rcases room with rfl | room
                · rw [List.length_nil] at size
                  omega
                · omega
          | added _ room =>
              refine .built rfl ?_ (.inr ?_)
              · simp only [Array.size_push, List.length_cons]
                omega
              · simp only [List.length_cons] at room ⊢
                omega
      | full noRoom filled bounded =>
          refine .full ?_ filled bounded
          simp only [List.length_cons]
          omega

theorem Unfolds.cons {heap after : Heap} {head tail list : Value} {element : Tree}
    {elements : List Tree} (headUnfolds : heap.Unfolds head element)
    (tailUnfolds : heap.Unfolds tail (.list elements))
    (consed : heap.cons head tail = (.ok list, after)) :
    after.Unfolds list (.list (element :: elements)) := by
  have growth := heap.cons_growsTo head tail
  have outcome := heap.cons_conses head tail
  rw [consed] at growth outcome
  cases outcome with
  | added =>
      exact .list (Array.getElem?_push_size ..) (headUnfolds.grow growth) (tailUnfolds.grow growth)

theorem unfoldsEach_grow {before after : Heap} (growth : before.GrowsTo after)
    {values : List Value} {trees : List Tree} (each : List.Forall₂ before.Unfolds values trees) :
    List.Forall₂ after.Unfolds values trees :=
  each.imp fun _ _ unfolds => unfolds.grow growth

theorem Unfolds.listOf {heap after : Heap} {values : List Value} {trees : List Tree}
    {list : Value} (each : List.Forall₂ heap.Unfolds values trees)
    (built : heap.listOf values = (.ok list, after)) : after.Unfolds list (.list trees) := by
  induction each generalizing list after with
  | nil =>
      cases built
      exact .emptyList
  | @cons value tree values trees head each ih =>
      rw [listOf_cons] at built
      have growth := heap.listOf_growsTo values
      split at built
      · next rest middle restBuilt =>
        rw [restBuilt] at growth
        exact (head.grow growth).cons (ih restBuilt) built
      · cases built

/-- Lack of room is the only reason why the list of the trees may not come about. -/
theorem listOf_outOfMemory_or_unfolds {heap : Heap} {values : List Value} {trees : List Tree}
    (each : List.Forall₂ heap.Unfolds values trees) :
    ((heap.listOf values).1 = .error .outOfMemory ∧
        heap.maxCells < heap.cells.size + trees.length) ∨
      ∃ list, (heap.listOf values).1 = .ok list ∧
        (heap.listOf values).2.Unfolds list (.list trees) ∧
        (heap.listOf values).2.cells.size = heap.cells.size + trees.length := by
  have lists := heap.listOf_lists values
  rw [← each.length_eq]
  generalize result : heap.listOf values = built at lists ⊢
  cases lists with
  | full noRoom => exact .inl ⟨rfl, noRoom⟩
  | built _ size => exact .inr ⟨_, rfl, Unfolds.listOf each result, size⟩

/-! ### Nothing but cells -/

/-- All stores but that of the cells are the same, and that keeps to its limit. -/
structure AddsCells (before after : Heap) : Prop where
  symbols : after.symbols = before.symbols
  lambdas : after.lambdas = before.lambdas
  errors : after.errors = before.errors
  bounded : before.cells.size ≤ before.maxCells → after.cells.size ≤ after.maxCells

theorem AddsCells.refl (heap : Heap) : heap.AddsCells heap :=
  ⟨rfl, rfl, rfl, id⟩

theorem AddsCells.trans {first second third : Heap} (left : first.AddsCells second)
    (right : second.AddsCells third) : first.AddsCells third :=
  ⟨right.symbols.trans left.symbols, right.lambdas.trans left.lambdas,
    right.errors.trans left.errors, fun bounded => right.bounded (left.bounded bounded)⟩

theorem listOf_addsCells (heap : Heap) (values : List Value) :
    heap.AddsCells (heap.listOf values).2 := by
  have lists := heap.listOf_lists values
  generalize heap.listOf values = built at lists ⊢
  cases lists with
  | built _ size room =>
      refine ⟨rfl, rfl, rfl, fun bounded => ?_⟩
      rcases room with rfl | room
      · simpa [size] using bounded
      · simpa [size] using room
  | full _ _ bounded => exact ⟨rfl, rfl, rfl, bounded⟩

theorem addsCells_of_listOf {heap after : Heap} {values : List Value}
    {outcome : Except Error Value} (built : heap.listOf values = (outcome, after)) :
    heap.AddsCells after := by
  have adds := heap.listOf_addsCells values
  rwa [built] at adds

/-- A value of the tree is built in so many new cells, unless there is no room for them. -/
structure Builds (heap : Heap) (cells : Nat) (tree : Tree) (result : Except Error Value × Heap) :
    Prop where
  growsTo : heap.GrowsTo result.2
  adds : heap.AddsCells result.2
  builds : result.1 = .error .outOfMemory ∧ heap.maxCells < heap.cells.size + cells ∨
    ∃ value, result.1 = .ok value ∧ result.2.Unfolds value tree ∧
      result.2.cells.size = heap.cells.size + cells

theorem listOf_builds {heap : Heap} {values : List Value} {trees : List Tree}
    (each : List.Forall₂ heap.Unfolds values trees) :
    heap.Builds trees.length (.list trees) (heap.listOf values) :=
  ⟨heap.listOf_growsTo values, heap.listOf_addsCells values, listOf_outOfMemory_or_unfolds each⟩

end Heap

end TaggedLisp
