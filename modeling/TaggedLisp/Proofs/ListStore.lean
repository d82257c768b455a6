import TaggedLisp.Proofs.Heap.Spine
import TaggedLisp.Proofs.Persistence

/-! The heap as a store of lists. A list is built exactly if there is room for a cell of each element,
and then it has these elements. Otherwise the heap is full afterwards, with cells of a list that nobody
gets to see. Both folds, the one that builds a list from its last element and the one that reverses a
list from its first, come down to this, so reversing twice gives the elements back. -/

set_option autoImplicit false

namespace TaggedLisp.Heap

variable {heap after : Heap} {value : Value} {elements : List Value}

/-! ## Reading -/

theorem WellFormed.exists_spine (wellFormed : heap.WellFormed)
    (contained : heap.contains value = true) : ∃ elements, heap.Spine value elements := by
  obtain ⟨elements, found⟩ := (wellFormed.walksEnd contained).elements
  exact ⟨elements, elements_eq_ok_iff.mp found⟩

/-- So many elements are all there are if one more was asked for. -/
theorem Spine.length_take_iff (spine : heap.Spine value elements) {length : Nat}
    (positive : 0 < length) :
    (elements.take (length + 1)).length = length ↔ heap.count value = .ok (.ok length) := by
  rw [count_eq_ok_iff, List.length_take]
  constructor
  · intro same
    have whole : elements.length = length := by omega
    obtain ⟨first, others, rfl⟩ := List.exists_cons_of_length_pos (whole ▸ positive)
    exact ⟨_, spine.toList, whole⟩
  · rintro ⟨listed, found, rfl⟩
    rw [spine.unique (toList_eq_ok_iff.mp found).2]
    omega

theorem reverse_of_toList (listed : heap.toList value = .ok (.ok elements)) :
    heap.reverse value = .ok (heap.listOf elements.reverse) := by
  simp only [reverse, listed]
  rfl

theorem toList_of_not_isList (notList : value.isList = false) :
    heap.toList value = .ok (.error .notAList) := by
  simp only [toList, notList]
  rfl

/-! ## Building -/

/-- What building a list of these elements comes to. It succeeds exactly if there is room for a cell of
each, and it never takes away what was there. -/
structure BuildsList (heap : Heap) (elements : List Value) (outcome : Except Error Value)
    (after : Heap) : Prop where
  succeeds_iff : (∃ list, outcome = .ok list) ↔
    heap.cells.size + elements.length ≤ heap.maxCells
  built : ∀ list, outcome = .ok list → after.toList list = .ok (.ok elements) ∧
    after.count list = .ok (.ok elements.length) ∧
    after.cells.size = heap.cells.size + elements.length
  full : ∀ error, outcome = .error error →
    error = .outOfMemory ∧ after.cells.size = heap.maxCells
  adds : heap.AddsCells after
  keeps : heap.Keeps outcome after
  persists : ∀ value, heap.contains value = true → heap.Persists after value

theorem WellFormed.listOf_buildsList (wellFormed : heap.WellFormed)
    (contained : ∀ element ∈ elements, heap.contains element = true) :
    heap.BuildsList elements (heap.listOf elements).1 (heap.listOf elements).2 := by
  have keeps := wellFormed.keeps_listOf contained
  have adds := heap.listOf_addsCells elements
  have persists : ∀ value, heap.contains value = true →
      heap.Persists (heap.listOf elements).2 value :=
    fun _ => wellFormed.persists keeps.growsTo
  have bounded := wellFormed.cells_size_le
  have lists := heap.listOf_lists elements
  generalize result : heap.listOf elements = pair at keeps adds persists lists ⊢
  cases lists with
  | @built list cells _ size room =>
      have listed := toList_eq_ok_iff.mpr (spine_of_listOf result)
      have fits : heap.cells.size + elements.length ≤ heap.maxCells := by
        rcases room with rfl | room
        · exact bounded
        · exact room
      refine ⟨⟨fun _ => fits, fun _ => ⟨list, rfl⟩⟩, ?_, ?_, adds, keeps, persists⟩
      · intro other same
        cases same
        exact ⟨listed, count_eq_ok_iff.mpr ⟨elements, listed, rfl⟩, size⟩
      · intro error failed
        cases failed
  | @full cells noRoom filled stays =>
      refine ⟨⟨?_, fun fits => absurd noRoom (Nat.not_lt_of_le fits)⟩, ?_, ?_, adds, keeps,
        persists⟩
      · rintro ⟨list, succeeded⟩
        cases succeeded
      · intro list succeeded
        cases succeeded
      · intro error failed
        cases failed
        exact ⟨rfl, Nat.le_antisymm (stays bounded) filled⟩

/-- A list that is built anew from the elements of another is equal to it. -/
theorem WellFormed.isEqual_of_listOf (wellFormed : heap.WellFormed) {list : Value}
    (contained : heap.contains value = true) (listed : heap.toList value = .ok (.ok elements))
    (built : heap.listOf elements = (.ok list, after)) :
    after.isEqual list value = .ok true := by
  obtain ⟨trees, unfolds⟩ :=
    wellFormed.exists_unfolds_list contained (toList_eq_ok_iff.mp listed).1
  obtain ⟨values, each, -, found, -⟩ := unfolds.exists_elements
  cases listed.symm.trans found
  have growth := heap.listOf_growsTo elements
  rw [built] at growth
  rw [(Unfolds.listOf each built).isEqual (unfolds.grow growth), Tree.isSame_refl]

theorem WellFormed.contains_of_toList (wellFormed : heap.WellFormed)
    (contained : heap.contains value = true) (listed : heap.toList value = .ok (.ok elements)) :
    ∀ element ∈ elements, heap.contains element = true := by
  rcases wellFormed.exists_toList contained with refused | ⟨values, found, inside⟩
  · cases listed.symm.trans refused
  · cases listed.symm.trans found
    exact inside

/-! ## Reversing -/

/-- What reversing a list of these elements comes to. The list itself stays as it is, and a second
reversal, if there is room for it too, gives an equal list. -/
structure Reverses (heap : Heap) (list : Value) (elements : List Value)
    (outcome : Except Error Value) (after : Heap) : Prop where
  builds : heap.BuildsList elements.reverse outcome after
  kept : after.toList list = .ok (.ok elements)
  again : ∀ reversed, outcome = .ok reversed → ∃ other final,
    after.reverse reversed = .ok (other, final) ∧ after.BuildsList elements other final ∧
    ∀ twice, other = .ok twice → final.isEqual twice list = .ok true

theorem WellFormed.exists_reverse (wellFormed : heap.WellFormed)
    (contained : heap.contains value = true) (listed : heap.toList value = .ok (.ok elements)) :
    ∃ outcome after, heap.reverse value = .ok (outcome, after) ∧
      heap.Reverses value elements outcome after := by
  have elementsContained := wellFormed.contains_of_toList contained listed
  have builds : heap.BuildsList elements.reverse (heap.listOf elements.reverse).1
      (heap.listOf elements.reverse).2 :=
    wellFormed.listOf_buildsList fun element member =>
      elementsContained element (List.mem_reverse.mp member)
  rcases result : heap.listOf elements.reverse with ⟨outcome, after⟩
  rw [result] at builds
  have growth := builds.keeps.growsTo
  have kept : after.toList value = .ok (.ok elements) := by
    rw [(builds.persists value contained).toList, listed]
  refine ⟨outcome, after, by rw [reverse_of_toList listed, result], builds, kept, ?_⟩
  intro reversed succeeded
  obtain ⟨reversedListed, -, -⟩ := builds.built reversed succeeded
  have builtAgain : after.BuildsList elements (after.listOf elements).1
      (after.listOf elements).2 :=
    builds.keeps.wellFormed.listOf_buildsList fun element member =>
      growth.contains (elementsContained element member)
  rcases again : after.listOf elements with ⟨other, final⟩
  rw [again] at builtAgain
  refine ⟨other, final, ?_, builtAgain, ?_⟩
  · rw [reverse_of_toList reversedListed, List.reverse_reverse, again]
  · rintro twice rfl
    exact builds.keeps.wellFormed.isEqual_of_listOf (growth.contains contained) kept again

/-- Lists of contained values are built and reversed exactly if there is room for a cell of each
element, and nothing that was there is lost either way. What is no list cannot be counted, listed or
reversed, and all lists can be, room permitting. Pairs and triples are the lists of two and of three
elements. -/
theorem WellFormed.list_store_laws (wellFormed : heap.WellFormed)
    (contained : ∀ element ∈ elements, heap.contains element = true)
    (valueContained : heap.contains value = true) :
    heap.BuildsList elements (heap.listOf elements).1 (heap.listOf elements).2 ∧
    (value.isList = true → ∃ items, heap.toList value = .ok (.ok items) ∧
      heap.count value = .ok (.ok items.length) ∧
      ∃ outcome after, heap.reverse value = .ok (outcome, after) ∧
        heap.Reverses value items outcome after) ∧
    (value.isList = false → heap.reverse value = .ok (.error .notAList, heap)) ∧
    (heap.toList value = .ok (.error .notAList) ↔ value.isList = false) ∧
    (heap.count value = .ok (.error .notAList) ↔ value.isList = false) ∧
    ((∃ after, heap.reverse value = .ok (.error .notAList, after)) ↔ value.isList = false) ∧
    ∃ pair triple, heap.isPair value = .ok pair ∧ heap.isTriple value = .ok triple ∧
      (pair = true ↔ heap.count value = .ok (.ok 2)) ∧
      (triple = true ↔ heap.count value = .ok (.ok 3)) := by
  obtain ⟨items, spine⟩ := wellFormed.exists_spine valueContained
  have shapes : heap.isPair value = .ok (decide ((items.take 3).length = 2)) ∧
      heap.isTriple value = .ok (decide ((items.take 4).length = 3)) := by
    simp only [isPair, isTriple, spine.take]
    exact ⟨rfl, rfl⟩
  refine ⟨wellFormed.listOf_buildsList contained, ?_⟩
  cases isList : value.isList with
  | true =>
      have listed := toList_eq_ok_iff.mpr ⟨isList, spine⟩
      have counted := count_eq_ok_iff.mpr ⟨items, listed, rfl⟩
      obtain ⟨outcome, after, reversed, reverses⟩ :=
        wellFormed.exists_reverse valueContained listed
      have notRefused : ∀ after, heap.reverse value ≠ .ok (.error .notAList, after) := by
        intro other refused
        cases reversed.symm.trans refused
        cases (reverses.builds.full _ rfl).1
      refine ⟨fun _ => ⟨items, listed, counted, outcome, after, reversed, reverses⟩, by simp,
        by simp [listed], by simp [counted], by simpa using notRefused, _, _, shapes.1, shapes.2,
        ?_, ?_⟩
      · rw [decide_eq_true_iff, spine.length_take_iff (by decide)]
      · rw [decide_eq_true_iff, spine.length_take_iff (by decide)]
  | false =>
      have refused : heap.toList value = .ok (.error .notAList) := toList_of_not_isList isList
      have uncounted : heap.count value = .ok (.error .notAList) := by
        simp only [count, refused]
        rfl
      have unreversed : heap.reverse value = .ok (.error .notAList, heap) := by
        simp only [reverse, refused]
        rfl
      refine ⟨by simp, fun _ => unreversed, by simp [refused], by simp [uncounted],
        by simp [unreversed], _, _, shapes.1, shapes.2, ?_, ?_⟩
      · rw [decide_eq_true_iff, spine.length_take_iff (by decide)]
      · rw [decide_eq_true_iff, spine.length_take_iff (by decide)]

/-- With room for five cells, the two forms of `(a) b` can be put twice into a list, and they can be
reversed once, and not once more. -/
theorem list_store_laws_of_two_forms :
    ∃ heap after pair reversed final last, Heap.new { maxCells := 5 } = .ok heap ∧
      heap.parse "(a) b" = (.ok (.list 2), after) ∧
      after.toList (.list 2) = .ok (.ok [.list 0, .symbol 3]) ∧
      (after.listOf [.list 2, .list 2]).1 = .ok pair ∧
      (after.listOf [.list 2, .list 2]).2.toList pair = .ok (.ok [.list 2, .list 2]) ∧
      after.reverse (.list 2) = .ok (.ok reversed, final) ∧
      final.toList reversed = .ok (.ok [.symbol 3, .list 0]) ∧
      final.toList (.list 2) = .ok (.ok [.list 0, .symbol 3]) ∧
      final.reverse reversed = .ok (.error .outOfMemory, last) ∧ last.cells.size = 5 := by
  have created : Heap.new { maxCells := 5 } =
      .ok ((Heap.new { maxCells := 5 }).toOption.get (by decide)) := rfl
  have checked :
      let read := ((Heap.new { maxCells := 5 }).toOption.get (by decide)).parse "(a) b"
      read.1 = .ok (.list 2) ∧ read.2.toList (.list 2) = .ok (.ok [.list 0, .symbol 3]) ∧
        read.2.contains (.list 2) = true ∧ read.2.cells.size = 3 ∧ read.2.maxCells = 5 := by
    decide +kernel
  have wellFormed := ((wellFormed_new created).keeps_parse "(a) b").wellFormed
  generalize (Heap.new { maxCells := 5 }).toOption.get (by decide) = heap
    at created checked wellFormed
  rcases read : heap.parse "(a) b" with ⟨parsed, after⟩
  rw [read] at checked wellFormed
  obtain ⟨rfl, listed, contained, size, maxCells⟩ := checked
  have twice : ∀ element ∈ [Value.list 2, .list 2], after.contains element = true := by
    simpa using contained
  obtain ⟨stored, reverses, -⟩ := wellFormed.list_store_laws twice contained
  obtain ⟨pair, succeeded⟩ := stored.succeeds_iff.mpr (by rw [size, maxCells]; decide)
  obtain ⟨items, found, -, outcome, final, reversal, kept⟩ := reverses rfl
  cases listed.symm.trans found
  obtain ⟨reversed, rfl⟩ := kept.builds.succeeds_iff.mpr (by rw [size, maxCells]; decide)
  obtain ⟨reversedListed, -, grown⟩ := kept.builds.built reversed rfl
  obtain ⟨other, last, again, builds, -⟩ := kept.again reversed rfl
  have limit : final.maxCells = 5 := kept.builds.keeps.growsTo.maxCells.trans maxCells
  have noRoom : ¬ ∃ list, other = .ok list := by
    rw [builds.succeeds_iff, grown, size, limit]
    decide
  cases other with
  | ok list => exact absurd ⟨list, rfl⟩ noRoom
  | error error =>
      obtain ⟨rfl, filled⟩ := builds.full error rfl
      exact ⟨heap, after, pair, reversed, final, last, created, read, listed, succeeded,
        (stored.built pair succeeded).1, reversal, reversedListed, kept.kept, again,
        filled.trans limit⟩

end TaggedLisp.Heap
