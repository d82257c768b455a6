import TaggedLisp.Proofs.Heap.Allocation
import TaggedLisp.Evaluation

/-! The spine of a value is what one finds by following tails. Unlike the tree of a value it says
nothing about what the elements lead to, so lists have their spines in every heap, whatever its cells
refer to. All ways of reading a list find its spine, and values whose tails lead back to themselves
have none. -/

set_option autoImplicit false

namespace TaggedLisp

namespace Heap

/-- The tails that follow the value end, and these are the elements on the way. -/
inductive Spine (heap : Heap) : Value → List Value → Prop where
  | stop {value : Value} : value.cell? = none → Spine heap value []
  | link {cell : Nat} {link : Cell} {elements : List Value} :
      heap.cells[cell]? = some link → Spine heap link.tail elements →
      Spine heap (.list cell) (link.head :: elements)

section Reading

variable {heap : Heap} {value : Value} {elements others : List Value}

theorem Spine.unique (spine : heap.Spine value elements) (other : heap.Spine value others) :
    elements = others := by
  induction spine generalizing others with
  | stop outside =>
      cases other with
      | stop => rfl
      | link => cases outside
  | link found _ ih =>
      cases other with
      | stop outside => cases outside
      | link otherFound rest =>
          cases found.symm.trans otherFound
          rw [ih rest]

theorem Spine.grow {before after : Heap} (growth : before.GrowsTo after)
    (spine : before.Spine value elements) : after.Spine value elements := by
  induction spine with
  | stop outside => exact .stop outside
  | link found _ ih => exact .link (growth.cells found) ih

theorem Spine.take (spine : heap.Spine value elements) (count : Nat) :
    heap.take count value = .ok (elements.take count) := by
  induction spine generalizing count with
  | @stop value outside =>
      cases count with
      | zero => rfl
      | succ count =>
          cases value with
          | list => cases outside
          | _ => rfl
  | link found _ ih =>
      cases count with
      | zero => rfl
      | succ count =>
          simp only [Heap.take, Heap.cell, found, ih, List.take_succ_cons, bind, Except.bind]
          rfl

/-- Fewer elements than were asked for are all there are. -/
theorem spine_of_take {count : Nat} (taken : heap.take count value = .ok elements)
    (short : elements.length < count) : heap.Spine value elements := by
  induction count generalizing value elements with
  | zero => exact absurd short (Nat.not_lt_zero _)
  | succ count ih =>
      cases value with
      | list cell =>
          rw [Heap.take] at taken
          obtain ⟨link, found, taken⟩ := exists_of_bind_eq_ok taken
          obtain ⟨others, rest, taken⟩ := exists_of_bind_eq_ok taken
          cases taken
          exact .link (some_of_cell found) (ih rest (Nat.lt_of_succ_lt_succ short))
      | _ =>
          cases taken
          exact .stop rfl

/-- A cell is not on the spine of its own tail, so there are as many cells as elements. -/
private theorem Spine.length_add_length_le (spine : heap.Spine value elements) :
    ∀ passed : List Nat, passed.Nodup →
      (∀ cell ∈ passed, ∃ longer, heap.Spine (.list cell) longer ∧
        elements.length < longer.length) →
      elements.length + passed.length ≤ heap.cells.size := by
  induction spine with
  | stop =>
      intro passed distinct known
      rw [List.length_nil, Nat.zero_add]
      refine length_le_of_distinct_cells distinct fun cell member => ?_
      obtain ⟨longer, spine, -⟩ := known cell member
      cases spine with
      | stop outside => cases outside
      | link found => exact decide_eq_true (Array.getElem?_eq_some_iff.mp found).1
  | @link cell link elements found rest ih =>
      intro passed distinct known
      have self := Spine.link found rest
      have unmet : cell ∉ passed := by
        intro member
        obtain ⟨longer, spine, more⟩ := known cell member
        rw [self.unique spine] at more
        exact Nat.lt_irrefl _ more
      have bound := ih (cell :: passed) (List.nodup_cons.mpr ⟨unmet, distinct⟩) <| by
        intro passedCell member
        rcases List.mem_cons.mp member with rfl | member
        · exact ⟨_, self, Nat.lt_succ_self _⟩
        · obtain ⟨longer, spine, more⟩ := known passedCell member
          exact ⟨longer, spine, Nat.lt_of_succ_lt more⟩
      simp only [List.length_cons] at bound ⊢
      omega

theorem Spine.length_le (spine : heap.Spine value elements) :
    elements.length ≤ heap.cells.size := by
  simpa using spine.length_add_length_le [] List.nodup_nil (by simp)

theorem elements_eq_ok_iff : heap.elements value = .ok elements ↔ heap.Spine value elements := by
  constructor
  · intro found
    unfold Heap.elements at found
    obtain ⟨all, taken, found⟩ := exists_of_bind_eq_ok found
    split at found
    · next short =>
      cases found
      exact spine_of_take taken (Nat.lt_succ_of_le short)
    · cases found
  · intro spine
    simp only [Heap.elements, spine.take, bind, Except.bind]
    rw [List.take_of_length_le (Nat.le_succ_of_le spine.length_le), if_pos spine.length_le]
    rfl

theorem toList_eq_ok_iff :
    heap.toList value = .ok (.ok elements) ↔
      value.isList = true ∧ heap.Spine value elements := by
  unfold toList
  cases isList : value.isList with
  | false => simp
  | true =>
      rw [← elements_eq_ok_iff]
      cases heap.elements value <;> simp [Functor.map, Except.map]

theorem count_eq_ok_iff {length : Nat} :
    heap.count value = .ok (.ok length) ↔
      ∃ elements, heap.toList value = .ok (.ok elements) ∧ elements.length = length := by
  unfold count
  cases heap.toList value with
  | error fault => simp [Functor.map, Except.map]
  | ok listed => cases listed <;> simp [Functor.map, Except.map]

theorem isPair_eq_true_iff :
    heap.isPair value = .ok true ↔ ∃ first second, heap.Spine value [first, second] := by
  constructor
  · intro pair
    unfold isPair at pair
    obtain ⟨elements, taken, pair⟩ := exists_of_bind_eq_ok pair
    have two : elements.length = 2 := by simpa [pure, Except.pure] using pair
    obtain ⟨first, second, rfl⟩ := List.length_eq_two.mp two
    exact ⟨first, second, spine_of_take taken (by simp)⟩
  · rintro ⟨first, second, spine⟩
    simp [isPair, spine.take, bind, Except.bind, pure, Except.pure]

/-! ### Shapes that the evaluator asks for -/

theorem Spine.exists_link {first : Value}
    (spine : heap.Spine value (first :: elements)) : ∃ cell tail, value = .list cell ∧
      heap.cells[cell]? = some ⟨first, tail⟩ ∧ heap.Spine tail elements := by
  generalize whole : first :: elements = all at spine
  cases spine with
  | stop => cases whole
  | @link cell link _ found rest =>
      cases whole
      exact ⟨cell, link.tail, rfl, found, rest⟩

theorem Spine.of_cell {cell : Nat} {head tail first : Value}
    (found : heap.cells[cell]? = some ⟨head, tail⟩)
    (spine : heap.Spine (.list cell) (first :: elements)) :
    first = head ∧ heap.Spine tail elements := by
  cases spine with
  | link otherFound rest =>
      cases found.symm.trans otherFound
      exact ⟨rfl, rest⟩

/-- Only a list has elements. -/
theorem Spine.toList {first : Value} (spine : heap.Spine value (first :: elements)) :
    heap.toList value = .ok (.ok (first :: elements)) := by
  refine toList_eq_ok_iff.mpr ⟨?_, spine⟩
  cases spine
  rfl

theorem isQuoted_of_cell {cell : Nat} {head tail : Value}
    (found : heap.cells[cell]? = some ⟨head, tail⟩) :
    heap.isQuoted (.list cell) =
      if head = .symbol heap.keywords.quote then heap.isPair (.list cell) else .ok false := by
  simp only [isQuoted, cell_of_some found, bind, Except.bind]
  rfl

theorem isQuoted_iff_spine :
    heap.isQuoted value = .ok true ↔
      ∃ inner, heap.Spine value [.symbol heap.keywords.quote, inner] := by
  constructor
  · intro isQuoted
    cases value with
    | list cell =>
        obtain ⟨⟨head, tail⟩, found, isQuoted⟩ := exists_of_bind_eq_ok isQuoted
        split at isQuoted
        · next headed =>
          obtain ⟨first, inner, spine⟩ := isPair_eq_true_iff.mp isQuoted
          obtain ⟨rfl, -⟩ := spine.of_cell (some_of_cell found)
          exact ⟨inner, headed ▸ spine⟩
        · cases isQuoted
    | _ => cases isQuoted
  · rintro ⟨inner, spine⟩
    obtain ⟨cell, tail, rfl, found, -⟩ := spine.exists_link
    rw [isQuoted_of_cell found, if_pos rfl]
    exact isPair_eq_true_iff.mpr ⟨_, inner, spine⟩

/-- A quoted form is a list of exactly the keyword and what is quoted. -/
theorem isQuoted_iff_toList :
    heap.isQuoted value = .ok true ↔
      ∃ inner, heap.toList value = .ok (.ok [.symbol heap.keywords.quote, inner]) := by
  rw [isQuoted_iff_spine]
  exact exists_congr fun _ => ⟨Spine.toList, fun listed => (toList_eq_ok_iff.mp listed).2⟩

theorem tail_of_cell {cell : Nat} {head tail : Value}
    (found : heap.cells[cell]? = some ⟨head, tail⟩) :
    heap.tail (.list cell) = .ok (.ok tail) := by
  rw [Heap.tail, cell_of_some found]
  rfl

theorem unquote_of_spine {inner : Value}
    (spine : heap.Spine value [.symbol heap.keywords.quote, inner]) :
    heap.unquote value = .ok (.ok inner) := by
  have quoted := isQuoted_iff_spine.mpr ⟨inner, spine⟩
  obtain ⟨cell, tail, rfl, found, rest⟩ := spine.exists_link
  obtain ⟨last, stop, rfl, lastFound, -⟩ := rest.exists_link
  simp only [unquote, quoted, tail_of_cell found, bind, Except.bind, ↓reduceIte, Heap.head,
    cell_of_some lastFound]
  rfl

theorem unquote_eq_ok_iff {inner : Value} :
    heap.unquote value = .ok (.ok inner) ↔
      heap.Spine value [.symbol heap.keywords.quote, inner] := by
  refine ⟨fun unquoted => ?_, unquote_of_spine⟩
  obtain ⟨answer, quoted, rest⟩ := exists_of_bind_eq_ok unquoted
  cases answer with
  | false => cases rest
  | true =>
      obtain ⟨other, spine⟩ := isQuoted_iff_spine.mp quoted
      cases unquoted.symm.trans (unquote_of_spine spine)
      exact spine

theorem definition?_eq_some_iff {symbol : Nat} {body : Value} :
    heap.definition? value = .ok (some (symbol, body)) ↔
      heap.Spine value [.symbol heap.keywords.definition, .symbol symbol, body] := by
  constructor
  · intro read
    obtain ⟨elements, taken, read⟩ := exists_of_bind_eq_ok read
    split at read
    · split at read
      · next same =>
        cases read
        exact same ▸ spine_of_take taken (by simp)
      · cases read
    · cases read
  · intro spine
    simp [definition?, spine.take, bind, Except.bind, pure, Except.pure]

theorem Spine.exists_definition? (spine : heap.Spine value elements) :
    ∃ parts, heap.definition? value = .ok parts := by
  simp only [definition?, spine.take, bind, Except.bind]
  split
  · exact ⟨_, rfl⟩
  · exact ⟨_, rfl⟩

end Reading

/-- A list that was built has the elements that it was built of, whatever they are. -/
theorem spine_of_listOf {heap after : Heap} {values : List Value} {list : Value}
    (built : heap.listOf values = (.ok list, after)) :
    list.isList = true ∧ after.Spine list values := by
  induction values generalizing list after with
  | nil =>
      cases built
      exact ⟨rfl, .stop rfl⟩
  | cons value values ih =>
      rw [listOf_cons] at built
      split at built
      · next rest middle restBuilt =>
        have growth := middle.cons_growsTo value rest
        have consed := middle.cons_conses value rest
        rw [built] at growth consed
        cases consed with
        | added => exact ⟨rfl, .link (Array.getElem?_push_size ..) ((ih restBuilt).2.grow growth)⟩
      · cases built

end Heap

end TaggedLisp
