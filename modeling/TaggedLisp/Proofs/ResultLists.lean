import TaggedLisp.Proofs.Evaluation.Sources
import TaggedLisp.Proofs.Heap.Spine

/-! The list of the results of a source has an element for every outcome. A value is an element as it
is, and a failure is stored as an error value, so the failure of a form is never the failure of the
source. A source fails as a whole in two ways only: it could not be read, and then nothing was
evaluated, or there was no room for the list, and then everything was. Nothing is assumed of the
machine or of the routines of the host. -/

set_option autoImplicit false

namespace TaggedLisp

/-! ## Outcomes as elements -/

namespace Heap

/-- How an outcome stands in a list. Only if no index is left for the record of a failure does the
error value say that instead. -/
inductive Stores (heap : Heap) : Except Error Value → Value → Prop where
  | value {value : Value} : Stores heap (.ok value) value
  | failure {error : Error} {value : Value} :
      heap.toError? value = .ok (some error) → Stores heap (.error error) value
  | unrecorded {error : Error} :
      indexLimit < heap.errors.size → Stores heap (.error error) .outOfMemory

variable {heap after : Heap}

theorem GrowsTo.toError?_eq_some (growth : heap.GrowsTo after) {value : Value} {error : Error}
    (stands : heap.toError? value = .ok (some error)) :
    after.toError? value = .ok (some error) := by
  cases value with
  | internal => exact stands
  | error record =>
      cases found : heap.errors[record]? with
      | none =>
          rw [toError?, errorRecord, found] at stands
          cases stands
      | some entry =>
          rw [toError?, errorRecord_of_some found] at stands
          cases stands
          rw [toError?, errorRecord_of_some (growth.errors found)]
          rfl
  | _ => cases stands

theorem Stores.grow (growth : heap.GrowsTo after) {outcome : Except Error Value} {value : Value}
    (stores : heap.Stores outcome value) : after.Stores outcome value := by
  cases stores with
  | value => exact .value
  | failure stands => exact .failure (growth.toError?_eq_some stands)
  | unrecorded full =>
      have last : heap.contains (.error indexLimit) = true := decide_eq_true full
      exact .unrecorded (of_decide_eq_true (growth.contains last))

theorem addError_stores (heap : Heap) (error : Error) :
    (heap.addError error).2.Stores (.error error) (heap.addError error).1 := by
  unfold addError
  split
  · exact .failure rfl
  · exact .failure rfl
  · split
    · refine .failure ?_
      rw [toError?, errorRecord_of_some (Array.getElem?_push_size ..)]
      rfl
    · next full => exact .unrecorded (Nat.lt_of_not_le full)

theorem addError_cells (heap : Heap) (error : Error) :
    (heap.addError error).2.cells = heap.cells := by
  unfold addError
  split
  · rfl
  · rfl
  · split <;> rfl

end Heap

namespace Machine

theorem reify_stores (heap : Heap) (outcomes : List (Except Error Value)) :
    List.Forall₂ (reify heap outcomes).2.Stores outcomes (reify heap outcomes).1 := by
  induction outcomes generalizing heap with
  | nil => exact .nil
  | cons outcome outcomes ih =>
      cases outcome with
      | ok value => exact .cons .value (ih heap)
      | error error =>
          have growth := reify_growsTo (heap.addError error).2 outcomes
          exact .cons ((heap.addError_stores error).grow growth) (ih (heap.addError error).2)

theorem reify_cells (heap : Heap) (outcomes : List (Except Error Value)) :
    (reify heap outcomes).2.cells = heap.cells := by
  induction outcomes generalizing heap with
  | nil => rfl
  | cons outcome outcomes ih =>
      cases outcome with
      | ok value => exact ih heap
      | error error => exact (ih (heap.addError error).2).trans (heap.addError_cells error)

/-! ## Sources -/

/-- The list comes about if and only if there is room for it, an empty list aside, which takes none. -/
theorem listOf_reify {heap reified : Heap} {outcomes : List (Except Error Value)}
    {values : List Value} (added : reify heap outcomes = (values, reified)) :
    (∃ after, reified.listOf values = (.error .outOfMemory, after) ∧
        heap.maxCells < heap.cells.size + outcomes.length) ∨
      ∃ list after, reified.listOf values = (.ok list, after) ∧
        after.toList list = .ok (.ok values) ∧ List.Forall₂ after.Stores outcomes values ∧
        (outcomes = [] ∨ heap.cells.size + outcomes.length ≤ heap.maxCells) := by
  have stores := reify_stores heap outcomes
  have cells := reify_cells heap outcomes
  have growth := reify_growsTo heap outcomes
  rw [added] at stores cells growth
  have length := stores.length_eq
  have lists := reified.listOf_lists values
  generalize result : reified.listOf values = built at lists
  cases lists with
  | full noRoom =>
      refine .inl ⟨_, rfl, ?_⟩
      rwa [growth.maxCells, cells, ← length] at noRoom
  | @built list _ _ _ room =>
      refine .inr ⟨list, _, rfl, Heap.toList_eq_ok_iff.mpr (Heap.spine_of_listOf result), ?_, ?_⟩
      · exact stores.imp fun _ _ stored => stored.grow (Heap.growsTo_of_listOf result)
      · rw [growth.maxCells, cells, ← length] at room
        exact room.imp_left fun empty => List.length_eq_zero_iff.mp (by rw [length, empty]; rfl)

variable (host : Host) (machine : Machine) (source : String)

/-- A source fails as a whole either because it cannot be read, and then the bindings are what they
were, or for lack of room for the list of its results, and then they are what evaluation left. What
its forms fail with is stored in the list. -/
theorem evalSource_fails_unread_or_full :
    (∀ error heap, machine.heap.readForms source = (.error error, heap) →
      machine.evalSource host source = .ok (.error error, { machine with heap })) ∧
    (∀ outcomes middle, machine.evalForms host source = .ok (.ok outcomes, middle) →
      middle.heap.cells.size + outcomes.length ≤ middle.heap.maxCells →
      ∃ list values heap,
        machine.evalSource host source = .ok (.ok list, { middle with heap }) ∧
        heap.toList list = .ok (.ok values) ∧ List.Forall₂ heap.Stores outcomes values) ∧
    ∀ error after, machine.evalSource host source = .ok (.error error, after) →
      (∃ heap, machine.heap.readForms source = (.error error, heap) ∧
        after.environment = machine.environment) ∨
      error = .outOfMemory ∧ ∃ outcomes middle,
        machine.evalForms host source = .ok (.ok outcomes, middle) ∧
        middle.heap.maxCells < middle.heap.cells.size + outcomes.length ∧
        after.environment = middle.environment := by
  refine ⟨fun error heap unread => ?_, fun outcomes middle forms room => ?_,
    fun error after failed => ?_⟩
  · have forms : machine.evalForms host source = .ok (.error error, { machine with heap }) :=
      evalForms_eq_ok_iff.mpr (.inl ⟨error, heap, unread, rfl, rfl⟩)
    exact evalSource_eq_ok_iff.mpr (.inl ⟨error, forms, rfl⟩)
  · rcases added : reify middle.heap outcomes with ⟨values, reified⟩
    rcases listOf_reify added with ⟨-, -, noRoom⟩ | ⟨list, heap, built, listed, stores, -⟩
    · exact absurd room (Nat.not_le_of_lt noRoom)
    · have ran := evalSource_eq_ok_iff.mpr
        (.inr ⟨outcomes, middle, values, reified, heap, forms, added, built, rfl⟩)
      exact ⟨list, values, heap, ran, listed, stores⟩
  · rcases evalSource_eq_ok_iff.mp failed with
      ⟨_, forms, same⟩ | ⟨outcomes, middle, values, reified, heap, forms, added, built, rfl⟩
    · cases same
      rcases evalForms_eq_ok_iff.mp forms with
        ⟨_, heap, unread, same, rfl⟩ | ⟨_, _, outcomes, -, -, same⟩
      · cases same
        exact .inl ⟨heap, unread, rfl⟩
      · cases same
    · rcases listOf_reify added with ⟨_, full, noRoom⟩ | ⟨_, _, listed, -⟩
      · cases full.symm.trans built
        exact .inr ⟨rfl, outcomes, middle, forms, noRoom, rfl⟩
      · cases listed.symm.trans built

/-- With room for three cells, which are those of the source, the definition is made and then the list
of its one result has no room: the source fails and leaves a binding behind. -/
theorem evalSource_binds_and_fails :
    ∃ machine after, Machine.new { maxCells := 3 } = .ok (.ok machine) ∧
      machine.evalSource Host.none "(def x ())" = .ok (.error .outOfMemory, after) ∧
      after.heap.name 4 = .ok "x" ∧ machine.environment.isBound 4 = false ∧
      after.environment.isBound 4 = true := by
  have checked : ((Machine.new { maxCells := 3 }).toOption.bind Except.toOption).bind
      (fun machine => (machine.evalSource Host.none "(def x ())").toOption.map fun result =>
        (result.1, result.2.heap.name 4, machine.environment.isBound 4,
          result.2.environment.isBound 4)) =
      some (.error .outOfMemory, .ok "x", false, true) := by
    decide +kernel
  rcases created : Machine.new { maxCells := 3 } with fault | _ | machine <;> rw [created] at checked
  · cases checked
  · cases checked
  simp only [Except.toOption, Option.bind_some] at checked
  rcases ran : machine.evalSource Host.none "(def x ())" with fault | ⟨outcome, after⟩ <;>
    rw [ran] at checked
  · cases checked
  simp only [Option.map_some, Option.some.injEq, Prod.mk.injEq] at checked
  obtain ⟨rfl, name, free, bound⟩ := checked
  exact ⟨machine, after, rfl, ran, name, free, bound⟩

end Machine

end TaggedLisp
