import TaggedLisp.Proofs.Ceilings
import TaggedLisp.Proofs.Word

/-! Nothing is lost when the outcomes of a source are put into a list. Evaluation stops at the first form
that fails, so at most the last outcome is a failure, and no form of a source comes to an error value.
So an element that is an error is a failure and tells which, and every other element is the value that
the form came to. Without the second fact the list would be ambiguous. -/

set_option autoImplicit false

namespace TaggedLisp

open Evaluation

/-! ## Outcomes as elements -/

namespace Heap

/-- How an outcome can be told from an element: a value is the element, and a failure is an error value
that gives it back. -/
inductive Encodes (heap : Heap) : Except Error Value → Value → Prop where
  | value {value : Value} : value.word.isError = false → Encodes heap (.ok value) value
  | failure {error : Error} {value : Value} : value.word.isError = true →
      heap.toError? value = .ok (some error) → heap.errorKind? value = .ok (some error.kind) →
      Encodes heap (.error error) value

variable {heap after : Heap} {parsed : Set Nat} {value : Value} {error : Error}

theorem isError_of_toError? (stands : heap.toError? value = .ok (some error)) :
    value.word.isError = true := by
  cases value with
  | internal => exact Word.isError_immediate ..
  | error => exact Word.isError_boxed ..
  | _ => cases stands

theorem encodes_of_toError? (stands : heap.toError? value = .ok (some error)) :
    heap.Encodes (.error error) value := by
  refine .failure (isError_of_toError? stands) stands ?_
  rw [errorKind?, stands]
  rfl

/-- What forms of a source come to is no error, whatever they do. -/
theorem Available.isError_word (available : heap.Available parsed value) :
    value.word.isError = false := by
  cases available with
  | lambda => exact Word.isError_boxed ..
  | sourced sourced =>
      cases sourced with
      | emptyList => exact Word.isError_immediate ..
      | symbol | list => exact Word.isError_boxed ..

theorem Encodes.grow (growth : heap.GrowsTo after) {outcome : Except Error Value}
    (encodes : heap.Encodes outcome value) : after.Encodes outcome value := by
  cases encodes with
  | value isError => exact .value isError
  | failure _ stands => exact encodes_of_toError? (growth.toError?_eq_some stands)

/-- With an index left, a failure is recorded unless its value needs no record, and the value tells
which failure it is. -/
theorem addError_encodes (recordable : heap.errors.size ≤ indexLimit) (error : Error) :
    (heap.addError error).2.Encodes (.error error) (heap.addError error).1 ∧
    (heap.addError error).2.errors =
      if error = .undefined ∨ error = .outOfMemory then heap.errors
      else heap.errors.push error := by
  unfold addError
  split
  · exact ⟨encodes_of_toError? rfl, rfl⟩
  · exact ⟨encodes_of_toError? rfl, rfl⟩
  · next undefined outOfMemory =>
    rw [if_pos recordable]
    refine ⟨encodes_of_toError? ?_, ?_⟩
    · rw [toError?, errorRecord_of_some (Array.getElem?_push_size ..)]
      rfl
    · rw [if_neg (by simpa using ⟨undefined, outOfMemory⟩)]

end Heap

namespace Machine

variable {host : Host} {machine after : Machine} {forms : List Value} {log : List Definition}
  {outcomes : List (Except Error Value)}

/-- Evaluation stops at the first form that fails. -/
theorem EvaluatesEach.exists_values
    (evaluates : EvaluatesEach host machine forms log outcomes after) :
    ∃ values : List Value, outcomes = values.map .ok ∨
      ∃ error, outcomes = values.map .ok ++ [.error error] := by
  induction evaluates with
  | done => exact ⟨[], .inl rfl⟩
  | @failed _ _ _ _ error => exact ⟨[], .inr ⟨error, rfl⟩⟩
  | @more _ _ _ _ value _ _ _ _ _ _ ih =>
      obtain ⟨values, rfl | ⟨error, rfl⟩⟩ := ih
      · exact ⟨value :: values, .inl rfl⟩
      · exact ⟨value :: values, .inr ⟨error, rfl⟩⟩

theorem reify_values (heap : Heap) (values : List Value) :
    reify heap (values.map .ok) = (values, heap) := by
  induction values with
  | nil => rfl
  | cons value values ih => simp only [List.map_cons, reify, ih]

theorem reify_values_append_error (heap : Heap) (values : List Value) (error : Error) :
    reify heap (values.map .ok ++ [.error error]) =
      (values ++ [(heap.addError error).1], (heap.addError error).2) := by
  induction values with
  | nil => rfl
  | cons value values ih => simp only [List.map_cons, List.cons_append, reify, ih]

variable {heap : Heap} {parsed : Set Nat} {values : List Value}

/-- What becomes of the outcomes of a source as elements. They encode the outcomes, only the last of
them can be an error, and only a last failure that needs a record adds one. -/
structure Reifies (heap : Heap) (outcomes : List (Except Error Value)) (values : List Value)
    (reified : Heap) : Prop where
  encodes : List.Forall₂ reified.Encodes outcomes values
  early : ∀ value ∈ values.dropLast, value.word.isError = false
  recorded : ∀ error, outcomes.getLast? = some (.error error) →
    error ≠ .undefined → error ≠ .outOfMemory → reified.errors = heap.errors.push error
  unrecorded : (¬ ∃ error, outcomes.getLast? = some (.error error) ∧
    error ≠ .undefined ∧ error ≠ .outOfMemory) → reified.errors = heap.errors

theorem forall₂_encodes_values
    (available : ∀ value ∈ values, heap.Available parsed value) :
    List.Forall₂ heap.Encodes (values.map .ok) values := by
  rw [List.forall₂_map_left_iff, List.forall₂_same]
  exact fun value member => .value (available value member).isError_word

theorem reifies_values (available : ∀ value ∈ values, heap.Available parsed value) :
    Reifies heap (values.map .ok) values heap where
  encodes := forall₂_encodes_values available
  early value member := (available value (List.mem_of_mem_dropLast member)).isError_word
  recorded error last := by simpa using List.mem_of_getLast? last
  unrecorded _ := rfl

theorem reifies_values_append_error
    (available : ∀ value ∈ values, heap.Available parsed value)
    (recordable : heap.errors.size ≤ indexLimit) (error : Error) :
    Reifies heap (values.map .ok ++ [.error error]) (values ++ [(heap.addError error).1])
      (heap.addError error).2 := by
  obtain ⟨encodes, errors⟩ := heap.addError_encodes recordable error
  have earlier := (forall₂_encodes_values available).imp fun _ _ earlier =>
    earlier.grow (heap.addError_growsTo error)
  refine ⟨List.rel_append earlier (.cons encodes .nil), ?_, ?_, ?_⟩
  · intro value member
    rw [List.dropLast_concat] at member
    exact (available value member).isError_word
  · intro last same undefined outOfMemory
    rw [List.getLast?_concat] at same
    cases same
    rw [errors, if_neg (by simp [undefined, outOfMemory])]
  · intro noRecord
    rw [List.getLast?_concat] at noRecord
    rw [errors, if_pos]
    by_contra needed
    exact noRecord ⟨error, rfl, not_or.mp needed⟩

theorem Reifies.errors_size_iff {reified : Heap}
    (reifies : Reifies heap outcomes values reified) :
    (reified.errors.size = heap.errors.size + 1 ↔ ∃ error,
      outcomes.getLast? = some (.error error) ∧ error ≠ .undefined ∧ error ≠ .outOfMemory) ∧
    (reified.errors.size ≠ heap.errors.size + 1 → reified.errors = heap.errors) := by
  by_cases needed : ∃ error, outcomes.getLast? = some (.error error) ∧
      error ≠ .undefined ∧ error ≠ .outOfMemory
  · obtain ⟨error, last, undefined, outOfMemory⟩ := id needed
    have grown : reified.errors.size = heap.errors.size + 1 := by
      rw [reifies.recorded error last undefined outOfMemory, Array.size_push]
    exact ⟨iff_of_true grown needed, fun notGrown => absurd grown notGrown⟩
  · have same := reifies.unrecorded needed
    exact ⟨iff_of_false (by simp [same]) needed, fun _ => same⟩

theorem EvaluatesEach.reifies
    (evaluates : EvaluatesEach host machine forms log outcomes after)
    (available : ∀ value, .ok value ∈ outcomes → after.heap.Available parsed value)
    (recordable : after.heap.errors.size ≤ indexLimit) :
    Reifies after.heap outcomes (reify after.heap outcomes).1 (reify after.heap outcomes).2 := by
  obtain ⟨values, rfl | ⟨error, rfl⟩⟩ := evaluates.exists_values
  · rw [reify_values]
    exact reifies_values fun value member => available value (by simpa using member)
  · rw [reify_values_append_error]
    exact reifies_values_append_error (fun value member => available value (by simpa using member))
      recordable error

variable {settings : Settings} {results : List Value} {source : String}

/-- The evaluation of a source records no error. -/
theorem Sound.errors_eq (sound : machine.Sound settings parsed results)
    {outcome : Except Error (List (Except Error Value))}
    (evaluates : EvaluatesForms host source machine log outcome after) :
    after.heap.errors = machine.heap.errors := by
  have unchanged : (machine.heap.readForms source).2.errors = machine.heap.errors :=
    (Reader.forms_reads (Reader.ofSource machine.heap source)).records_eq.2
  have hostFree := (sound.read source).hostFree
  cases evaluates with
  | unreadable unread =>
      rw [unread] at unchanged
      exact unchanged
  | evaluated read each =>
      rw [read] at unchanged hostFree
      exact (each.addsCells hostFree).errors.trans unchanged

theorem Sound.reifies (sound : machine.Sound settings parsed results)
    (recordable : machine.heap.errors.size ≤ indexLimit)
    (ran : machine.evalForms host source = .ok (.ok outcomes, after)) :
    Reifies after.heap outcomes (reify after.heap outcomes).1 (reify after.heap outcomes).2 := by
  obtain ⟨log, evaluates⟩ := exists_evaluatesForms ran
  rw [← sound.errors_eq evaluates] at recordable
  have available := (sound.evaluatesForms evaluates).results
  cases evaluates with
  | evaluated _ each =>
      refine each.reifies (fun value member => available value ?_) recordable
      exact List.mem_append_right _ (mem_results_iff.mpr member)

end Machine

/-- After a run of sources, the list of the results of a source loses nothing of what its evaluation
answers. Both fail alike if the source cannot be read, and both leave the same bindings. There is a
list exactly if there is room for it. It holds the values themselves, and an error value in place of
the failure, if there is one, which is the last outcome. That failure is what is recorded, and nothing
else is. -/
theorem SourceRun.evalSource_encodes {host : Host} {settings : Settings} {machine : Machine}
    {parsed : Set Nat} {results : List Value} (run : SourceRun host settings machine parsed results)
    (recordable : machine.heap.errors.size ≤ indexLimit) (source : String) :
    ∃ read middle answer after,
      machine.evalForms host source = .ok (read, middle) ∧
      machine.evalSource host source = .ok (answer, after) ∧
      after.environment = middle.environment ∧
      (∀ error, read = .error error → answer = .error error ∧
        after.heap.errors = machine.heap.errors) ∧
      ∀ outcomes, read = .ok outcomes →
        (middle.heap.maxCells < middle.heap.cells.size + outcomes.length →
          answer = .error .outOfMemory) ∧
        (middle.heap.cells.size + outcomes.length ≤ middle.heap.maxCells →
          ∃ list values, answer = .ok list ∧ after.heap.toList list = .ok (.ok values) ∧
            List.Forall₂ after.heap.Encodes outcomes values ∧
            ∀ value ∈ values.dropLast, value.word.isError = false) ∧
        (after.heap.errors.size = machine.heap.errors.size + 1 ↔
          ∃ error, outcomes.getLast? = some (.error error) ∧
            error ≠ .undefined ∧ error ≠ .outOfMemory) ∧
        (after.heap.errors.size ≠ machine.heap.errors.size + 1 →
          after.heap.errors = machine.heap.errors) := by
  have sound := run.sound
  obtain ⟨read, middle, forms⟩ := sound.exists_evalForms host source
  obtain ⟨log, evaluates⟩ := Machine.exists_evaluatesForms forms
  have unchanged := sound.errors_eq evaluates
  cases read with
  | error error =>
      have failed := Machine.evalSource_eq_ok_iff.mpr (.inl ⟨error, forms, rfl⟩)
      refine ⟨_, middle, _, middle, forms, failed, rfl, fun _ same => ?_, fun _ same => ?_⟩
      · cases same
        exact ⟨rfl, unchanged⟩
      · cases same
  | ok outcomes =>
      have reifies := sound.reifies recordable forms
      have bounded := (sound.evaluatesForms evaluates).withinLimits.cells
      rcases added : Machine.reify middle.heap outcomes with ⟨values, reified⟩
      rcases built : reified.listOf values with ⟨answer, heap⟩
      have listed := Machine.evalSource_eq_ok_iff.mpr
        (.inr ⟨outcomes, middle, values, reified, heap, forms, added, built, rfl⟩)
      rw [added] at reifies
      have errors := (Heap.addsCells_of_listOf built).errors
      have recorded := reifies.errors_size_iff
      rw [unchanged, ← errors] at recorded
      refine ⟨_, middle, answer, _, forms, listed, rfl, fun _ same => (by cases same), ?_⟩
      intro others same
      cases same
      refine ⟨fun noRoom => ?_, fun room => ?_, recorded⟩
      · -- The empty list takes no room, but the cells of a heap that ran sources are within bounds.
        rcases Machine.listOf_reify added with ⟨_, full, -⟩ | ⟨_, _, -, -, -, rfl | fits⟩
        · cases full.symm.trans built
          rfl
        · exact absurd noRoom (Nat.not_lt_of_le bounded)
        · exact absurd noRoom (Nat.not_lt_of_le fits)
      · rcases Machine.listOf_reify added with ⟨_, -, noRoom⟩ | ⟨list, _, found, elements, -⟩
        · exact absurd room (Nat.not_le_of_lt noRoom)
        · cases found.symm.trans built
          have growth := Heap.growsTo_of_listOf built
          exact ⟨list, values, rfl, elements,
            reifies.encodes.imp fun _ _ encodes => encodes.grow growth, reifies.early⟩

/-- In `() x` the symbol is not bound. The list has the value of the first form and an error value for
the second. -/
theorem SourceRun.evalSource_encodes_unbound :
    ∃ machine middle list element after, SourceRun Host.none { maxCells := 8 } machine ∅ [] ∧
      machine.heap.errors.size ≤ indexLimit ∧
      machine.evalForms Host.none "() x" =
        .ok (.ok [.ok .emptyList, .error (.unbound "x")], middle) ∧
      machine.evalSource Host.none "() x" = .ok (.ok list, after) ∧
      after.heap.toList list = .ok (.ok [.emptyList, element]) ∧ element.word.isError = true ∧
      after.heap.toError? element = .ok (some (.unbound "x")) ∧
      after.heap.errors.size = machine.heap.errors.size + 1 := by
  have checked : (Machine.new { maxCells := 8 }).toOption.any (fun created =>
      created.toOption.any fun machine =>
        (machine.evalForms Host.none "() x").toOption.any fun result =>
          result.1 = .ok [.ok .emptyList, .error (.unbound "x")] ∧ machine.heap.errors.size = 0 ∧
            result.2.heap.cells.size + 2 ≤ result.2.heap.maxCells) = true := by
    decide +kernel
  obtain ⟨_, created, made⟩ := exists_ok_of_any checked
  obtain ⟨machine, rfl, evaluated⟩ := exists_ok_of_any made
  obtain ⟨⟨_, final⟩, ran, holds⟩ := exists_ok_of_any evaluated
  obtain ⟨rfl, size, room⟩ := of_decide_eq_true holds
  have start : SourceRun Host.none { maxCells := 8 } machine ∅ [] := .new created
  have recordable : machine.heap.errors.size ≤ indexLimit := by
    rw [size]
    exact Nat.zero_le _
  obtain ⟨read, middle, answer, after, forms, listed, -, -, encodes⟩ :=
    start.evalSource_encodes recordable "() x"
  cases ran.symm.trans forms
  obtain ⟨-, stored, recorded, -⟩ := encodes _ rfl
  obtain ⟨list, values, rfl, elements, outcomes, -⟩ := stored room
  obtain ⟨first, others, value, rest, rfl⟩ := List.forall₂_cons_left_iff.mp outcomes
  obtain ⟨second, none, failure, empty, rfl⟩ := List.forall₂_cons_left_iff.mp rest
  cases List.forall₂_nil_left_iff.mp empty
  cases value
  cases failure with
  | failure isError stands =>
      have grown := recorded.mpr ⟨.unbound "x", rfl, by simp, by simp⟩
      exact ⟨machine, _, list, second, after, start, recordable, forms, listed, elements,
        isError, stands, grown⟩

end TaggedLisp
