import TaggedLisp.Proofs.Evaluation.Sources
import TaggedLisp.Proofs.Workspace
import Mathlib.Logic.Relation

/-! Values persist. Whatever is done with a workspace later on, its stores keep every entry under the
index that it has, so a value that points inside the stores goes on to stand for the same tree, and
everything that can be asked about it is answered as before. This needs nothing of what is done later:
operands may point outside the stores, and the routines of the host are not screened. -/

set_option autoImplicit false

namespace TaggedLisp

/-! ## What is asked about a value -/

namespace Heap

/-- In the later heap everything that can be asked about the value has the answer that it has in the
earlier heap. -/
structure Persists (before after : Heap) (value : Value) : Prop where
  contains : after.contains value = true
  display : after.display value = before.display value
  toDatum : after.toDatum value = before.toDatum value
  toList : after.toList value = before.toList value
  count : after.count value = before.count value
  isQuoted : after.isQuoted value = before.isQuoted value
  toError? : after.toError? value = before.toError? value
  isEqual : ∀ other, before.contains other = true →
    after.isEqual value other = before.isEqual value other

variable {before after : Heap}

theorem GrowsTo.take (growth : before.GrowsTo after) {count : Nat} {value : Value}
    {values : List Value} (taken : before.take count value = .ok values) :
    after.take count value = .ok values := by
  induction count generalizing value values with
  | zero => exact taken
  | succ count ih =>
      cases value with
      | list cell =>
          rw [Heap.take] at taken ⊢
          obtain ⟨link, found, taken⟩ := exists_of_bind_eq_ok taken
          obtain ⟨others, rest, taken⟩ := exists_of_bind_eq_ok taken
          rw [cell_of_some (growth.cells (some_of_cell found))]
          simp only [bind, Except.bind, ih rest]
          exact taken
      | _ => exact taken

/-- The elements of a list are the very same values, and not just values of the same trees. -/
theorem GrowsTo.toList (growth : before.GrowsTo after) {value : Value} {trees : List Tree}
    (unfolds : before.Unfolds value (.list trees)) : after.toList value = before.toList value := by
  obtain ⟨values, each, -, listed, taken⟩ := unfolds.exists_elements
  obtain ⟨laterValues, laterEach, -, laterListed, laterTaken⟩ :=
    (unfolds.grow growth).exists_elements
  have same := growth.take (taken trees.length)
  rw [laterTaken, List.take_of_length_le (Nat.le_of_eq each.length_eq),
    List.take_of_length_le (Nat.le_of_eq laterEach.length_eq)] at same
  cases same
  rw [listed, laterListed]

theorem WellFormed.persists (wellFormed : before.WellFormed) (growth : before.GrowsTo after)
    {value : Value} (contained : before.contains value = true) : before.Persists after value := by
  obtain ⟨tree, unfolds⟩ := wellFormed.exists_unfolds contained
  have later := unfolds.grow growth
  have listed : after.toList value = before.toList value := by
    cases isList : value.isList with
    | true =>
        obtain ⟨trees, unfolds⟩ := wellFormed.exists_unfolds_list contained isList
        exact growth.toList unfolds
    | false => simp only [Heap.toList, isList, Bool.false_eq_true, ↓reduceIte]
  constructor
  · exact growth.contains contained
  · rw [later.display, unfolds.display]
  · rw [later.toDatum, unfolds.toDatum]
  · exact listed
  · simp only [Heap.count, listed]
  · rw [later.isQuoted (wellFormed.keywords.grow growth), unfolds.isQuoted wellFormed.keywords]
  · cases value with
    | error record =>
        obtain ⟨error, found⟩ := exists_error_of_contains contained
        simp only [Heap.toError?, errorRecord_of_some found,
          errorRecord_of_some (growth.errors found)]
    | _ => rfl
  · intro other otherContained
    obtain ⟨otherTree, otherUnfolds⟩ := wellFormed.exists_unfolds otherContained
    rw [later.isEqual (otherUnfolds.grow growth), unfolds.isEqual otherUnfolds]

end Heap

/-! ## What is done with a workspace -/

namespace Workspace

/-- Anything that can be done with a workspace, with any operands and any routines of the host. -/
inductive Step : Workspace → Workspace → Prop where
  | environment {workspace : Workspace} {settings : Settings} {outcome : Except Error Environment}
      {heap : Heap} : Environment.new workspace.heap settings = .ok (outcome, heap) →
      Step workspace ⟨heap, workspace.environments ++ outcome.toOption.toList⟩
  | perform {workspace : Workspace} {host : Host} {index : Nat} {operation : Operation}
      {outcome : Except Error Value} {machine : Machine} :
      (workspace.machine index).perform host operation = .ok (outcome, machine) →
      Step workspace (workspace.keep index machine)
  | eval {workspace : Workspace} {host : Host} {index : Nat} {form : Value}
      {outcome : Except Error Value} {machine : Machine} :
      (workspace.machine index).eval host form = .ok (outcome, machine) →
      Step workspace (workspace.keep index machine)
  | evalForms {workspace : Workspace} {host : Host} {index : Nat} {source : String}
      {outcome : Except Error (List (Except Error Value))} {machine : Machine} :
      (workspace.machine index).evalForms host source = .ok (outcome, machine) →
      Step workspace (workspace.keep index machine)
  | evalSource {workspace : Workspace} {host : Host} {index : Nat} {source : String}
      {outcome : Except Error Value} {machine : Machine} :
      (workspace.machine index).evalSource host source = .ok (outcome, machine) →
      Step workspace (workspace.keep index machine)

theorem Step.growsTo {before after : Workspace} (step : Step before after) :
    before.heap.GrowsTo after.heap := by
  cases step with
  | environment made =>
      obtain ⟨log, makes⟩ := Environment.exists_makes made
      exact makes.growsTo
  | perform ran =>
      obtain ⟨log, performs⟩ := Machine.exists_performs ran
      exact performs.growsTo
  | eval ran =>
      obtain ⟨log, evaluates⟩ := Machine.exists_evaluates ran
      exact evaluates.growsTo
  | evalForms ran =>
      obtain ⟨log, evaluates⟩ := Machine.exists_evaluatesForms ran
      exact evaluates.growsTo
  | evalSource ran =>
      obtain ⟨log, evaluates⟩ := Machine.exists_evaluatesSource ran
      exact evaluates.growsTo

theorem growsTo_of_steps {before after : Workspace} (steps : Relation.ReflTransGen Step before after) :
    before.heap.GrowsTo after.heap := by
  induction steps with
  | refl => exact .refl _
  | tail _ step ih => exact ih.trans step.growsTo

/-- From a workspace that a run reaches, whatever is done with it, whether it succeeds or fails, the
four stores keep their entries, and so all that can be asked about the values of the workspace has
the same answers ever after. -/
theorem Reachable.persistence {host : Host} {settings : Settings} {before after : Workspace}
    (reachable : Reachable host settings before) (steps : Relation.ReflTransGen Step before after) :
    before.heap.GrowsTo after.heap ∧
      ∀ value, before.heap.contains value = true → before.heap.Persists after.heap value := by
  have growth := growsTo_of_steps steps
  exact ⟨growth, fun value contained => reachable.wellFormed.heap.persists growth contained⟩

theorem persistence_after_cons :
    ∃ heap after, Heap.new {} = .ok heap ∧ Step ⟨heap, []⟩ ⟨after, []⟩ ∧
      heap.cells.size < after.cells.size ∧
      heap.Persists after (.symbol heap.keywords.definition) := by
  have created : Heap.new {} = .ok ((Heap.new {}).toOption.get (by decide)) := rfl
  have room : ((Heap.new {}).toOption.get (by decide)).cells.size <
      ((Heap.new {}).toOption.get (by decide)).maxCells := by decide
  generalize (Heap.new {}).toOption.get (by decide) = heap at created room
  have keyword := (Heap.wellFormed_new created).keywords.definition
  let link : Cell := ⟨.symbol heap.keywords.definition, .emptyList⟩
  have ran := perform_cons Host.none room link.head (show link.tail.isList = true from rfl)
  have start : Reachable Host.none {} ⟨heap, []⟩ := .new created
  have step : Step ⟨heap, []⟩ ⟨{ heap with cells := heap.cells.push link }, []⟩ := .perform ran
  have persists := start.persistence (.single step)
  exact ⟨heap, _, created, step, by simp, persists.2 _
    (decide_eq_true (SymbolTable.lt_size_of_name? keyword))⟩

end Workspace

end TaggedLisp
