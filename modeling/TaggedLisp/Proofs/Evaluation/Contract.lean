import TaggedLisp.Machine

/-! Contracts of computations. A computation meets a condition in a machine if it ends there with an
outcome and a machine that satisfy the condition, or with a fault of a permitted kind. With no fault
permitted this says that the computation ends. The rules follow the way computations are put
together, so no proof about evaluation has to open a monad. -/

set_option autoImplicit false

namespace TaggedLisp.Evaluation

variable {α β : Type}

/-- The condition holds of how the computation ends, unless it ends with a permitted fault. -/
def Meets (permitted : Fault → Prop) (computation : Evaluation α) (machine : Machine)
    (condition : Except Error α → Machine → Prop) : Prop :=
  match computation.runIn machine with
  | .ok (outcome, after) => condition outcome after
  | .error fault => permitted fault

theorem runIn_bind (computation : Evaluation α) (next : α → Evaluation β) (machine : Machine) :
    (computation >>= next).runIn machine =
      match computation.runIn machine with
      | .ok (.ok value, after) => (next value).runIn after
      | .ok (.error error, after) => .ok (.error error, after)
      | .error fault => .error fault := by
  unfold runIn
  simp only [ExceptT.run_bind, StateT.run_bind]
  cases (StateT.run (ExceptT.run computation) machine) with
  | error fault => rfl
  | ok result =>
      obtain ⟨outcome, after⟩ := result
      cases outcome <;> rfl

theorem runIn_ofFunction (run : Machine → Checked (Except Error α × Machine)) (machine : Machine) :
    (ofFunction run).runIn machine = run machine :=
  rfl

section Rules

variable {permitted : Fault → Prop} {machine : Machine}

theorem meets_of_runIn {computation : Evaluation α} {outcome : Except Error α} {after : Machine}
    {condition : Except Error α → Machine → Prop}
    (ran : computation.runIn machine = .ok (outcome, after)) (holds : condition outcome after) :
    computation.Meets permitted machine condition := by
  simpa only [Meets, ran] using holds

/-- A contract that permits no fault promises a result. -/
theorem Meets.exists_runIn {computation : Evaluation α}
    {condition : Except Error α → Machine → Prop}
    (meets : computation.Meets (fun _ => False) machine condition) :
    ∃ outcome after, computation.runIn machine = .ok (outcome, after) ∧ condition outcome after := by
  unfold Meets at meets
  split at meets
  · next outcome after ran => exact ⟨outcome, after, ran, meets⟩
  · exact meets.elim

theorem Meets.imp {computation : Evaluation α} {weak strong : Except Error α → Machine → Prop}
    (meets : computation.Meets permitted machine strong)
    (implies : ∀ outcome after, strong outcome after → weak outcome after) :
    computation.Meets permitted machine weak := by
  unfold Meets at meets ⊢
  split at meets
  · exact implies _ _ meets
  · exact meets

theorem Meets.bind {computation : Evaluation α} {next : α → Evaluation β}
    {middle : Except Error α → Machine → Prop} {condition : Except Error β → Machine → Prop}
    (first : computation.Meets permitted machine middle)
    (rest : ∀ value after, middle (.ok value) after →
      (next value).Meets permitted after condition)
    (failed : ∀ error after, middle (.error error) after → condition (.error error) after) :
    (computation >>= next).Meets permitted machine condition := by
  unfold Meets at first ⊢
  rw [runIn_bind]
  cases ran : computation.runIn machine with
  | error fault =>
      rw [ran] at first
      exact first
  | ok result =>
      obtain ⟨outcome, after⟩ := result
      rw [ran] at first
      cases outcome with
      | ok value => exact rest value after first
      | error error => exact failed error after first

theorem meets_pure {value : α} {condition : Except Error α → Machine → Prop}
    (holds : condition (.ok value) machine) :
    (pure value : Evaluation α).Meets permitted machine condition :=
  holds

theorem meets_consult {read : Machine → Checked (Except Error α)} {outcome : Except Error α}
    {condition : Except Error α → Machine → Prop} (found : read machine = .ok outcome)
    (holds : condition outcome machine) :
    (consult read).Meets permitted machine condition :=
  meets_of_runIn (by rw [consult, runIn_ofFunction, found]; rfl) holds

theorem meets_examine_bind {read : Machine → Checked α} {value : α} {next : α → Evaluation β}
    {condition : Except Error β → Machine → Prop} (found : read machine = .ok value)
    (rest : (next value).Meets permitted machine condition) :
    (examine read >>= next).Meets permitted machine condition := by
  unfold Meets at rest ⊢
  rw [runIn_bind, examine, runIn_ofFunction, found]
  exact rest

theorem meets_consult_bind {read : Machine → Checked (Except Error α)} {value : α}
    {next : α → Evaluation β} {condition : Except Error β → Machine → Prop}
    (found : read machine = .ok (.ok value))
    (rest : (next value).Meets permitted machine condition) :
    (consult read >>= next).Meets permitted machine condition := by
  unfold Meets at rest ⊢
  rw [runIn_bind, consult, runIn_ofFunction, found]
  exact rest

theorem meets_consult_bind_of_error {read : Machine → Checked (Except Error α)} {error : Error}
    {next : α → Evaluation β} {condition : Except Error β → Machine → Prop}
    (found : read machine = .ok (.error error)) (holds : condition (.error error) machine) :
    (consult read >>= next).Meets permitted machine condition := by
  unfold Meets
  rw [runIn_bind, consult, runIn_ofFunction, found]
  exact holds

theorem meets_allocate {build : Heap → Except Error α × Heap}
    {condition : Except Error α → Machine → Prop}
    (holds : condition (build machine.heap).1 { machine with heap := (build machine.heap).2 }) :
    (allocate build).Meets permitted machine condition :=
  holds

theorem meets_ofFunction {run : Machine → Checked (Except Error α × Machine)}
    {outcome : Except Error α} {after : Machine} {condition : Except Error α → Machine → Prop}
    (ran : run machine = .ok (outcome, after)) (holds : condition outcome after) :
    (ofFunction run).Meets permitted machine condition :=
  meets_of_runIn ran holds

theorem meets_define {symbol : Nat} {value : Value} {outcome : Except Error Value}
    {environment : Environment} {condition : Except Error Value → Machine → Prop}
    (defined : machine.environment.define machine.heap symbol value = .ok (outcome, environment))
    (holds : condition outcome { machine with environment }) :
    (define symbol value).Meets permitted machine condition :=
  meets_of_runIn (by rw [define, runIn_ofFunction, defined]; rfl) holds

end Rules

/-! ## How a computation came to its end

The same rules read backwards: what must have happened in the parts if the whole has ended. -/

section Inversions

variable {machine after : Machine} {outcome : Except Error β}

theorem runIn_bind_of_ok {computation : Evaluation α} {next : α → Evaluation β}
    (ran : (computation >>= next).runIn machine = .ok (outcome, after)) :
    (∃ value middle, computation.runIn machine = .ok (.ok value, middle) ∧
        (next value).runIn middle = .ok (outcome, after)) ∨
      ∃ error, computation.runIn machine = .ok (.error error, after) ∧ outcome = .error error := by
  rw [runIn_bind] at ran
  split at ran
  · next value middle first => exact .inl ⟨value, middle, first, ran⟩
  · next error middle first =>
    cases ran
    exact .inr ⟨error, first, rfl⟩
  · cases ran

theorem runIn_examine_bind {read : Machine → Checked α} {next : α → Evaluation β}
    (ran : (examine read >>= next).runIn machine = .ok (outcome, after)) :
    ∃ value, read machine = .ok value ∧ (next value).runIn machine = .ok (outcome, after) := by
  rw [runIn_bind, examine, runIn_ofFunction] at ran
  cases found : read machine with
  | error fault =>
      rw [found] at ran
      cases ran
  | ok value =>
      rw [found] at ran
      exact ⟨value, rfl, ran⟩

theorem runIn_consult {read : Machine → Checked (Except Error β)}
    (ran : (consult read).runIn machine = .ok (outcome, after)) :
    read machine = .ok outcome ∧ after = machine := by
  rw [consult, runIn_ofFunction] at ran
  cases found : read machine with
  | error fault =>
      rw [found] at ran
      cases ran
  | ok result =>
      rw [found] at ran
      cases ran
      exact ⟨rfl, rfl⟩

theorem runIn_consult_bind {read : Machine → Checked (Except Error α)} {next : α → Evaluation β}
    (ran : (consult read >>= next).runIn machine = .ok (outcome, after)) :
    (∃ value, read machine = .ok (.ok value) ∧ (next value).runIn machine = .ok (outcome, after)) ∨
      ∃ error, read machine = .ok (.error error) ∧ (outcome, after) = (.error error, machine) := by
  rcases runIn_bind_of_ok ran with ⟨value, middle, first, rest⟩ | ⟨error, failed, same⟩
  · obtain ⟨found, rfl⟩ := runIn_consult first
    exact .inl ⟨value, found, rest⟩
  · obtain ⟨found, rfl⟩ := runIn_consult failed
    exact .inr ⟨error, found, by rw [same]⟩

theorem runIn_allocate {build : Heap → Except Error β × Heap}
    (ran : (allocate build).runIn machine = .ok (outcome, after)) :
    outcome = (build machine.heap).1 ∧ after = { machine with heap := (build machine.heap).2 } := by
  cases ran
  exact ⟨rfl, rfl⟩

theorem runIn_allocate_bind {build : Heap → Except Error α × Heap} {next : α → Evaluation β}
    (ran : (allocate build >>= next).runIn machine = .ok (outcome, after)) :
    (∃ value heap, build machine.heap = (.ok value, heap) ∧
        (next value).runIn { machine with heap } = .ok (outcome, after)) ∨
      ∃ error heap, build machine.heap = (.error error, heap) ∧
        (outcome, after) = (.error error, { machine with heap }) := by
  rw [runIn_bind, allocate, runIn_ofFunction] at ran
  generalize build machine.heap = result at ran
  obtain ⟨built, heap⟩ := result
  cases built with
  | ok value => exact .inl ⟨value, heap, rfl, ran⟩
  | error error =>
      cases ran
      exact .inr ⟨error, heap, rfl, rfl⟩

theorem runIn_define {symbol : Nat} {value : Value} {outcome : Except Error Value}
    (ran : (define symbol value).runIn machine = .ok (outcome, after)) :
    ∃ environment, machine.environment.define machine.heap symbol value =
        .ok (outcome, environment) ∧ after = { machine with environment } := by
  rw [define, runIn_ofFunction] at ran
  cases defined : machine.environment.define machine.heap symbol value with
  | error fault =>
      rw [defined] at ran
      cases ran
  | ok result =>
      rw [defined] at ran
      cases ran
      exact ⟨_, rfl, rfl⟩

end Inversions

/-- What holds of the result of a computation holds only if there is one. -/
theorem exists_ok_of_any {ε : Type} {computation : Except ε α} {holds : α → Bool}
    (any : computation.toOption.any holds = true) :
    ∃ result, computation = .ok result ∧ holds result = true := by
  cases computation with
  | error => cases any
  | ok result => exact ⟨result, rfl, any⟩

end TaggedLisp.Evaluation

namespace TaggedLisp

open Evaluation

theorem Machine.exists_budget (machine : Machine) : ∃ budget, machine.budget = budget + 1 :=
  ⟨machine.heap.maxCells + (hostNesting - 1), rfl⟩

/-- Whether a list is quoted is what the evaluator asks first, with whatever nesting. -/
theorem Task.run_of_isQuoted {host : Host} {budget cell : Nat} {machine : Machine}
    {outcome : Except Error Value} (isQuoted : machine.heap.isQuoted (.list cell) = .ok true)
    (unquoted : machine.heap.unquote (.list cell) = .ok outcome) :
    (Task.run host (budget + 1) (.eval (.list cell))).runIn machine = .ok (outcome, machine) := by
  obtain ⟨_, _, ran, rfl, rfl⟩ : ∃ other final,
      (Task.run host (budget + 1) (.eval (.list cell))).runIn machine = .ok (other, final) ∧
        other = outcome ∧ final = machine :=
    Meets.exists_runIn (meets_examine_bind isQuoted (meets_consult unquoted ⟨rfl, rfl⟩))
  exact ran

end TaggedLisp
