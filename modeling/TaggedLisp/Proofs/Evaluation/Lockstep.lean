import TaggedLisp.Proofs.Evaluation.Derivation

/-! Two runs in lockstep. If reading cannot tell two machines apart, and building lists and binding
symbols keep it so, then whatever is evaluated in the one comes to the very same value in the other.
Failures for which the machines are not alike, such as lack of room, are excluded. An excluded failure
ends a run, so it need not be followed any further; only the routines of a host can go on after it.

Runs that differ only in how deep calls may be nested are one case: more nesting never changes a run
that comes to an end. -/

set_option autoImplicit false

namespace TaggedLisp

/-! ## Heaps that read alike -/

/-- What can be read in the one heap, is read in the other. -/
structure Heap.ReadsLike (heap other : Heap) : Prop where
  cells : other.cells = heap.cells
  lambdas : other.lambdas = heap.lambdas
  keywords : other.keywords = heap.keywords
  names : other.symbols.names = heap.symbols.names

namespace Heap.ReadsLike

variable {heap other : Heap} (alike : heap.ReadsLike other)

theorem refl (heap : Heap) : heap.ReadsLike heap :=
  ⟨rfl, rfl, rfl, rfl⟩

include alike

theorem cell (index : Nat) : other.cell index = heap.cell index := by
  simp only [Heap.cell, alike.cells]

theorem lambda (record : Nat) : other.lambda record = heap.lambda record := by
  simp only [Heap.lambda, alike.lambdas]

theorem name (id : Nat) : other.name id = heap.name id := by
  simp only [Heap.name, SymbolTable.name?, alike.names]

theorem head (value : Value) : other.head value = heap.head value := by
  cases value with
  | list cell => simp only [Heap.head, alike.cell]
  | _ => rfl

theorem tail (value : Value) : other.tail value = heap.tail value := by
  cases value with
  | list cell => simp only [Heap.tail, alike.cell]
  | _ => rfl

theorem take (count : Nat) (value : Value) : other.take count value = heap.take count value := by
  induction count generalizing value with
  | zero => rfl
  | succ count ih =>
      cases value with
      | list cell => simp only [Heap.take, alike.cell, ih]
      | _ => rfl

theorem toList (value : Value) : other.toList value = heap.toList value := by
  simp only [Heap.toList, Heap.elements, alike.take, alike.cells]

theorem count (value : Value) : other.count value = heap.count value := by
  simp only [Heap.count, alike.toList]

theorem isQuoted (value : Value) : other.isQuoted value = heap.isQuoted value := by
  cases value with
  | list cell => simp only [Heap.isQuoted, Heap.isPair, alike.cell, alike.take, alike.keywords]
  | _ => rfl

theorem unquote (value : Value) : other.unquote value = heap.unquote value := by
  simp only [Heap.unquote, alike.isQuoted, alike.tail, alike.head]

theorem definition? (value : Value) : other.definition? value = heap.definition? value := by
  simp only [Heap.definition?, alike.take, alike.keywords]

end Heap.ReadsLike

/-! ## Computations in step -/

namespace Evaluation

variable {α β : Type}

/-- If the first computation comes to an outcome that is not excluded, the second one comes to the
same outcome, and the machines are related again. -/
def InStep (related : Machine → Machine → Prop) (excluded : Error → Prop) (machine other : Machine)
    (first second : Evaluation α) : Prop :=
  ∀ outcome after, first.runIn machine = .ok (outcome, after) →
    (∀ error, outcome = .error error → ¬ excluded error) →
    ∃ final, second.runIn other = .ok (outcome, final) ∧ related after final

section Rules

variable {related : Machine → Machine → Prop} {excluded : Error → Prop} {machine other : Machine}

theorem inStep_of_runIn {first second : Evaluation α} {outcome : Except Error α}
    {after final : Machine} (ran : first.runIn machine = .ok (outcome, after))
    (otherRan : second.runIn other = .ok (outcome, final)) (holds : related after final) :
    InStep related excluded machine other first second := by
  intro _ _ firstRan _
  cases ran.symm.trans firstRan
  exact ⟨final, otherRan, holds⟩

theorem InStep.bind {first second : Evaluation α} {next following : α → Evaluation β}
    (step : InStep related excluded machine other first second)
    (rest : ∀ value after final, related after final →
      InStep related excluded after final (next value) (following value)) :
    InStep related excluded machine other (first >>= next) (second >>= following) := by
  intro outcome after ran included
  rcases runIn_bind_of_ok ran with ⟨value, middle, firstRan, restRan⟩ | ⟨error, failed, rfl⟩
  · obtain ⟨otherMiddle, secondRan, holds⟩ := step _ _ firstRan (by simp)
    obtain ⟨final, followingRan, holds⟩ := rest value _ _ holds _ _ restRan included
    refine ⟨final, ?_, holds⟩
    rw [runIn_bind, secondRan]
    exact followingRan
  · obtain ⟨final, secondFailed, holds⟩ := step _ _ failed (by simpa using included)
    refine ⟨final, ?_, holds⟩
    rw [runIn_bind, secondFailed]

theorem inStep_pure (holds : related machine other) (value : α) :
    InStep related excluded machine other (pure value) (pure value) :=
  inStep_of_runIn rfl rfl holds

theorem inStep_throw (holds : related machine other) (error : Error) :
    InStep related excluded machine other (throw error : Evaluation α) (throw error) :=
  inStep_of_runIn rfl rfl holds

theorem inStep_consult (holds : related machine other) {read : Machine → Checked (Except Error α)}
    (same : read other = read machine) :
    InStep related excluded machine other (consult read) (consult read) := by
  intro outcome after ran _
  obtain ⟨found, rfl⟩ := runIn_consult ran
  refine ⟨other, ?_, holds⟩
  rw [consult, runIn_ofFunction, same, found]
  rfl

theorem inStep_consult_bind (holds : related machine other)
    {read : Machine → Checked (Except Error α)} {next following : α → Evaluation β}
    (same : read other = read machine)
    (rest : ∀ value, InStep related excluded machine other (next value) (following value)) :
    InStep related excluded machine other (consult read >>= next) (consult read >>= following) := by
  intro outcome after ran included
  rcases runIn_consult_bind ran with ⟨value, found, ran⟩ | ⟨error, found, failed⟩
  · obtain ⟨final, followingRan, holds⟩ := rest value _ _ ran included
    refine ⟨final, ?_, holds⟩
    rw [runIn_bind, consult, runIn_ofFunction, same, found]
    exact followingRan
  · cases failed
    refine ⟨other, ?_, holds⟩
    rw [runIn_bind, consult, runIn_ofFunction, same, found]
    rfl

/-- What was read is known in the rest of the first run. -/
theorem inStep_examine_bind {read : Machine → Checked α} {next following : α → Evaluation β}
    (same : read other = read machine)
    (rest : ∀ value, read machine = .ok value →
      InStep related excluded machine other (next value) (following value)) :
    InStep related excluded machine other (examine read >>= next) (examine read >>= following) := by
  intro outcome after ran included
  obtain ⟨value, found, ran⟩ := runIn_examine_bind ran
  obtain ⟨final, followingRan, holds⟩ := rest value found _ _ ran included
  refine ⟨final, ?_, holds⟩
  rw [runIn_bind, examine, runIn_ofFunction, same, found]
  exact followingRan

theorem InStep.mapM {values : List α} {first second : α → Evaluation β}
    (holds : related machine other)
    (each : ∀ value machine other, related machine other →
      InStep related excluded machine other (first value) (second value)) :
    InStep related excluded machine other (values.mapM first) (values.mapM second) := by
  induction values generalizing machine other with
  | nil => exact inStep_pure holds []
  | cons value values ih =>
      rw [List.mapM_cons, List.mapM_cons]
      refine (each value _ _ holds).bind fun result after final holds => ?_
      exact (ih holds).bind fun results after final holds => inStep_pure holds _

theorem InStep.forM {values : List α} {first second : α → Evaluation Unit}
    (holds : related machine other)
    (each : ∀ value machine other, related machine other →
      InStep related excluded machine other (first value) (second value)) :
    InStep related excluded machine other (values.forM first) (values.forM second) := by
  induction values generalizing machine other with
  | nil => exact inStep_pure holds ()
  | cons value values ih =>
      simp only [List.forM_eq_forM, List.forM_cons]
      exact (each value _ _ holds).bind fun _ _ _ holds => ih holds

end Rules

/-- Tasks that come to the same in related machines. -/
def TasksInStep (related : Machine → Machine → Prop) (excluded : Error → Prop)
    (first second : Task → Evaluation Value) : Prop :=
  ∀ task machine other, related machine other →
    InStep related excluded machine other (first task) (second task)

/-- What has to be known of a relation between machines so that evaluation keeps to it. -/
structure Lockstep (host : Host) (related : Machine → Machine → Prop) (excluded : Error → Prop) :
    Prop where
  heap : ∀ {machine other}, related machine other → machine.heap.ReadsLike other.heap
  bindings : ∀ {machine other}, related machine other → ∀ symbol,
    other.environment.find? symbol = machine.environment.find? symbol
  listOf : ∀ {machine other}, related machine other → ∀ values,
    InStep related excluded machine other (allocate (·.listOf values)) (allocate (·.listOf values))
  define : ∀ {machine other}, related machine other → ∀ symbol value,
    InStep related excluded machine other (define symbol value) (define symbol value)
  routine : ∀ {first second}, TasksInStep related excluded first second →
    ∀ {machine other : Machine} {record id : Nat} {contents : Lambda}, related machine other →
      machine.heap.lambdas[record]? = some contents → contents.routine = .host id →
      ∀ arguments, InStep related excluded machine other
        ((host.routine id arguments).run first) ((host.routine id arguments).run second)

namespace Lockstep

variable {host : Host} {related : Machine → Machine → Prop} {excluded : Error → Prop}
  {first second : Task → Evaluation Value} {machine other : Machine}

theorem lookup (lockstep : Lockstep host related excluded) (holds : related machine other)
    (symbol : Nat) : InStep related excluded machine other (lookup symbol) (lookup symbol) := by
  refine inStep_consult holds ?_
  simp only [Environment.lookup, lockstep.bindings holds, (lockstep.heap holds).name]

theorem evalApplication (lockstep : Lockstep host related excluded)
    (tasks : TasksInStep related excluded first second) (holds : related machine other)
    (cell : Nat) :
    InStep related excluded machine other (evalApplication first cell)
      (evalApplication second cell) := by
  unfold TaggedLisp.evalApplication
  refine inStep_examine_bind ((lockstep.heap holds).cell cell) fun link _ => ?_
  split
  · next head _ =>
    refine inStep_consult_bind holds ((lockstep.heap holds).toList link.tail) fun forms => ?_
    refine (InStep.mapM holds fun form => tasks (.eval form)).bind
      fun values machine other holds => ?_
    refine (lockstep.listOf holds values).bind fun arguments machine other holds => ?_
    refine (lockstep.lookup holds head).bind fun value machine other holds => ?_
    split
    · exact tasks (.apply _ arguments) _ _ holds
    · exact inStep_examine_bind ((lockstep.heap holds).name head) fun name _ =>
        inStep_throw holds _
  · exact inStep_throw holds _

theorem evalForm (lockstep : Lockstep host related excluded)
    (tasks : TasksInStep related excluded first second) (holds : related machine other)
    (form : Value) :
    InStep related excluded machine other (evalForm first form) (evalForm second form) := by
  unfold TaggedLisp.evalForm
  have alike := lockstep.heap holds
  cases form with
  | emptyList => exact inStep_pure holds _
  | symbol symbol => exact lockstep.lookup holds symbol
  | internal | error | lambda => exact inStep_throw holds _
  | list cell =>
      refine inStep_examine_bind (alike.isQuoted _) fun quoted _ => ?_
      split
      · exact inStep_consult holds (alike.unquote _)
      · refine inStep_examine_bind (alike.definition? _) fun definition _ => ?_
        split
        · next symbol body _ =>
          exact (tasks (.eval body) _ _ holds).bind fun value machine other holds =>
            lockstep.define holds symbol value
        · exact lockstep.evalApplication tasks holds cell

theorem builtin (lockstep : Lockstep host related excluded) (holds : related machine other)
    {routine : Routine} (isBuiltin : ∀ id, routine ≠ .host id) (arguments : Value) :
    InStep related excluded machine other (routine.run host first arguments)
      (routine.run host second arguments) := by
  have alike := lockstep.heap holds
  unfold Routine.run
  cases routine with
  | host id => exact absurd rfl (isBuiltin id)
  | quote => exact inStep_consult holds (alike.head arguments)
  | head =>
      exact inStep_consult_bind holds (alike.head arguments) fun list =>
        inStep_consult holds (alike.head list)
  | tail =>
      exact inStep_consult_bind holds (alike.head arguments) fun list =>
        inStep_consult holds (alike.tail list)

theorem applyLambda (lockstep : Lockstep host related excluded)
    (tasks : TasksInStep related excluded first second) (holds : related machine other)
    (record : Nat) (arguments : Value) :
    InStep related excluded machine other (applyLambda host first record arguments)
      (applyLambda host second record arguments) := by
  have alike := lockstep.heap holds
  unfold TaggedLisp.applyLambda
  refine inStep_examine_bind (alike.lambda record) fun contents found => ?_
  refine inStep_consult_bind holds (alike.count arguments) fun given => ?_
  split
  · by_cases builtin : ∀ id, contents.routine ≠ .host id
    · exact lockstep.builtin holds builtin arguments
    · obtain ⟨id, provided⟩ : ∃ id, contents.routine = .host id := by
        simpa using builtin
      rw [provided]
      exact lockstep.routine tasks holds (Heap.some_of_lambda found) provided arguments
  · exact inStep_throw holds _

/-- Tasks come to the same in related machines, also if calls may be nested deeper in the second one. -/
theorem run (lockstep : Lockstep host related excluded) {budget : Nat} :
    ∀ {larger : Nat}, budget ≤ larger →
      TasksInStep related excluded (Task.run host budget) (Task.run host larger) := by
  induction budget with
  | zero =>
      intro larger _ task machine other holds outcome after ran
      cases ran
  | succ budget ih =>
      intro larger enough task machine other holds
      obtain ⟨larger, rfl⟩ : ∃ rest, larger = rest + 1 := ⟨larger - 1, by omega⟩
      have tasks := ih (Nat.le_of_succ_le_succ enough)
      cases task with
      | eval form => exact lockstep.evalForm tasks holds form
      | apply record arguments => exact lockstep.applyLambda tasks holds record arguments

end Lockstep

/-! ## The same machine -/

section Same

variable {host : Host} {first second : Task → Evaluation Value}

theorem inStep_refl {α : Type} (machine : Machine) (computation : Evaluation α) :
    InStep Eq (fun _ => False) machine machine computation computation :=
  fun _ after ran _ => ⟨after, ran, rfl⟩

theorem inStep_operation (tasks : TasksInStep Eq (fun _ => False) first second)
    (machine : Machine) (operation : Operation) :
    InStep Eq (fun _ => False) machine machine (operation.run first) (operation.run second) := by
  cases operation with
  | eval form => exact tasks (.eval form) _ _ rfl
  | apply record arguments => exact tasks (.apply record arguments) _ _ rfl
  | _ => exact inStep_refl machine _

/-- With no failure excluded, a script may go on after any. -/
theorem inStep_script (tasks : TasksInStep Eq (fun _ => False) first second) (machine : Machine)
    (script : Script) :
    InStep Eq (fun _ => False) machine machine (script.run first) (script.run second) := by
  induction script generalizing machine with
  | done outcome => exact inStep_refl machine _
  | examine next ih => exact ih machine.heap machine.environment machine
  | perform operation next ih =>
      intro outcome after ran _
      rw [Script.run, runIn_ofFunction] at ran ⊢
      obtain ⟨⟨between, middle⟩, firstRan, ran⟩ := exists_of_bind_eq_ok ran
      obtain ⟨_, secondRan, rfl⟩ :=
        inStep_operation tasks machine operation _ _ firstRan (by simp)
      rw [secondRan]
      exact ih between middle outcome after ran (by simp)

theorem lockstep_same (host : Host) : Lockstep host Eq (fun _ => False) where
  heap := by
    rintro machine _ rfl
    exact .refl machine.heap
  bindings := by
    rintro machine _ rfl symbol
    rfl
  listOf := by
    rintro machine _ rfl values
    exact inStep_refl machine _
  define := by
    rintro machine _ rfl symbol value
    exact inStep_refl machine _
  routine := by
    rintro first second tasks machine _ record id contents rfl _ _ arguments
    exact inStep_script tasks machine _

end Same

end Evaluation

/-- A run that comes to an end is the same with more nesting. -/
theorem Task.run_of_le {host : Host} {budget larger : Nat} (enough : budget ≤ larger) {task : Task}
    {machine after : Machine} {outcome : Except Error Value}
    (ran : (Task.run host budget task).runIn machine = .ok (outcome, after)) :
    (Task.run host larger task).runIn machine = .ok (outcome, after) := by
  obtain ⟨final, largerRan, rfl⟩ :=
    (Evaluation.lockstep_same host).run enough task machine machine rfl _ _ ran (by simp)
  exact largerRan

end TaggedLisp
