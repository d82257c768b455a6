import TaggedLisp.Proofs.Evaluation.Contract
import TaggedLisp.Proofs.Heap.WellFormed

/-! What evaluation does, one constructor for each of its cases, whatever the form and whatever the
routines of the host. The evaluator runs on a budget of nested calls; derivations have none, so what
holds of every evaluation is shown by induction on them. Every attempt to bind a symbol is on record
in a derivation, in order, also those of forms that fail later on. -/

set_option autoImplicit false

namespace TaggedLisp

/-- An attempt to bind a symbol, with what came of it. -/
structure Definition where
  symbol : Nat
  value : Value
  outcome : Except Error Value

def Definition.succeeded (definition : Definition) : Bool :=
  definition.outcome.isOk

/-- Operations that neither come back to the evaluator nor bind anything. -/
def Operation.isDirect : Operation → Bool
  | .define .. | .eval _ | .apply .. => false
  | _ => true

inductive Activity where
  | task (task : Task)
  /-- Evaluate the arguments that are left, with the values so far, last first. Then apply what the
  symbol is bound to. -/
  | arguments (head : Nat) (evaluated forms : List Value)
  | operation (operation : Operation)
  | script (script : Script)

/-- The tasks of an operation that has none. -/
def noTask (_ : Task) : Evaluation Value :=
  throw .undefined

/-- In the given machine an activity makes the definitions on record, and ends with an outcome in
another machine. -/
inductive Performs (host : Host) :
    Activity → Machine → List Definition → Except Error Value → Machine → Prop where
  | emptyList {machine} :
      Performs host (.task (.eval .emptyList)) machine [] (.ok .emptyList) machine
  | symbol {machine symbol outcome} :
      machine.environment.lookup machine.heap symbol = .ok outcome →
      Performs host (.task (.eval (.symbol symbol))) machine [] outcome machine
  | meaningless {machine form} :
      form.isList = false → form.symbol? = none →
      Performs host (.task (.eval form)) machine [] (.error .undefined) machine
  | quoted {machine cell outcome} :
      machine.heap.isQuoted (.list cell) = .ok true →
      machine.heap.unquote (.list cell) = .ok outcome →
      Performs host (.task (.eval (.list cell))) machine [] outcome machine
  | bodyFailed {machine cell symbol body log error after} :
      machine.heap.isQuoted (.list cell) = .ok false →
      machine.heap.definition? (.list cell) = .ok (some (symbol, body)) →
      Performs host (.task (.eval body)) machine log (.error error) after →
      Performs host (.task (.eval (.list cell))) machine log (.error error) after
  | definition {machine cell symbol body log value after outcome environment} :
      machine.heap.isQuoted (.list cell) = .ok false →
      machine.heap.definition? (.list cell) = .ok (some (symbol, body)) →
      Performs host (.task (.eval body)) machine log (.ok value) after →
      after.environment.define after.heap symbol value = .ok (outcome, environment) →
      Performs host (.task (.eval (.list cell))) machine (log ++ [⟨symbol, value, outcome⟩]) outcome
        { after with environment }
  | headless {machine cell link} :
      machine.heap.isQuoted (.list cell) = .ok false →
      machine.heap.definition? (.list cell) = .ok none →
      machine.heap.cell cell = .ok link → link.head.symbol? = none →
      Performs host (.task (.eval (.list cell))) machine [] (.error .undefined) machine
  | improper {machine cell head tail error} :
      machine.heap.isQuoted (.list cell) = .ok false →
      machine.heap.definition? (.list cell) = .ok none →
      machine.heap.cell cell = .ok ⟨.symbol head, tail⟩ →
      machine.heap.toList tail = .ok (.error error) →
      Performs host (.task (.eval (.list cell))) machine [] (.error error) machine
  | application {machine cell head tail forms log outcome after} :
      machine.heap.isQuoted (.list cell) = .ok false →
      machine.heap.definition? (.list cell) = .ok none →
      machine.heap.cell cell = .ok ⟨.symbol head, tail⟩ →
      machine.heap.toList tail = .ok (.ok forms) →
      Performs host (.arguments head [] forms) machine log outcome after →
      Performs host (.task (.eval (.list cell))) machine log outcome after
  | argumentFailed {machine head evaluated form forms log error after} :
      Performs host (.task (.eval form)) machine log (.error error) after →
      Performs host (.arguments head evaluated (form :: forms)) machine log (.error error) after
  | argument {machine head evaluated form forms log value middle later outcome after} :
      Performs host (.task (.eval form)) machine log (.ok value) middle →
      Performs host (.arguments head (value :: evaluated) forms) middle later outcome after →
      Performs host (.arguments head evaluated (form :: forms)) machine (log ++ later) outcome after
  | noRoom {machine head evaluated error heap} :
      machine.heap.listOf evaluated.reverse = (.error error, heap) →
      Performs host (.arguments head evaluated []) machine [] (.error error) { machine with heap }
  | unbound {machine head evaluated arguments heap error} :
      machine.heap.listOf evaluated.reverse = (.ok arguments, heap) →
      machine.environment.lookup heap head = .ok (.error error) →
      Performs host (.arguments head evaluated []) machine [] (.error error) { machine with heap }
  | notCallable {machine head evaluated arguments heap value name} :
      machine.heap.listOf evaluated.reverse = (.ok arguments, heap) →
      machine.environment.lookup heap head = .ok (.ok value) → value.lambda? = none →
      heap.name head = .ok name →
      Performs host (.arguments head evaluated []) machine [] (.error (.notCallable name))
        { machine with heap }
  | call {machine head evaluated arguments heap record log outcome after} :
      machine.heap.listOf evaluated.reverse = (.ok arguments, heap) →
      machine.environment.lookup heap head = .ok (.ok (.lambda record)) →
      Performs host (.task (.apply record arguments)) { machine with heap } log outcome after →
      Performs host (.arguments head evaluated []) machine log outcome after
  | notAList {machine record contents arguments error} :
      machine.heap.lambda record = .ok contents →
      machine.heap.count arguments = .ok (.error error) →
      Performs host (.task (.apply record arguments)) machine [] (.error error) machine
  | arityMismatch {machine record contents arguments given} :
      machine.heap.lambda record = .ok contents →
      machine.heap.count arguments = .ok (.ok given) → given ≠ contents.arity →
      Performs host (.task (.apply record arguments)) machine []
        (.error (.arityMismatch contents.name contents.arity given)) machine
  | builtin {machine record contents arguments outcome} :
      machine.heap.lambda record = .ok contents →
      machine.heap.count arguments = .ok (.ok contents.arity) →
      (∀ id, contents.routine ≠ .host id) →
      (contents.routine.run host noTask arguments).runIn machine = .ok (outcome, machine) →
      Performs host (.task (.apply record arguments)) machine [] outcome machine
  | routine {machine record contents id arguments log outcome after} :
      machine.heap.lambda record = .ok contents →
      machine.heap.count arguments = .ok (.ok contents.arity) → contents.routine = .host id →
      Performs host (.script (host.routine id arguments)) machine log outcome after →
      Performs host (.task (.apply record arguments)) machine log outcome after
  | direct {machine operation outcome after} :
      operation.isDirect = true →
      (operation.run noTask).runIn machine = .ok (outcome, after) →
      Performs host (.operation operation) machine [] outcome after
  | define {machine symbol value outcome environment} :
      machine.environment.define machine.heap symbol value = .ok (outcome, environment) →
      Performs host (.operation (.define symbol value)) machine [⟨symbol, value, outcome⟩] outcome
        { machine with environment }
  | eval {machine form log outcome after} :
      Performs host (.task (.eval form)) machine log outcome after →
      Performs host (.operation (.eval form)) machine log outcome after
  | apply {machine record arguments log outcome after} :
      Performs host (.task (.apply record arguments)) machine log outcome after →
      Performs host (.operation (.apply record arguments)) machine log outcome after
  | done {machine outcome} : Performs host (.script (.done outcome)) machine [] outcome machine
  | perform {machine operation next log outcome middle later final after} :
      Performs host (.operation operation) machine log outcome middle →
      Performs host (.script (next outcome)) middle later final after →
      Performs host (.script (.perform operation next)) machine (log ++ later) final after
  | examine {machine next log outcome after} :
      Performs host (.script (next machine.heap machine.environment)) machine log outcome after →
      Performs host (.script (.examine next)) machine log outcome after

/-! ## Every run has a derivation -/

open Evaluation

theorem Operation.run_of_isDirect {operation : Operation} (direct : operation.isDirect = true)
    (recur : Task → Evaluation Value) : operation.run recur = operation.run noTask := by
  cases operation with
  | define | eval | apply => cases direct
  | _ => rfl

theorem Routine.run_of_ne_host {routine : Routine} (builtin : ∀ id, routine ≠ .host id)
    (host : Host) (recur : Task → Evaluation Value) (arguments : Value) :
    routine.run host recur arguments = routine.run host noTask arguments := by
  cases routine with
  | host id => exact absurd rfl (builtin id)
  | _ => rfl

/-- A direct operation reads or allocates, and never touches the bindings. -/
theorem Operation.growsTo_of_isDirect {operation : Operation} (direct : operation.isDirect = true)
    {machine after : Machine} {outcome : Except Error Value}
    (ran : (operation.run noTask).runIn machine = .ok (outcome, after)) :
    after.environment = machine.environment ∧ machine.heap.GrowsTo after.heap := by
  have reads : ∀ {read : Machine → Checked (Except Error Value)},
      (Evaluation.consult read).runIn machine = .ok (outcome, after) →
      after.environment = machine.environment ∧ machine.heap.GrowsTo after.heap := by
    intro read ran
    obtain ⟨-, rfl⟩ := runIn_consult ran
    exact ⟨rfl, .refl _⟩
  have allocates : ∀ {build : Heap → Except Error Value × Heap},
      machine.heap.GrowsTo (build machine.heap).2 →
      (Evaluation.allocate build).runIn machine = .ok (outcome, after) →
      after.environment = machine.environment ∧ machine.heap.GrowsTo after.heap := by
    intro build growth ran
    obtain ⟨-, rfl⟩ := runIn_allocate ran
    exact ⟨rfl, growth⟩
  unfold Operation.run at ran
  cases operation with
  | symbol name => exact allocates (machine.heap.symbol_growsTo name) ran
  | cons element list => exact allocates (machine.heap.cons_growsTo element list) ran
  | listOf elements => exact allocates (machine.heap.listOf_growsTo elements) ran
  | quote value => exact allocates (machine.heap.quote_growsTo value) ran
  | addError error => exact allocates (machine.heap.addError_growsTo error) ran
  | addLambda lambda => exact allocates (machine.heap.addLambda_growsTo lambda) ran
  | parse source => exact allocates (machine.heap.parse_growsTo source) ran
  | head | tail | unquote | lookup => exact reads ran
  | reverse list =>
      rw [runIn_ofFunction] at ran
      obtain ⟨⟨outcome, heap⟩, reversed, ran⟩ := exists_of_bind_eq_ok ran
      cases ran
      exact ⟨rfl, Heap.reverse_growsTo reversed⟩
  | define | eval | apply => cases direct

/-- Builtins of the language only read: the first argument, or the head or the tail of it. -/
theorem Routine.run_cases {routine : Routine} (builtin : ∀ id, routine ≠ .host id)
    {host : Host} {recur : Task → Evaluation Value} {arguments : Value} {machine after : Machine}
    {outcome : Except Error Value}
    (ran : (routine.run host recur arguments).runIn machine = .ok (outcome, after)) :
    after = machine ∧ (machine.heap.head arguments = .ok outcome ∨
      ∃ first, machine.heap.head arguments = .ok (.ok first) ∧
        (machine.heap.head first = .ok outcome ∨ machine.heap.tail first = .ok outcome)) := by
  unfold Routine.run at ran
  cases routine with
  | host id => exact absurd rfl (builtin id)
  | quote =>
      obtain ⟨read, same⟩ := runIn_consult ran
      exact ⟨same, .inl read⟩
  | head =>
      rcases runIn_consult_bind ran with ⟨first, firstRead, ran⟩ | ⟨error, failed, same⟩
      · obtain ⟨read, same⟩ := runIn_consult ran
        exact ⟨same, .inr ⟨first, firstRead, .inl read⟩⟩
      · cases same
        exact ⟨rfl, .inl failed⟩
  | tail =>
      rcases runIn_consult_bind ran with ⟨first, firstRead, ran⟩ | ⟨error, failed, same⟩
      · obtain ⟨read, same⟩ := runIn_consult ran
        exact ⟨same, .inr ⟨first, firstRead, .inr read⟩⟩
      · cases same
        exact ⟨rfl, .inl failed⟩

/-- Every task that comes to an end has a derivation. -/
def Derives (host : Host) (recur : Task → Evaluation Value) : Prop :=
  ∀ {task machine outcome after}, (recur task).runIn machine = .ok (outcome, after) →
    ∃ log, Performs host (.task task) machine log outcome after

namespace Derives

variable {host : Host} {recur : Task → Evaluation Value} {machine after : Machine}
  {outcome : Except Error Value}

theorem operation (derives : Derives host recur) {operation : Operation}
    (ran : (operation.run recur).runIn machine = .ok (outcome, after)) :
    ∃ log, Performs host (.operation operation) machine log outcome after := by
  cases direct : operation.isDirect with
  | true =>
      rw [Operation.run_of_isDirect direct] at ran
      exact ⟨[], .direct direct ran⟩
  | false =>
      cases operation with
      | define symbol value =>
          obtain ⟨environment, defined, same⟩ := runIn_define ran
          subst same
          exact ⟨_, .define defined⟩
      | eval form =>
          obtain ⟨log, performs⟩ := derives ran
          exact ⟨log, .eval performs⟩
      | apply record arguments =>
          obtain ⟨log, performs⟩ := derives ran
          exact ⟨log, .apply performs⟩
      | _ => cases direct

theorem script (derives : Derives host recur) {script : Script}
    (ran : (script.run recur).runIn machine = .ok (outcome, after)) :
    ∃ log, Performs host (.script script) machine log outcome after := by
  induction script generalizing machine with
  | done result =>
      cases ran
      exact ⟨[], .done⟩
  | perform operation next ih =>
      rw [Script.run, runIn_ofFunction] at ran
      obtain ⟨⟨between, middle⟩, first, ran⟩ := exists_of_bind_eq_ok ran
      obtain ⟨log, performs⟩ := derives.operation first
      obtain ⟨later, rest⟩ := ih between ran
      exact ⟨log ++ later, .perform performs rest⟩
  | examine next ih =>
      obtain ⟨log, performs⟩ := ih machine.heap machine.environment ran
      exact ⟨log, .examine performs⟩

theorem applyLambda (derives : Derives host recur) {record : Nat} {arguments : Value}
    (ran : (applyLambda host recur record arguments).runIn machine = .ok (outcome, after)) :
    ∃ log, Performs host (.task (.apply record arguments)) machine log outcome after := by
  unfold TaggedLisp.applyLambda at ran
  obtain ⟨contents, found, ran⟩ := runIn_examine_bind ran
  rcases runIn_consult_bind ran with ⟨given, counted, ran⟩ | ⟨error, failed, same⟩
  · split at ran
    · next sameArity =>
      subst sameArity
      by_cases builtin : ∀ id, contents.routine ≠ .host id
      · cases (Routine.run_cases builtin ran).1
        rw [Routine.run_of_ne_host builtin] at ran
        exact ⟨[], .builtin found counted builtin ran⟩
      · obtain ⟨id, provided⟩ : ∃ id, contents.routine = .host id := by
          simpa using builtin
        rw [provided] at ran
        obtain ⟨log, performs⟩ := derives.script ran
        exact ⟨log, .routine found counted provided performs⟩
    · next mismatch =>
      cases ran
      exact ⟨[], .arityMismatch found counted mismatch⟩
  · cases same
    exact ⟨[], .notAList found failed⟩

private def callWith (recur : Task → Evaluation Value) (head : Nat) (values : List Value) :
    Evaluation Value := do
  let arguments ← Evaluation.allocate (·.listOf values)
  match ← Evaluation.lookup head with
  | .lambda record => recur (.apply record arguments)
  | _ => throw (.notCallable (← Evaluation.examine (·.heap.name head)))

private theorem callWith_performs (derives : Derives host recur) {head : Nat}
    {evaluated : List Value}
    (ran : (callWith recur head evaluated.reverse).runIn machine = .ok (outcome, after)) :
    ∃ log, Performs host (.arguments head evaluated []) machine log outcome after := by
  rcases runIn_allocate_bind ran with ⟨arguments, heap, built, ran⟩ | ⟨error, heap, full, same⟩
  · rcases runIn_consult_bind ran with ⟨value, found, ran⟩ | ⟨error, unbound, same⟩
    · cases callee : value.lambda? with
      | some record =>
          cases value with
          | lambda record =>
              obtain ⟨log, performs⟩ := derives ran
              exact ⟨log, .call built found performs⟩
          | _ => cases callee
      | none =>
          have ran : (Evaluation.examine (·.heap.name head) >>= fun name =>
              throw (.notCallable name) : Evaluation Value).runIn { machine with heap } =
                .ok (outcome, after) := by
            cases value with
            | lambda => cases callee
            | _ => exact ran
          obtain ⟨name, named, ran⟩ := runIn_examine_bind ran
          cases ran
          exact ⟨[], .notCallable built found callee named⟩
    · cases same
      exact ⟨[], .unbound built unbound⟩
  · cases same
    exact ⟨[], .noRoom full⟩

theorem arguments (derives : Derives host recur) {head : Nat} {evaluated forms : List Value}
    (ran : (forms.mapM (fun form => recur (.eval form)) >>= fun values =>
      callWith recur head (evaluated.reverse ++ values)).runIn machine = .ok (outcome, after)) :
    ∃ log, Performs host (.arguments head evaluated forms) machine log outcome after := by
  induction forms generalizing machine evaluated with
  | nil =>
      rw [List.mapM_nil, pure_bind, List.append_nil] at ran
      exact callWith_performs derives ran
  | cons form forms ih =>
      simp only [List.mapM_cons, bind_assoc, pure_bind] at ran
      rcases runIn_bind_of_ok ran with ⟨value, middle, first, ran⟩ | ⟨error, failed, same⟩
      · obtain ⟨log, performs⟩ := derives first
        have accumulated : ∀ values,
            evaluated.reverse ++ value :: values = (value :: evaluated).reverse ++ values := by
          simp
        simp only [accumulated] at ran
        obtain ⟨later, rest⟩ := ih ran
        exact ⟨log ++ later, .argument performs rest⟩
      · cases same
        obtain ⟨log, performs⟩ := derives failed
        exact ⟨log, .argumentFailed performs⟩

theorem evalForm (derives : Derives host recur) {form : Value}
    (ran : (evalForm recur form).runIn machine = .ok (outcome, after)) :
    ∃ log, Performs host (.task (.eval form)) machine log outcome after := by
  unfold TaggedLisp.evalForm at ran
  cases form with
  | emptyList =>
      cases ran
      exact ⟨[], .emptyList⟩
  | symbol symbol =>
      obtain ⟨found, same⟩ := runIn_consult ran
      subst same
      exact ⟨[], .symbol found⟩
  | internal | error | lambda =>
      cases ran
      exact ⟨[], .meaningless rfl rfl⟩
  | list cell =>
      obtain ⟨isQuoted, quoted, ran⟩ := runIn_examine_bind ran
      cases isQuoted with
      | true =>
          obtain ⟨unquoted, same⟩ := runIn_consult ran
          subst same
          exact ⟨[], .quoted quoted unquoted⟩
      | false =>
          obtain ⟨definition, read, ran⟩ := runIn_examine_bind ran
          cases definition with
          | some parts =>
              obtain ⟨symbol, body⟩ := parts
              rcases runIn_bind_of_ok ran with ⟨value, middle, first, ran⟩ | ⟨error, failed, same⟩
              · obtain ⟨log, performs⟩ := derives first
                obtain ⟨environment, defined, same⟩ := runIn_define ran
                subst same
                exact ⟨_, .definition quoted read performs defined⟩
              · cases same
                obtain ⟨log, performs⟩ := derives failed
                exact ⟨log, .bodyFailed quoted read performs⟩
          | none =>
              obtain ⟨⟨head, tail⟩, found, ran⟩ := runIn_examine_bind ran
              cases head with
              | symbol head =>
                  rcases runIn_consult_bind ran with ⟨forms, listed, ran⟩ | ⟨error, failed, same⟩
                  · obtain ⟨log, performs⟩ :
                        ∃ log, Performs host (.arguments head [] forms) machine log outcome after :=
                      derives.arguments ran
                    exact ⟨log, .application quoted read found listed performs⟩
                  · cases same
                    exact ⟨[], .improper quoted read found failed⟩
              | _ =>
                  cases ran
                  exact ⟨[], .headless quoted read found rfl⟩

end Derives

theorem derives_run (host : Host) (budget : Nat) : Derives host (Task.run host budget) := by
  induction budget with
  | zero =>
      intro task machine outcome after ran
      cases ran
  | succ budget ih =>
      intro task machine outcome after ran
      cases task with
      | eval form => exact ih.evalForm ran
      | apply record arguments => exact ih.applyLambda ran

/-! ## What is performed only adds to the stores -/

theorem Performs.growsTo {host : Host} {activity : Activity} {machine after : Machine}
    {log : List Definition} {outcome : Except Error Value}
    (performs : Performs host activity machine log outcome after) :
    machine.heap.GrowsTo after.heap := by
  induction performs with
  | emptyList | symbol | meaningless | quoted | headless | improper | notAList | arityMismatch
  | builtin | define | done => exact .refl _
  | bodyFailed _ _ _ ih | definition _ _ _ _ ih | application _ _ _ _ _ ih | argumentFailed _ ih
  | routine _ _ _ _ ih | eval _ ih | apply _ ih | examine _ ih => exact ih
  | argument _ _ firstIH othersIH | perform _ _ firstIH othersIH => exact firstIH.trans othersIH
  | noRoom built | unbound built | notCallable built => exact Heap.growsTo_of_listOf built
  | call built _ _ ih => exact (Heap.growsTo_of_listOf built).trans ih
  | direct isDirect ran => exact (Operation.growsTo_of_isDirect isDirect ran).2

end TaggedLisp
