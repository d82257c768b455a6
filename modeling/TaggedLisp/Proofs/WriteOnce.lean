import TaggedLisp.Proofs.Machine
import TaggedLisp.Proofs.Evaluation.Sources

/-! Bindings are written once. Whatever is evaluated in an environment, with any routines of the host
and on any heap, the environment changes by its definitions only, in the order in which they are on
record. So what holds of a definition holds of whole runs: no binding is lost or changed, and there is
one more for each definition that succeeds. The listing of the bindings forgets their order. -/

set_option autoImplicit false

namespace TaggedLisp

namespace Environment

/-! ## Single definitions -/

/-- What an attempt to bind a symbol comes to: it fails if the symbol is bound, and otherwise if the
environment is full, and then it changes nothing. -/
structure WritesOnce (environment : Environment) (symbol : Nat) (value : Value)
    (outcome : Except Error Value) (after : Environment) : Prop where
  redefinition : (∃ name, outcome = .error (.redefinition name)) ↔
    environment.isBound symbol = true
  full : outcome = .error (.environmentFull environment.capacity) ↔
    environment.isBound symbol = false ∧ environment.size = environment.capacity
  succeeded : outcome.isOk = true ↔
    environment.isBound symbol = false ∧ environment.size < environment.capacity
  failed : outcome.isOk = false → after = environment
  bound : outcome.isOk = true → after.find? symbol = some value

theorem Defines.writesOnce {environment after : Environment} {symbol : Nat} {name : String}
    {value : Value} {outcome : Except Error Value}
    (defines : environment.Defines symbol name value (outcome, after))
    (bounded : environment.size ≤ environment.capacity) :
    environment.WritesOnce symbol value outcome after := by
  cases defines with
  | bound found =>
      constructor <;> simp [isBound, found, Except.isOk, Except.toBool]
  | full free noRoom =>
      have atCapacity := Nat.le_antisymm bounded noRoom
      constructor <;> simp [isBound, free, Except.isOk, Except.toBool, atCapacity]
  | added free room =>
      constructor <;>
        simp [isBound, free, Except.isOk, Except.toBool, room, Nat.ne_of_lt room, find?_bind]

/-! ## Definitions in order -/

/-- Starting from an environment, the definitions on record are made one after the other. In which heap
the name of a symbol is looked up for a message does not matter. -/
inductive Attempts : Environment → List Definition → Environment → Prop where
  | nil {environment} : Attempts environment [] environment
  | cons {environment heap symbol value outcome middle log after} :
      environment.define heap symbol value = .ok (outcome, middle) → Attempts middle log after →
      Attempts environment (⟨symbol, value, outcome⟩ :: log) after

namespace Attempts

variable {environment middle after : Environment} {log later : List Definition}

theorem single {heap : Heap} {symbol : Nat} {value : Value} {outcome : Except Error Value}
    (defined : environment.define heap symbol value = .ok (outcome, after)) :
    Attempts environment [⟨symbol, value, outcome⟩] after :=
  .cons defined .nil

theorem append (attempts : Attempts environment log middle) (others : Attempts middle later after) :
    Attempts environment (log ++ later) after := by
  induction attempts with
  | nil => exact others
  | cons defined _ ih => exact .cons defined (ih others)

theorem capacity (attempts : Attempts environment log after) :
    after.capacity = environment.capacity := by
  induction attempts with
  | nil => rfl
  | cons defined _ ih =>
      obtain ⟨name, defines⟩ := defines_of_define defined
      rw [ih]
      cases defines <;> rfl

/-- A symbol that is bound keeps its value. -/
theorem find? (attempts : Attempts environment log after) {symbol : Nat} {value : Value}
    (found : environment.find? symbol = some value) : after.find? symbol = some value := by
  induction attempts with
  | nil => exact found
  | cons defined _ ih =>
      obtain ⟨name, defines⟩ := defines_of_define defined
      refine ih ?_
      cases defines with
      | bound | full => exact found
      | added free =>
          rw [find?_bind, if_neg, found]
          intro same
          subst same
          cases free.symm.trans found

theorem size (attempts : Attempts environment log after) :
    after.size = environment.size + log.countP Definition.succeeded := by
  induction attempts with
  | nil => rfl
  | cons defined _ ih =>
      obtain ⟨name, defines⟩ := defines_of_define defined
      rw [ih, List.countP_cons]
      cases defines with
      | bound | full => rfl
      | added free =>
          rw [size_bind free]
          simp only [Definition.succeeded, Except.isOk, Except.toBool, ↓reduceIte]
          omega

theorem size_le (attempts : Attempts environment log after)
    (bounded : environment.size ≤ environment.capacity) : after.size ≤ after.capacity := by
  induction attempts with
  | nil => exact bounded
  | cons defined _ ih =>
      obtain ⟨name, defines⟩ := defines_of_define defined
      refine ih ?_
      cases defines with
      | bound | full => exact bounded
      | added free room =>
          rw [size_bind free]
          exact room

/-- Every definition on record was made in the environment that those before it had left. -/
theorem split {front back : List Definition} {definition : Definition}
    (attempts : Attempts environment (front ++ definition :: back) after) :
    ∃ heap before next, Attempts environment front before ∧
      before.define heap definition.symbol definition.value = .ok (definition.outcome, next) ∧
      Attempts next back after := by
  induction front generalizing environment with
  | nil =>
      cases attempts with
      | cons defined others => exact ⟨_, _, _, .nil, defined, others⟩
  | cons first front ih =>
      cases attempts with
      | cons defined others =>
          obtain ⟨heap, before, next, earlier, definedNext, later⟩ := ih others
          exact ⟨heap, before, next, .cons defined earlier, definedNext, later⟩

end Attempts

end Environment

/-! ## What is evaluated changes bindings by its definitions only -/

section Records

variable {host : Host} {machine after : Machine} {log : List Definition}

open Environment

theorem Performs.attempts {activity : Activity} {outcome : Except Error Value}
    (performs : Performs host activity machine log outcome after) :
    Attempts machine.environment log after.environment := by
  induction performs with
  | emptyList | symbol | meaningless | quoted | headless | improper | noRoom | unbound
  | notCallable | notAList | arityMismatch | builtin | done => exact .nil
  | bodyFailed _ _ _ ih | application _ _ _ _ _ ih | argumentFailed _ ih | call _ _ _ ih
  | routine _ _ _ _ ih | eval _ ih | apply _ ih | examine _ ih => exact ih
  | definition _ _ _ defined ih => exact ih.append (.single defined)
  | argument _ _ firstIH othersIH | perform _ _ firstIH othersIH => exact firstIH.append othersIH
  | direct isDirect ran =>
      rw [(Operation.growsTo_of_isDirect isDirect ran).1]
      exact .nil
  | define defined => exact .single defined

namespace Machine

theorem Evaluates.attempts {form : Value} {outcome : Except Error Value}
    (evaluates : Evaluates host machine form log outcome after) :
    Attempts machine.environment log after.environment := by
  cases evaluates with
  | foreign => exact .nil
  | performed _ performs => exact performs.attempts

theorem EvaluatesEach.attempts {forms : List Value} {outcomes : List (Except Error Value)}
    (evaluates : EvaluatesEach host machine forms log outcomes after) :
    Attempts machine.environment log after.environment := by
  induction evaluates with
  | done => exact .nil
  | failed first => exact first.attempts
  | more first _ ih => exact first.attempts.append ih

theorem EvaluatesForms.attempts {source : String}
    {outcome : Except Error (List (Except Error Value))}
    (evaluates : EvaluatesForms host source machine log outcome after) :
    Attempts machine.environment log after.environment := by
  cases evaluates with
  | unreadable => exact .nil
  | evaluated _ each => exact each.attempts

theorem EvaluatesSource.attempts {source : String} {outcome : Except Error Value}
    (evaluates : EvaluatesSource host source machine log outcome after) :
    Attempts machine.environment log after.environment := by
  cases evaluates with
  | unreadable forms | listed forms => exact forms.attempts

end Machine

namespace Environment

theorem Seeds.attempts {lambdas : List Lambda} {outcome : Except Error Unit}
    (seeds : Seeds lambdas machine log outcome after) :
    Attempts machine.environment log after.environment := by
  induction seeds with
  | done | unnamed | unrecorded => exact .nil
  | refused _ _ defined => exact .single defined
  | bound _ _ defined _ ih => exact .cons defined ih

theorem Makes.attempts {heap seeded : Heap} {settings : Settings} {environment : Environment}
    (makes : Makes heap settings log (.ok environment) seeded) :
    Attempts (empty settings.environmentCapacity) log environment := by
  generalize same : (.ok environment : Except Error Environment) = outcome at makes
  cases makes with
  | refused => cases same
  | @seeded _ _ _ outcome _ defined seeds =>
      cases outcome with
      | error => cases same
      | ok =>
          cases same
          exact .cons defined seeds.attempts

end Environment

end Records

/-! ## Runs of an environment -/

namespace Environment

/-- What a host program may ask of a machine. -/
inductive Request where
  | perform (operation : Operation)
  | eval (form : Value)
  | evalForms (source : String)
  | evalSource (source : String)

/-- The machine that a request leaves, whatever comes of it. -/
def Request.run (host : Host) (machine : Machine) : Request → Checked Machine
  | .perform operation => (·.2) <$> machine.perform host operation
  | .eval form => (·.2) <$> machine.eval host form
  | .evalForms source => (·.2) <$> machine.evalForms host source
  | .evalSource source => (·.2) <$> machine.evalSource host source

/-- The definitions that a request makes. -/
inductive Request.Records (host : Host) :
    Request → Machine → List Definition → Machine → Prop where
  | perform {operation machine log outcome after} :
      Performs host (.operation operation) machine log outcome after →
      Records host (.perform operation) machine log after
  | eval {form machine log outcome after} :
      machine.Evaluates host form log outcome after → Records host (.eval form) machine log after
  | evalForms {source machine log outcome after} :
      machine.EvaluatesForms host source log outcome after →
      Records host (.evalForms source) machine log after
  | evalSource {source machine log outcome after} :
      machine.EvaluatesSource host source log outcome after →
      Records host (.evalSource source) machine log after

theorem Request.exists_records {host : Host} {machine after : Machine} {request : Request}
    (ran : request.run host machine = .ok after) :
    ∃ log, request.Records host machine log after := by
  have ended : ∀ {α : Type} {computation : Checked (α × Machine)},
      (·.2) <$> computation = .ok after → ∃ outcome, computation = .ok (outcome, after) := by
    intro α computation mapped
    cases computation with
    | error fault => cases mapped
    | ok result =>
        cases mapped
        exact ⟨result.1, rfl⟩
  cases request with
  | perform operation =>
      obtain ⟨outcome, ran⟩ := ended ran
      obtain ⟨log, performs⟩ := Machine.exists_performs ran
      exact ⟨log, .perform performs⟩
  | eval form =>
      obtain ⟨outcome, ran⟩ := ended ran
      obtain ⟨log, evaluates⟩ := Machine.exists_evaluates ran
      exact ⟨log, .eval evaluates⟩
  | evalForms source =>
      obtain ⟨outcome, ran⟩ := ended ran
      obtain ⟨log, evaluates⟩ := Machine.exists_evaluatesForms ran
      exact ⟨log, .evalForms evaluates⟩
  | evalSource source =>
      obtain ⟨outcome, ran⟩ := ended ran
      obtain ⟨log, evaluates⟩ := Machine.exists_evaluatesSource ran
      exact ⟨log, .evalSource evaluates⟩

theorem Request.Records.attempts {host : Host} {machine after : Machine} {request : Request}
    {log : List Definition} (records : request.Records host machine log after) :
    Attempts machine.environment log after.environment := by
  cases records with
  | perform performs => exact performs.attempts
  | eval evaluates | evalForms evaluates | evalSource evaluates => exact evaluates.attempts

/-- Requests are made of an environment one after the other, each with any host and on any heap, and
their definitions are on record. -/
inductive Runs : Environment → List Definition → Environment → Prop where
  | done {environment} : Runs environment [] environment
  | request {host request heap environment log middle later after} :
      Request.run host ⟨heap, environment⟩ request = .ok middle →
      Request.Records host request ⟨heap, environment⟩ log middle →
      Runs middle.environment later after → Runs environment (log ++ later) after

variable {environment after : Environment} {log : List Definition}

theorem Runs.attempts (runs : Runs environment log after) : Attempts environment log after := by
  induction runs with
  | done => exact .nil
  | request _ records _ ih => exact records.attempts.append ih

theorem size_le_of_runs {heap seeded : Heap} {settings : Settings} {fresh : Environment}
    (made : Environment.new heap settings = .ok (.ok fresh, seeded)) (runs : Runs fresh log after) :
    after.capacity = settings.environmentCapacity ∧ after.size ≤ after.capacity := by
  obtain ⟨seeding, makes⟩ := exists_makes made
  have attempts := makes.attempts.append runs.attempts
  exact ⟨attempts.capacity, attempts.size_le (Nat.zero_le _)⟩

/-- In every run of an environment, bindings are kept, there is room for all of them, and there is one
more for each definition that succeeds. A definition fails if the symbol is bound, and otherwise if
the environment is full, and then it changes nothing. The listing goes by symbol and says nothing
about the order of the definitions. Every request that ends is on record. -/
theorem Runs.bindings_once {heap seeded : Heap} {settings : Settings} {fresh : Environment}
    {earlier : List Definition} (made : Environment.new heap settings = .ok (.ok fresh, seeded))
    (start : Runs fresh earlier environment) (runs : Runs environment log after) :
    (∀ symbol value, environment.find? symbol = some value → after.find? symbol = some value) ∧
      after.size ≤ settings.environmentCapacity ∧
      after.size = environment.size + log.countP Definition.succeeded ∧
      (∀ front definition back, log = front ++ definition :: back →
        ∃ heap before next, Attempts environment front before ∧
          before.define heap definition.symbol definition.value = .ok (definition.outcome, next) ∧
          before.WritesOnce definition.symbol definition.value definition.outcome next ∧
          Attempts next back after) ∧
      (∀ heap : Heap, ∀ symbol value, heap.contains (.symbol symbol) = true →
        ∃ outcome next, after.define heap symbol value = .ok (outcome, next) ∧
          after.WritesOnce symbol value outcome next) ∧
      after.bindings.length = after.size ∧
      after.bindings.Pairwise (fun left right => left.1 < right.1) ∧
      (∀ symbol value, (symbol, value) ∈ after.bindings ↔ after.find? symbol = some value) ∧
      (∀ other : Environment, (∀ symbol, other.find? symbol = after.find? symbol) →
        other.bindings = after.bindings) ∧
      ∀ host heap (request : Request) next, request.run host ⟨heap, after⟩ = .ok next →
        ∃ more, request.Records host ⟨heap, after⟩ more next := by
  obtain ⟨-, startBounded⟩ := size_le_of_runs made start
  have attempts := runs.attempts
  have bounded := attempts.size_le startBounded
  refine ⟨fun symbol value => attempts.find?, ?_, attempts.size, ?_, ?_, ?_,
    bindings_increasing after, fun symbol value => mem_bindings_iff,
    fun other same => bindings_eq_of_find?_eq same,
    fun host heap request next ran => Request.exists_records ran⟩
  · have wholeCapacity := attempts.capacity.trans (size_le_of_runs made start).1
    rw [← wholeCapacity]
    exact bounded
  · intro front definition back split
    subst split
    obtain ⟨heap, before, next, first, defined, others⟩ := attempts.split
    obtain ⟨name, defines⟩ := defines_of_define defined
    exact ⟨heap, before, next, first, defined,
      defines.writesOnce (first.size_le startBounded), others⟩
  · intro heap symbol value contained
    obtain ⟨name, named⟩ := Heap.exists_name_of_contains contained
    obtain ⟨⟨outcome, next⟩, defined, defines⟩ := after.define_defines named value
    exact ⟨outcome, next, defined, defines.writesOnce bounded⟩
  · exact Std.TreeMap.length_toList

theorem bindings_once_of_definition :
    ∃ heap seeded fresh definition after, Heap.new {} = .ok heap ∧
      Environment.new heap {} = .ok (.ok fresh, seeded) ∧ Runs fresh [definition] after ∧
      definition.symbol = heap.keywords.definition ∧
      after.size = fresh.size + [definition].countP Definition.succeeded ∧
      after.bindings.Pairwise (fun left right => left.1 < right.1) := by
  obtain ⟨heap, fresh, seeded, created, made, -⟩ := exists_new_with_builtins
  obtain ⟨seeding, makes⟩ := exists_makes made
  have keyword := ((Heap.wellFormed_new created).keywords.grow makes.growsTo).definition
  rw [makes.growsTo.keywords] at keyword
  obtain ⟨⟨outcome, after⟩, defined, -⟩ := fresh.define_defines keyword .emptyList
  have ran : Request.run Host.none ⟨seeded, fresh⟩
      (.perform (.define heap.keywords.definition .emptyList)) = .ok ⟨seeded, after⟩ := by
    simp only [Request.run, Machine.perform, Operation.run, Evaluation.define,
      Evaluation.runIn_ofFunction, defined]
    rfl
  have runs := Runs.request ran (.perform (.define defined)) .done
  have once := Runs.bindings_once made .done runs
  exact ⟨heap, seeded, fresh, _, after, created, made, runs, rfl, once.2.2.1,
    once.2.2.2.2.2.2.1⟩

end Environment

end TaggedLisp
