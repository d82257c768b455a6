import TaggedLisp.Proofs.Evaluation.Derivation
import TaggedLisp.Proofs.Heap.WellFormed

/-! What whole sources do, form by form, and what the seeding of an environment does, lambda by lambda,
in the manner of derivations. Forms that are evaluated on their own are looked at first: a value that
points outside the stores has no meaning. -/

set_option autoImplicit false

namespace TaggedLisp

open Evaluation

namespace Machine

/-- A form that is evaluated on its own. -/
inductive Evaluates (host : Host) :
    Machine → Value → List Definition → Except Error Value → Machine → Prop where
  | foreign {machine form} : machine.heap.contains form = false →
      Evaluates host machine form [] (.error .undefined) machine
  | performed {machine form log outcome after} : machine.heap.contains form = true →
      Performs host (.task (.eval form)) machine log outcome after →
      Evaluates host machine form log outcome after

/-- Forms are evaluated in order up to the first that fails. -/
inductive EvaluatesEach (host : Host) :
    Machine → List Value → List Definition → List (Except Error Value) → Machine → Prop where
  | done {machine} : EvaluatesEach host machine [] [] [] machine
  | failed {machine form forms log error after} :
      Evaluates host machine form log (.error error) after →
      EvaluatesEach host machine (form :: forms) log [.error error] after
  | more {machine form forms log value middle later outcomes after} :
      Evaluates host machine form log (.ok value) middle →
      EvaluatesEach host middle forms later outcomes after →
      EvaluatesEach host machine (form :: forms) (log ++ later) (.ok value :: outcomes) after

/-- A source is read as a whole, and then its forms are evaluated. -/
inductive EvaluatesForms (host : Host) (source : String) : Machine → List Definition →
    Except Error (List (Except Error Value)) → Machine → Prop where
  | unreadable {machine error heap} : machine.heap.readForms source = (.error error, heap) →
      EvaluatesForms host source machine [] (.error error) { machine with heap }
  | evaluated {machine forms heap log outcomes after} :
      machine.heap.readForms source = (.ok forms, heap) →
      EvaluatesEach host { machine with heap } forms log outcomes after →
      EvaluatesForms host source machine log (.ok outcomes) after

/-- The outcomes of a source become a list once all its forms have been evaluated. -/
inductive EvaluatesSource (host : Host) (source : String) :
    Machine → List Definition → Except Error Value → Machine → Prop where
  | unreadable {machine log error after} :
      EvaluatesForms host source machine log (.error error) after →
      EvaluatesSource host source machine log (.error error) after
  | listed {machine log outcomes after values reified outcome heap} :
      EvaluatesForms host source machine log (.ok outcomes) after →
      reify after.heap outcomes = (values, reified) → reified.listOf values = (outcome, heap) →
      EvaluatesSource host source machine log outcome { after with heap }

variable {host : Host} {machine after : Machine}

theorem exists_performs {operation : Operation} {outcome : Except Error Value}
    (ran : machine.perform host operation = .ok (outcome, after)) :
    ∃ log, Performs host (.operation operation) machine log outcome after := by
  have derives : Derives host (Task.run host machine.budget) := derives_run host machine.budget
  exact derives.operation ran

theorem exists_evaluates {form : Value} {outcome : Except Error Value}
    (ran : machine.eval host form = .ok (outcome, after)) :
    ∃ log, Evaluates host machine form log outcome after := by
  unfold Machine.eval at ran
  cases contained : machine.heap.contains form with
  | true =>
      rw [if_pos contained] at ran
      obtain ⟨log, performs⟩ := derives_run host machine.budget ran
      exact ⟨log, .performed contained performs⟩
  | false =>
      simp only [contained, Bool.false_eq_true, ↓reduceIte] at ran
      cases ran
      exact ⟨[], .foreign contained⟩

/-- Forms in order: either the first one failed, or the others were evaluated after it. -/
theorem evalEach_cons_eq_ok_iff {form : Value} {forms : List Value}
    {outcomes : List (Except Error Value)} :
    machine.evalEach host (form :: forms) = .ok (outcomes, after) ↔
      (∃ error, machine.eval host form = .ok (.error error, after) ∧ outcomes = [.error error]) ∨
        ∃ value middle later, machine.eval host form = .ok (.ok value, middle) ∧
          middle.evalEach host forms = .ok (later, after) ∧ outcomes = .ok value :: later := by
  rw [evalEach]
  constructor
  · intro ran
    obtain ⟨⟨outcome, middle⟩, first, ran⟩ := exists_of_bind_eq_ok ran
    cases outcome with
    | error error =>
        cases ran
        exact .inl ⟨error, first, rfl⟩
    | ok value =>
        obtain ⟨⟨later, final⟩, others, ran⟩ := exists_of_bind_eq_ok ran
        cases ran
        exact .inr ⟨value, middle, later, first, others, rfl⟩
  · intro ran
    rcases ran with ⟨error, first, rfl⟩ | ⟨value, middle, later, first, others, rfl⟩
    · rw [first]
      rfl
    · simp only [first, bind, Except.bind, others]
      rfl

theorem exists_evaluatesEach {forms : List Value} {outcomes : List (Except Error Value)}
    (ran : machine.evalEach host forms = .ok (outcomes, after)) :
    ∃ log, EvaluatesEach host machine forms log outcomes after := by
  induction forms generalizing machine after outcomes with
  | nil =>
      cases ran
      exact ⟨[], .done⟩
  | cons form forms ih =>
      rcases evalEach_cons_eq_ok_iff.mp ran with
        ⟨error, first, rfl⟩ | ⟨value, middle, later, first, others, rfl⟩
      · obtain ⟨log, evaluates⟩ := exists_evaluates first
        exact ⟨log, .failed evaluates⟩
      · obtain ⟨log, evaluates⟩ := exists_evaluates first
        obtain ⟨laterLog, rest⟩ := ih others
        exact ⟨log ++ laterLog, .more evaluates rest⟩

/-- A source: either it cannot be read, or its forms are evaluated in the heap that reading left. -/
theorem evalForms_eq_ok_iff {source : String} {outcome : Except Error (List (Except Error Value))} :
    machine.evalForms host source = .ok (outcome, after) ↔
      (∃ error heap, machine.heap.readForms source = (.error error, heap) ∧
        outcome = .error error ∧ after = { machine with heap }) ∨
      ∃ forms heap outcomes, machine.heap.readForms source = (.ok forms, heap) ∧
        Machine.evalEach host { machine with heap } forms = .ok (outcomes, after) ∧
        outcome = .ok outcomes := by
  unfold evalForms
  obtain ⟨read, heap⟩ := machine.heap.readForms source
  cases read with
  | error error => simp [pure, Except.pure, eq_comm]
  | ok forms =>
      cases each : Machine.evalEach host { machine with heap } forms with
      | error fault => simp [each, bind, Except.bind]
      | ok result =>
          obtain ⟨outcomes, final⟩ := result
          simp [each, bind, Except.bind, pure, Except.pure, eq_comm, and_comm]

theorem evalForms_of_readForms {source : String} {forms : List Value} {heap : Heap}
    (read : machine.heap.readForms source = (.ok forms, heap))
    {outcomes : List (Except Error Value)}
    (ran : Machine.evalEach host { machine with heap } forms = .ok (outcomes, after)) :
    machine.evalForms host source = .ok (.ok outcomes, after) :=
  evalForms_eq_ok_iff.mpr (.inr ⟨forms, heap, outcomes, read, ran, rfl⟩)

theorem exists_evaluatesForms {source : String}
    {outcome : Except Error (List (Except Error Value))}
    (ran : machine.evalForms host source = .ok (outcome, after)) :
    ∃ log, EvaluatesForms host source machine log outcome after := by
  rcases evalForms_eq_ok_iff.mp ran with
    ⟨error, heap, unreadable, rfl, rfl⟩ | ⟨forms, heap, outcomes, read, each, rfl⟩
  · exact ⟨[], .unreadable unreadable⟩
  · obtain ⟨log, evaluates⟩ := exists_evaluatesEach each
    exact ⟨log, .evaluated read evaluates⟩

/-- The list of the outcomes: either there are none, or the list is built after the records of those
that failed. -/
theorem evalSource_eq_ok_iff {source : String} {outcome : Except Error Value} :
    machine.evalSource host source = .ok (outcome, after) ↔
      (∃ error, machine.evalForms host source = .ok (.error error, after) ∧
        outcome = .error error) ∨
      ∃ outcomes middle values reified heap,
        machine.evalForms host source = .ok (.ok outcomes, middle) ∧
        reify middle.heap outcomes = (values, reified) ∧
        reified.listOf values = (outcome, heap) ∧ after = { middle with heap } := by
  unfold evalSource
  cases machine.evalForms host source with
  | error fault => simp [bind, Except.bind]
  | ok result =>
      obtain ⟨forms, middle⟩ := result
      cases forms with
      | error error => simp [bind, Except.bind, pure, Except.pure, eq_comm, and_comm]
      | ok outcomes => simp [bind, Except.bind, pure, Except.pure, Prod.ext_iff, eq_comm]

theorem exists_evaluatesSource {source : String} {outcome : Except Error Value}
    (ran : machine.evalSource host source = .ok (outcome, after)) :
    ∃ log, EvaluatesSource host source machine log outcome after := by
  rcases evalSource_eq_ok_iff.mp ran with
    ⟨error, unread, rfl⟩ | ⟨outcomes, middle, values, reified, heap, forms, added, built, rfl⟩
  · obtain ⟨log, evaluates⟩ := exists_evaluatesForms unread
    exact ⟨log, .unreadable evaluates⟩
  · obtain ⟨log, evaluates⟩ := exists_evaluatesForms forms
    exact ⟨log, .listed evaluates added built⟩

/-! ### The heap grows -/

theorem Evaluates.growsTo {form : Value} {log : List Definition} {outcome : Except Error Value}
    (evaluates : Evaluates host machine form log outcome after) :
    machine.heap.GrowsTo after.heap := by
  cases evaluates with
  | foreign => exact .refl _
  | performed _ performs => exact performs.growsTo

theorem EvaluatesEach.growsTo {forms : List Value} {log : List Definition}
    {outcomes : List (Except Error Value)}
    (evaluates : EvaluatesEach host machine forms log outcomes after) :
    machine.heap.GrowsTo after.heap := by
  induction evaluates with
  | done => exact .refl _
  | failed first => exact first.growsTo
  | more first _ ih => exact first.growsTo.trans ih

theorem EvaluatesForms.growsTo {source : String} {log : List Definition}
    {outcome : Except Error (List (Except Error Value))}
    (evaluates : EvaluatesForms host source machine log outcome after) :
    machine.heap.GrowsTo after.heap := by
  have growth := machine.heap.readForms_growsTo source
  cases evaluates with
  | unreadable unread =>
      rw [unread] at growth
      exact growth
  | evaluated read each =>
      rw [read] at growth
      exact growth.trans each.growsTo

theorem reify_growsTo (heap : Heap) (outcomes : List (Except Error Value)) :
    heap.GrowsTo (reify heap outcomes).2 := by
  induction outcomes generalizing heap with
  | nil => exact .refl heap
  | cons outcome outcomes ih =>
      cases outcome with
      | ok value => exact ih heap
      | error error => exact (heap.addError_growsTo error).trans (ih (heap.addError error).2)

private theorem growsTo_of_reify {heap after : Heap} {outcomes : List (Except Error Value)}
    {values : List Value} (reified : reify heap outcomes = (values, after)) :
    heap.GrowsTo after := by
  have growth := reify_growsTo heap outcomes
  rwa [reified] at growth

theorem EvaluatesSource.growsTo {source : String} {log : List Definition}
    {outcome : Except Error Value}
    (evaluates : EvaluatesSource host source machine log outcome after) :
    machine.heap.GrowsTo after.heap := by
  cases evaluates with
  | unreadable forms => exact forms.growsTo
  | listed forms reified built =>
      exact (forms.growsTo.trans (growsTo_of_reify reified)).trans (Heap.growsTo_of_listOf built)

end Machine

namespace Environment

/-- Lambdas are bound one after the other, each to a record of its own, up to the first for which
there is no room. -/
inductive Seeds : List Lambda → Machine → List Definition → Except Error Unit → Machine → Prop where
  | done {machine} : Seeds [] machine [] (.ok ()) machine
  | unnamed {lambda lambdas machine error heap} :
      machine.heap.intern lambda.name = (.error error, heap) →
      Seeds (lambda :: lambdas) machine [] (.error error) { machine with heap }
  | unrecorded {lambda lambdas machine symbol named error heap} :
      machine.heap.intern lambda.name = (.ok symbol, named) →
      named.addLambda lambda = (.error error, heap) →
      Seeds (lambda :: lambdas) machine [] (.error error) { machine with heap }
  | refused {lambda lambdas machine symbol named value heap error environment} :
      machine.heap.intern lambda.name = (.ok symbol, named) →
      named.addLambda lambda = (.ok value, heap) →
      machine.environment.define heap symbol value = .ok (.error error, environment) →
      Seeds (lambda :: lambdas) machine [⟨symbol, value, .error error⟩] (.error error)
        ⟨heap, environment⟩
  | bound {lambda lambdas machine symbol named value heap answer environment log outcome after} :
      machine.heap.intern lambda.name = (.ok symbol, named) →
      named.addLambda lambda = (.ok value, heap) →
      machine.environment.define heap symbol value = .ok (.ok answer, environment) →
      Seeds lambdas ⟨heap, environment⟩ log outcome after →
      Seeds (lambda :: lambdas) machine (⟨symbol, value, .ok answer⟩ :: log) outcome after

private def bindLambda (lambda : Lambda) : Evaluation Unit := do
  let symbol ← Evaluation.allocate (·.intern lambda.name)
  let value ← Evaluation.allocate (·.addLambda lambda)
  let _ ← Evaluation.define symbol value

private theorem exists_seeds {lambdas : List Lambda} {machine after : Machine}
    {outcome : Except Error Unit}
    (ran : (lambdas.forM bindLambda).runIn machine = .ok (outcome, after)) :
    ∃ log, Seeds lambdas machine log outcome after := by
  induction lambdas generalizing machine with
  | nil =>
      cases ran
      exact ⟨[], .done⟩
  | cons lambda lambdas ih =>
      rw [List.forM_eq_forM, List.forM_cons] at ran
      simp only [bindLambda, bind_assoc] at ran
      rcases runIn_allocate_bind ran with ⟨symbol, named, interned, ran⟩ | ⟨error, heap, full, same⟩
      · rcases runIn_allocate_bind ran with ⟨value, heap, added, ran⟩ | ⟨error, heap, full, same⟩
        · rcases runIn_bind_of_ok ran with ⟨answer, middle, first, ran⟩ | ⟨error, failed, same⟩
          · obtain ⟨environment, defined, rfl⟩ := runIn_define first
            obtain ⟨log, seeds⟩ := ih ran
            exact ⟨_, .bound interned added defined seeds⟩
          · obtain ⟨environment, defined, rfl⟩ := runIn_define failed
            subst same
            exact ⟨_, .refused interned added defined⟩
        · cases same
          exact ⟨[], .unrecorded interned full⟩
      · cases same
        exact ⟨[], .unnamed full⟩

/-- Making an environment binds the keyword of definitions and then seeds the reserved lambdas. -/
inductive Makes (heap : Heap) (settings : Settings) :
    List Definition → Except Error Environment → Heap → Prop where
  | refused {error environment} :
      (empty settings.environmentCapacity).define heap heap.keywords.definition
        (.symbol heap.keywords.definition) = .ok (.error error, environment) →
      Makes heap settings
        [⟨heap.keywords.definition, .symbol heap.keywords.definition, .error error⟩]
        (.error error) heap
  | seeded {answer environment log outcome after} :
      (empty settings.environmentCapacity).define heap heap.keywords.definition
        (.symbol heap.keywords.definition) = .ok (.ok answer, environment) →
      Seeds (Lambda.reserved settings) ⟨heap, environment⟩ log outcome after →
      Makes heap settings
        (⟨heap.keywords.definition, .symbol heap.keywords.definition, .ok answer⟩ :: log)
        (outcome.map fun _ => after.environment) after.heap

theorem exists_makes {heap after : Heap} {settings : Settings}
    {outcome : Except Error Environment}
    (made : Environment.new heap settings = .ok (outcome, after)) :
    ∃ log, Makes heap settings log outcome after := by
  obtain ⟨⟨seeded, final⟩, ran, made⟩ := exists_of_bind_eq_ok made
  cases made
  obtain ⟨keywords, read, ran⟩ := runIn_examine_bind ran
  cases read
  rcases runIn_bind_of_ok ran with ⟨answer, middle, first, ran⟩ | ⟨error, failed, same⟩
  · obtain ⟨environment, defined, rfl⟩ := runIn_define first
    obtain ⟨log, seeds⟩ := exists_seeds ran
    exact ⟨_, .seeded defined seeds⟩
  · obtain ⟨environment, defined, rfl⟩ := runIn_define failed
    subst same
    exact ⟨_, .refused defined⟩

private theorem growsTo_of_intern {heap after : Heap} {name : String}
    {outcome : Except Error Nat} (interned : heap.intern name = (outcome, after)) :
    heap.GrowsTo after := by
  have growth := heap.intern_growsTo name
  rwa [interned] at growth

private theorem growsTo_of_addLambda {heap after : Heap} {lambda : Lambda}
    {outcome : Except Error Value} (added : heap.addLambda lambda = (outcome, after)) :
    heap.GrowsTo after := by
  have growth := heap.addLambda_growsTo lambda
  rwa [added] at growth

theorem Seeds.growsTo {lambdas : List Lambda} {machine after : Machine} {log : List Definition}
    {outcome : Except Error Unit} (seeds : Seeds lambdas machine log outcome after) :
    machine.heap.GrowsTo after.heap := by
  induction seeds with
  | done => exact .refl _
  | unnamed interned => exact growsTo_of_intern interned
  | unrecorded interned added | refused interned added =>
      exact (growsTo_of_intern interned).trans (growsTo_of_addLambda added)
  | bound interned added _ _ ih =>
      exact ((growsTo_of_intern interned).trans (growsTo_of_addLambda added)).trans ih

theorem Makes.growsTo {heap after : Heap} {settings : Settings} {log : List Definition}
    {outcome : Except Error Environment} (makes : Makes heap settings log outcome after) :
    heap.GrowsTo after := by
  cases makes with
  | refused => exact .refl _
  | seeded _ seeds => exact seeds.growsTo

end Environment

end TaggedLisp
