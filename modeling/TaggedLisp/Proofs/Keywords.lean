import TaggedLisp.Proofs.Heap.Spine
import TaggedLisp.Proofs.Persistence
import TaggedLisp.Proofs.WriteOnce

/-! Keywords are sealed. The evaluator recognises definitions and quoted forms by the shape of the
lists that the keywords head, and takes a list of another shape for an ordinary application. That an
application of a keyword comes to nothing is due to the bindings that every environment starts with:
`def` stands for itself, which cannot be called, and `quote` for a lambda of one argument, where a list
with one argument would have been a quoted form. Nothing here assumes that the heap is well-formed. -/

set_option autoImplicit false

namespace TaggedLisp

/-! ## What machines keep -/

/-- The later machine has every entry and every binding of the earlier one. -/
structure Machine.GrowsTo (before after : Machine) : Prop where
  heap : before.heap.GrowsTo after.heap
  bindings : ∀ {symbol : Nat} {value : Value}, before.environment.find? symbol = some value →
    after.environment.find? symbol = some value

namespace Machine

theorem GrowsTo.refl (machine : Machine) : machine.GrowsTo machine :=
  ⟨.refl _, id⟩

theorem GrowsTo.trans {first second third : Machine} (left : first.GrowsTo second)
    (right : second.GrowsTo third) : first.GrowsTo third :=
  ⟨left.heap.trans right.heap, fun found => right.bindings (left.bindings found)⟩

theorem growsTo_of_run {host : Host} {budget : Nat} {task : Task} {machine after : Machine}
    {outcome : Except Error Value}
    (ran : (Task.run host budget task).runIn machine = .ok (outcome, after)) :
    machine.GrowsTo after := by
  obtain ⟨log, performs⟩ := derives_run host budget ran
  exact ⟨performs.growsTo, performs.attempts.find?⟩

theorem growsTo_of_mapM {host : Host} {budget : Nat} {forms : List Value}
    {machine after : Machine} {outcome : Except Error (List Value)}
    (ran : (forms.mapM fun form => Task.run host budget (.eval form)).runIn machine =
      .ok (outcome, after)) : machine.GrowsTo after := by
  induction forms generalizing machine outcome with
  | nil =>
      cases ran
      exact .refl _
  | cons form forms ih =>
      rw [List.mapM_cons] at ran
      rcases Evaluation.runIn_bind_of_ok ran with ⟨value, middle, first, ran⟩ | ⟨_, failed, -⟩
      · rcases Evaluation.runIn_bind_of_ok ran with ⟨values, final, rest, last⟩ | ⟨_, rest, -⟩
        · cases last
          exact (growsTo_of_run first).trans (ih rest)
        · exact (growsTo_of_run first).trans (ih rest)
      · exact growsTo_of_run failed

end Machine

namespace Workspace

variable {before after : Workspace} {index : Nat}

theorem growsTo_keep {workspace : Workspace} {other : Nat} {machine : Machine}
    (growth : (workspace.machine other).GrowsTo machine)
    (inside : index < workspace.environments.length) :
    (workspace.machine index).GrowsTo ((workspace.keep other machine).machine index) ∧
      index < (workspace.keep other machine).environments.length := by
  refine ⟨⟨growth.heap, fun {symbol value} found => ?_⟩, ?_⟩
  · simp only [Workspace.machine, Workspace.keep, List.getD_eq_getElem?_getD, List.getElem?_set]
      at found growth ⊢
    split
    · next same =>
      subst same
      simpa [inside] using growth.bindings found
    · exact found
  · rw [keep, List.length_set]
    exact inside

/-- Whatever is done with a workspace, each of its machines keeps what it has. -/
theorem Step.machine_growsTo (step : Step before after)
    (inside : index < before.environments.length) :
    (before.machine index).GrowsTo (after.machine index) ∧
      index < after.environments.length := by
  cases step with
  | @environment settings outcome heap made =>
      obtain ⟨log, makes⟩ := Environment.exists_makes made
      refine ⟨⟨makes.growsTo, fun found => ?_⟩, by rw [List.length_append]; omega⟩
      simp only [Workspace.machine, List.getD_eq_getElem?_getD] at found ⊢
      rwa [List.getElem?_append_left inside]
  | perform ran =>
      obtain ⟨log, performs⟩ := Machine.exists_performs ran
      exact growsTo_keep ⟨performs.growsTo, performs.attempts.find?⟩ inside
  | eval ran =>
      obtain ⟨log, evaluates⟩ := Machine.exists_evaluates ran
      exact growsTo_keep ⟨evaluates.growsTo, evaluates.attempts.find?⟩ inside
  | evalForms ran =>
      obtain ⟨log, evaluates⟩ := Machine.exists_evaluatesForms ran
      exact growsTo_keep ⟨evaluates.growsTo, evaluates.attempts.find?⟩ inside
  | evalSource ran =>
      obtain ⟨log, evaluates⟩ := Machine.exists_evaluatesSource ran
      exact growsTo_keep ⟨evaluates.growsTo, evaluates.attempts.find?⟩ inside

theorem machine_growsTo_of_steps (steps : Relation.ReflTransGen Step before after)
    (inside : index < before.environments.length) :
    (before.machine index).GrowsTo (after.machine index) ∧
      index < after.environments.length := by
  induction steps with
  | refl => exact ⟨.refl _, inside⟩
  | tail _ step ih =>
      obtain ⟨growth, inside⟩ := step.machine_growsTo ih.2
      exact ⟨ih.1.trans growth, inside⟩

end Workspace

/-! ## Keywords are bound from the start -/

/-- The keywords are bound as in a new environment: `def` to itself, and `quote` to the lambda that
was recorded for it. -/
structure Machine.Seals (machine : Machine) (record : Nat) : Prop where
  named : machine.heap.KeywordsNamed
  definition : machine.environment.find? machine.heap.keywords.definition =
    some (.symbol machine.heap.keywords.definition)
  quote : machine.environment.find? machine.heap.keywords.quote = some (.lambda record)
  lambda : machine.heap.lambdas[record]? = some Lambda.quote

theorem Machine.Seals.grow {before after : Machine} {record : Nat} (growth : before.GrowsTo after)
    (seals : before.Seals record) : after.Seals record where
  named := seals.named.grow growth.heap
  definition := growth.heap.keywords ▸ growth.bindings seals.definition
  quote := growth.heap.keywords ▸ growth.bindings seals.quote
  lambda := growth.heap.lambdas seals.lambda

theorem Heap.KeywordsNamed.definition_ne_quote {heap : Heap} (named : heap.KeywordsNamed) :
    heap.keywords.definition ≠ heap.keywords.quote := by
  intro same
  have sameName := named.definition.symm.trans (same ▸ named.quote)
  exact absurd (Option.some.inj sameName) (by decide)

theorem Environment.bind_of_define {environment after : Environment} {heap : Heap} {symbol : Nat}
    {value answer : Value}
    (defined : environment.define heap symbol value = .ok (.ok answer, after)) :
    answer = .symbol symbol ∧ environment.find? symbol = none ∧
      after = environment.bind symbol value := by
  obtain ⟨name, defines⟩ := defines_of_define defined
  cases defines with
  | added free => exact ⟨rfl, free, rfl⟩

theorem Environment.define_of_find? {environment : Environment} {heap : Heap} {symbol : Nat}
    {name : String} {value bound : Value} (found : environment.find? symbol = some bound)
    (named : heap.symbols.name? symbol = some name) :
    environment.define heap symbol value = .ok (.error (.redefinition name), environment) := by
  obtain ⟨result, defined, defines⟩ := environment.define_defines named value
  cases defines with
  | bound => exact defined
  | full free | added free => cases found.symm.trans free

theorem Environment.Seeds.seals {others : List Lambda} {heap : Heap} {environment : Environment}
    {log : List Definition} {after : Machine}
    (seeds : Seeds (Lambda.quote :: others) ⟨heap, environment⟩ log (.ok ()) after)
    (named : heap.KeywordsNamed)
    (definition : environment.find? heap.keywords.definition =
      some (.symbol heap.keywords.definition)) : after.Seals heap.lambdas.size := by
  cases seeds with
  | @bound _ _ _ symbol symbols _ recorded _ _ _ _ _ interned added bound seeds =>
      have growth : heap.GrowsTo recorded := by
        have first := heap.intern_growsTo Lambda.quote.name
        have second := symbols.addLambda_growsTo Lambda.quote
        rw [interned] at first
        rw [added] at second
        exact first.trans second
      obtain ⟨isNamed, sameLambdas⟩ := Heap.named_of_intern interned
      obtain ⟨rfl, lambdas⟩ := Heap.recorded_of_addLambda added
      have nameKept := (symbols.addLambda_growsTo Lambda.quote).symbols.names isNamed
      rw [added] at nameKept
      -- The name was interned with the heap, so no new symbol comes of it.
      obtain rfl : symbol = heap.keywords.quote :=
        SymbolTable.eq_of_name?_eq nameKept (growth.symbols.names named.quote)
      obtain ⟨-, -, rfl⟩ := bind_of_define bound
      have keywords := growth.keywords
      refine Machine.Seals.grow ⟨seeds.growsTo, seeds.attempts.find?⟩
        ⟨named.grow growth, ?_, ?_, ?_⟩
      · simp only [keywords, find?_bind, named.definition_ne_quote.symm, definition, ↓reduceIte]
      · simp only [keywords, find?_bind, sameLambdas, ↓reduceIte]
      · simp only [lambdas, sameLambdas, Array.getElem?_push_size]

theorem Environment.seals_of_new {heap seeded : Heap} {settings : Settings}
    {environment : Environment} (named : heap.KeywordsNamed)
    (made : Environment.new heap settings = .ok (.ok environment, seeded)) :
    Machine.Seals ⟨seeded, environment⟩ heap.lambdas.size := by
  have reserved : ∃ others, Lambda.reserved settings = Lambda.quote :: others := by
    unfold Lambda.reserved
    split <;> exact ⟨_, rfl⟩
  obtain ⟨others, reserved⟩ := reserved
  obtain ⟨log, makes⟩ := exists_makes made
  generalize same : (.ok environment : Except Error Environment) = outcome at makes
  cases makes with
  | refused => cases same
  | @seeded _ _ _ outcome after defined seeds =>
      cases outcome with
      | error => cases same
      | ok =>
          cases same
          obtain ⟨-, -, rfl⟩ := bind_of_define defined
          rw [reserved] at seeds
          exact seeds.seals named (by simp [find?_bind])

/-! ## What becomes of lists that keywords head -/

theorem Performs.count_of_apply {host : Host} {record : Nat} {arguments value : Value}
    {machine after : Machine} {log : List Definition} {contents : Lambda}
    (performs : Performs host (.task (.apply record arguments)) machine log (.ok value) after)
    (recorded : machine.heap.lambdas[record]? = some contents) :
    machine.heap.count arguments = .ok (.ok contents.arity) := by
  generalize succeeded : Except.ok value = outcome at performs
  cases performs with
  | notAList | arityMismatch => cases succeeded
  | builtin found counted | routine found counted =>
      cases recorded.symm.trans (Heap.some_of_lambda found)
      exact counted

/-- An application that succeeds has called the lambda that its head is bound to, with one argument for
each form. -/
theorem Performs.exists_call {host : Host} {head : Nat} {evaluated forms : List Value}
    {machine after : Machine} {log : List Definition} {value bound : Value}
    (performs : Performs host (.arguments head evaluated forms) machine log (.ok value) after)
    (found : machine.environment.find? head = some bound) :
    ∃ record, bound = .lambda record ∧
      ∀ contents : Lambda, machine.heap.lambdas[record]? = some contents →
        contents.arity = evaluated.length + forms.length := by
  generalize activity : Activity.arguments head evaluated forms = activity at performs
  generalize succeeded : Except.ok value = outcome at performs
  induction performs generalizing evaluated forms with
  | argument first _ _ ih =>
      cases activity
      obtain ⟨record, called, arity⟩ := ih (first.attempts.find? found) rfl succeeded
      refine ⟨record, called, fun contents recorded => ?_⟩
      rw [arity contents (first.growsTo.lambdas recorded), List.length_cons, List.length_cons]
      omega
  | call built looked applied =>
      cases activity
      cases succeeded
      rw [Environment.lookup_of_find? found] at looked
      cases looked
      refine ⟨_, rfl, fun contents recorded => ?_⟩
      have counted := applied.count_of_apply ((Heap.growsTo_of_listOf built).lambdas recorded)
      obtain ⟨elements, listed, length⟩ := Heap.count_eq_ok_iff.mp counted
      have same := (Heap.toList_eq_ok_iff.mp listed).2.unique (Heap.spine_of_listOf built).2
      rw [← length, same, List.length_reverse]
      rfl
  | argumentFailed | noRoom | unbound | notCallable => cases succeeded
  | _ => cases activity

namespace Machine

section Headed

open Evaluation

variable {host : Host} {budget record cell : Nat} {machine after : Machine} {tail value : Value}

/-- With any nesting, a list that `quote` heads has a value only if it has one argument, and then
that is its value. -/
theorem Seals.quote_iff (seals : machine.Seals record)
    (found : machine.heap.cells[cell]? = some ⟨.symbol machine.heap.keywords.quote, tail⟩) :
    (Task.run host (budget + 1) (.eval (.list cell))).runIn machine = .ok (.ok value, after) ↔
      machine.heap.toList tail = .ok (.ok [value]) ∧ after = machine := by
  constructor
  · intro ran
    obtain ⟨log, performs⟩ := derives_run host _ ran
    generalize succeeded : Except.ok value = outcome at performs
    cases performs with
    | quoted isQuoted unquoted =>
        cases succeeded
        exact ⟨((Heap.unquote_eq_ok_iff.mp unquoted).of_cell found).2.toList, rfl⟩
    | definition _ read =>
        have keyword := ((Heap.definition?_eq_some_iff.mp read).of_cell found).1
        exact absurd (Value.symbol.inj keyword) seals.named.definition_ne_quote
    | application isQuoted _ headed listed performs =>
        cases succeeded
        rw [Heap.cell_of_some found] at headed
        cases headed
        obtain ⟨_, same, arity⟩ := performs.exists_call seals.quote
        cases same
        -- The lambda takes one argument, but then the list would have been quoted.
        have one := (arity _ seals.lambda).symm
        rw [List.length_nil, Nat.zero_add] at one
        obtain ⟨inner, rfl⟩ := List.length_eq_one_iff.mp one
        have spine := Heap.Spine.link found (Heap.toList_eq_ok_iff.mp listed).2
        cases isQuoted.symm.trans (Heap.isQuoted_iff_spine.mpr ⟨inner, spine⟩)
    | bodyFailed | headless | improper | meaningless => cases succeeded
  · rintro ⟨listed, rfl⟩
    have spine := Heap.Spine.link found (Heap.toList_eq_ok_iff.mp listed).2
    exact Task.run_of_isQuoted (Heap.isQuoted_iff_spine.mpr ⟨value, spine⟩)
      (Heap.unquote_of_spine spine)

theorem Seals.isQuoted_of_definition (seals : machine.Seals record)
    (found : machine.heap.cells[cell]? = some ⟨.symbol machine.heap.keywords.definition, tail⟩) :
    machine.heap.isQuoted (.list cell) = .ok false := by
  rw [Heap.isQuoted_of_cell found, if_neg]
  exact fun same => seals.named.definition_ne_quote (Value.symbol.inj same)

/-- With any nesting, a list that `def` heads has a value only if its arguments are a symbol and a
body, the body has a value, and the symbol is not bound by then. It is bound to that value afterwards. -/
theorem Seals.definition_of_ok (seals : machine.Seals record)
    (found : machine.heap.cells[cell]? = some ⟨.symbol machine.heap.keywords.definition, tail⟩)
    (ran : (Task.run host (budget + 1) (.eval (.list cell))).runIn machine =
      .ok (.ok value, after)) :
    ∃ symbol body bound middle, machine.heap.toList tail = .ok (.ok [.symbol symbol, body]) ∧
      (Task.run host budget (.eval body)).runIn machine = .ok (.ok bound, middle) ∧
      middle.environment.find? symbol = none ∧ value = .symbol symbol ∧
      after = { middle with environment := middle.environment.bind symbol bound } := by
  obtain ⟨log, performs⟩ := derives_run host _ ran
  obtain ⟨isQuoted, quoted, ran⟩ := runIn_examine_bind ran
  rw [seals.isQuoted_of_definition found] at quoted
  cases quoted
  obtain ⟨definition, read, ran⟩ := runIn_examine_bind ran
  cases definition with
  | some parts =>
      obtain ⟨symbol, body⟩ := parts
      have listed := ((Heap.definition?_eq_some_iff.mp read).of_cell found).2.toList
      rcases runIn_bind_of_ok ran with ⟨bound, middle, first, ran⟩ | ⟨error, -, failed⟩
      · obtain ⟨environment, defined, rfl⟩ := runIn_define ran
        obtain ⟨rfl, free, rfl⟩ := Environment.bind_of_define defined
        exact ⟨symbol, body, bound, middle, listed, first, free, rfl, rfl⟩
      · cases failed
  | none =>
      -- The rest of the list would have to be applied to, but `def` is not bound to a lambda.
      generalize succeeded : Except.ok value = outcome at performs
      cases performs with
      | quoted isQuoted =>
          rw [seals.isQuoted_of_definition found] at isQuoted
          cases isQuoted
      | definition _ otherRead => cases read.symm.trans otherRead
      | application _ _ headed _ performs =>
          cases succeeded
          rw [Heap.cell_of_some found] at headed
          cases headed
          obtain ⟨_, same, -⟩ := performs.exists_call seals.definition
          cases same
      | bodyFailed | headless | improper | meaningless => cases succeeded

/-- With any nesting, a list that `def` heads and that is no definition fails once its arguments have
been evaluated. -/
theorem Seals.notCallable (seals : machine.Seals record)
    (found : machine.heap.cells[cell]? = some ⟨.symbol machine.heap.keywords.definition, tail⟩)
    {forms values : List Value} {middle : Machine}
    (listed : machine.heap.toList tail = .ok (.ok forms))
    (misshapen : ∀ symbol body, forms ≠ [.symbol symbol, body])
    (evaluated : (forms.mapM fun form => Task.run host budget (.eval form)).runIn machine =
      .ok (.ok values, middle)) :
    ∃ error final, (Task.run host (budget + 1) (.eval (.list cell))).runIn machine =
        .ok (.error error, final) ∧
      (error = .notCallable "def" ∨
        error = .outOfMemory ∧ middle.heap.maxCells < middle.heap.cells.size + values.length) := by
  have spine := Heap.Spine.link found (Heap.toList_eq_ok_iff.mp listed).2
  obtain ⟨definition, read⟩ := spine.exists_definition?
  have none : definition = none := by
    cases definition with
    | none => rfl
    | some parts =>
        obtain ⟨symbol, body⟩ := parts
        have same := spine.unique (Heap.definition?_eq_some_iff.mp read)
        exact absurd (List.cons.inj same).2 (misshapen symbol body)
  subst none
  have evaluation := growsTo_of_mapM evaluated
  have lists := middle.heap.listOf_lists values
  have meets : (Task.run host (budget + 1) (.eval (.list cell))).Meets (fun _ => False) machine
      fun outcome _ => ∃ error, outcome = .error error ∧
        (error = .notCallable "def" ∨
          error = .outOfMemory ∧ middle.heap.maxCells < middle.heap.cells.size + values.length) := by
    refine meets_examine_bind (seals.isQuoted_of_definition found) ?_
    refine meets_examine_bind read ?_
    refine meets_examine_bind (Heap.cell_of_some found) ?_
    refine meets_consult_bind listed ?_
    have arguments : (forms.mapM fun form => Task.run host budget (.eval form)).Meets
        (fun _ => False) machine fun outcome after => outcome = .ok values ∧ middle = after :=
      meets_of_runIn evaluated ⟨rfl, rfl⟩
    refine arguments.bind ?_ fun _ _ ended => by cases ended.1
    rintro _ _ ⟨same, rfl⟩
    cases same
    have growth := middle.heap.listOf_growsTo values
    have allocated : (Evaluation.allocate (·.listOf values)).Meets (fun _ => False) middle
        fun outcome after => (outcome, after.heap) = middle.heap.listOf values ∧
          after.environment = middle.environment := meets_allocate ⟨rfl, rfl⟩
    refine allocated.bind ?_ ?_
    · rintro list ⟨heap, environment⟩ ⟨built, rfl⟩
      rw [← built] at growth
      have definition := evaluation.bindings seals.definition
      have named := (evaluation.heap.trans growth).symbols.names seals.named.definition
      refine meets_consult_bind (Environment.lookup_of_find? definition heap) ?_
      exact meets_examine_bind (Heap.name_of_some named) ⟨_, rfl, .inl rfl⟩
    · rintro error ⟨heap, environment⟩ ⟨full, rfl⟩
      rw [← full] at lists
      cases lists with
      | full noRoom => exact ⟨_, rfl, .inr ⟨rfl, noRoom⟩⟩
  obtain ⟨outcome, final, ran, error, rfl, reason⟩ := meets.exists_runIn
  exact ⟨error, final, ran, reason⟩

end Headed

end Machine

namespace Environment

/-- In every environment, however it was made and whatever was done since, with any operands and any
routines of the host, keywords are bound as they were at the start and cannot be bound again. Lists
that they head have values only in the shapes of quoted forms and definitions. -/
theorem keywords_sealed {limits settings : Settings} {heap seeded : Heap}
    {before after : Workspace} {environment : Environment}
    (created : Heap.new limits = .ok heap)
    (earlier : Relation.ReflTransGen Workspace.Step ⟨heap, []⟩ before)
    (made : Environment.new before.heap settings = .ok (.ok environment, seeded))
    (later : Relation.ReflTransGen Workspace.Step
      ⟨seeded, before.environments ++ [environment]⟩ after) :
    let machine := after.machine before.environments.length
    let keywords := machine.heap.keywords
    before.environments.length < after.environments.length ∧
      machine.Seals before.heap.lambdas.size ∧
      (∀ value, machine.environment.define machine.heap keywords.definition value =
        .ok (.error (.redefinition "def"), machine.environment)) ∧
      (∀ value, machine.environment.define machine.heap keywords.quote value =
        .ok (.error (.redefinition "quote"), machine.environment)) ∧
      ∀ (host : Host) (budget cell : Nat) (tail : Value),
        let run := (Task.run host (budget + 1) (.eval (.list cell))).runIn machine
        (machine.heap.cells[cell]? = some ⟨.symbol keywords.quote, tail⟩ →
          ∀ value final, run = .ok (.ok value, final) ↔
            machine.heap.toList tail = .ok (.ok [value]) ∧ final = machine) ∧
        (machine.heap.cells[cell]? = some ⟨.symbol keywords.definition, tail⟩ →
          (∀ value final, run = .ok (.ok value, final) →
            ∃ symbol body bound middle,
              machine.heap.toList tail = .ok (.ok [.symbol symbol, body]) ∧
              (Task.run host budget (.eval body)).runIn machine = .ok (.ok bound, middle) ∧
              middle.environment.find? symbol = none ∧
              final.environment.find? symbol = some bound ∧ value = .symbol symbol) ∧
          ∀ forms values middle, machine.heap.toList tail = .ok (.ok forms) →
            (∀ symbol body, forms ≠ [.symbol symbol, body]) →
            (forms.mapM fun form => Task.run host budget (.eval form)).runIn machine =
              .ok (.ok values, middle) →
            ∃ error final, run = .ok (.error error, final) ∧
              (error = .notCallable "def" ∨ error = .outOfMemory ∧
                middle.heap.maxCells < middle.heap.cells.size + values.length)) := by
  intro machine keywords
  have named : before.heap.KeywordsNamed :=
    (Heap.wellFormed_new created).keywords.grow (Workspace.growsTo_of_steps earlier)
  have inside : before.environments.length < (before.environments ++ [environment]).length := by
    simp
  obtain ⟨growth, stillInside⟩ := Workspace.machine_growsTo_of_steps later inside
  have start : Workspace.machine ⟨seeded, before.environments ++ [environment]⟩
      before.environments.length = ⟨seeded, environment⟩ := by
    simp [Workspace.machine]
  rw [start] at growth
  have seals : machine.Seals before.heap.lambdas.size := (seals_of_new named made).grow growth
  refine ⟨stillInside, seals, fun value => define_of_find? seals.definition seals.named.definition,
    fun value => define_of_find? seals.quote seals.named.quote, fun host budget cell tail => ?_⟩
  refine ⟨fun found value final => seals.quote_iff found, fun found => ⟨?_, ?_⟩⟩
  · intro value final ran
    obtain ⟨symbol, body, bound, middle, listed, evaluated, free, rfl, rfl⟩ :=
      seals.definition_of_ok found ran
    exact ⟨symbol, body, bound, middle, listed, evaluated, free, by simp [find?_bind], rfl⟩
  · intro forms values middle listed misshapen evaluated
    exact seals.notCallable found listed misshapen evaluated

/-- A quoted empty list, built in a fresh environment with builtins, has a value with any host. -/
theorem keywords_sealed_for_quoted_list :
    ∃ heap environment seeded after cell, Heap.new {} = .ok heap ∧
      Environment.new heap {} = .ok (.ok environment, seeded) ∧
      Workspace.Step ⟨seeded, [environment]⟩ after ∧ (after.machine 0).Seals heap.lambdas.size ∧
      ∀ host budget, (Task.run host (budget + 1) (.eval (.list cell))).runIn (after.machine 0) =
        .ok (.ok .emptyList, after.machine 0) := by
  obtain ⟨heap, environment, seeded, created, made, -, cells, maxCells⟩ :=
    exists_new_with_builtins
  let inner : Cell := ⟨.emptyList, .emptyList⟩
  let outer : Cell := ⟨.symbol seeded.keywords.quote, .list 0⟩
  let after : Heap := { seeded with cells := (seeded.cells.push inner).push outer }
  have quoted : seeded.quote .emptyList = (.ok (.list 1), after) := by
    simp [Heap.quote, Heap.listOf, Heap.cons, Value.isList, cells, maxCells, after, inner, outer]
  have ran : (Workspace.machine ⟨seeded, [environment]⟩ 0).perform Host.none (.quote .emptyList) =
      .ok (.ok (.list 1), ⟨after, environment⟩) := by
    change Except.ok ((seeded.quote .emptyList).1,
      Machine.mk (seeded.quote .emptyList).2 environment) = _
    rw [quoted]
  have step : Workspace.Step ⟨seeded, [environment]⟩ ⟨after, [environment]⟩ := .perform ran
  obtain ⟨-, seals, -, -, evaluates⟩ := keywords_sealed created .refl made (.single step)
  refine ⟨heap, environment, seeded, _, 1, created, made, step, seals, fun host budget => ?_⟩
  have found : after.cells[1]? = some outer := by
    rw [Array.getElem?_push, if_pos (by simp [cells])]
  have innerFound : after.cells[0]? = some inner := by
    rw [Array.getElem?_push, if_neg (by simp [cells]), Array.getElem?_push, if_pos cells.symm]
  exact ((evaluates host budget 1 _).1 found _ _).mpr
    ⟨Heap.toList_eq_ok_iff.mpr ⟨rfl, .link innerFound (.stop rfl)⟩, rfl⟩

end Environment

end TaggedLisp
