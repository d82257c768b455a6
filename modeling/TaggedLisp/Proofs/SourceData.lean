import TaggedLisp.Proofs.Evaluation.Language
import TaggedLisp.Proofs.Reader.Sourced

/-! What sources come to is source data again, or one of the lambdas that the machine was made with.
Argument lists do hold lambdas, and they are in cells that no reader allocated. But the routines of
the language answer an element of their argument list or a part of such an element, never the list
itself, so no form gets hold of one. -/

set_option autoImplicit false

namespace TaggedLisp

/-! ## Values that forms can come to -/

/-- A lambda on record, or a value from a source. -/
inductive Heap.Available (heap : Heap) (parsed : Set Nat) : Value → Prop where
  | lambda {record : Nat} {contents : Lambda} :
      heap.lambdas[record]? = some contents → Available heap parsed (.lambda record)
  | sourced {value : Value} : heap.Sourced parsed value → Available heap parsed value

namespace Heap

variable {heap after : Heap} {parsed other : Set Nat} {value : Value}

theorem Available.grow (growth : heap.GrowsTo after) (available : heap.Available parsed value) :
    after.Available parsed value := by
  cases available with
  | lambda found => exact .lambda (growth.lambdas found)
  | sourced sourced => exact .sourced (sourced.grow growth)

theorem Available.mono (subset : parsed ⊆ other) (available : heap.Available parsed value) :
    heap.Available other value := by
  cases available with
  | lambda found => exact .lambda found
  | sourced sourced => exact .sourced (sourced.mono fun _ member _ => subset member)

theorem Available.exists_unfolds (available : heap.Available parsed value) :
    ∃ tree, heap.Unfolds value tree := by
  cases available with
  | lambda found => exact ⟨_, .lambda found⟩
  | sourced sourced =>
      obtain ⟨tree, unfolds, -⟩ := sourced.exists_unfolds
      exact ⟨tree, unfolds⟩

/-- A lambda has no parts, so what is taken from an available value is sourced. -/
theorem Available.head (available : heap.Available parsed value) {element : Value}
    (read : heap.head value = .ok (.ok element)) : heap.Sourced parsed element := by
  cases available with
  | lambda => cases read
  | sourced sourced => exact sourced.head read

theorem Available.tail (available : heap.Available parsed value) {rest : Value}
    (read : heap.tail value = .ok (.ok rest)) : heap.Sourced parsed rest := by
  cases available with
  | lambda => cases read
  | sourced sourced => exact sourced.tail read

theorem mem_of_head_listOf {values : List Value} {list element : Value}
    (built : heap.listOf values = (.ok list, after))
    (read : after.head list = .ok (.ok element)) : element ∈ values := by
  cases values with
  | nil =>
      cases built
      cases read
  | cons first others =>
      rw [listOf_cons] at built
      split at built
      · next tail middle _ =>
        have consed := middle.cons_conses first tail
        rw [built] at consed
        cases consed with
        | added =>
            rw [Heap.head, cell_of_some (Array.getElem?_push_size ..)] at read
            cases read
            exact List.mem_cons_self
      · cases built

end Heap

/-- All names that are bound can be written in a source, and all values are available. -/
def Machine.Holds (machine : Machine) (parsed : Set Nat) : Prop :=
  ∀ symbol value, machine.environment.find? symbol = some value →
    machine.heap.Sourced parsed (.symbol symbol) ∧ machine.heap.Available parsed value

namespace Machine

variable {machine : Machine} {parsed other : Set Nat}

theorem Holds.grow (holds : machine.Holds parsed) {heap : Heap}
    (growth : machine.heap.GrowsTo heap) : Holds { machine with heap } parsed := by
  intro symbol value found
  obtain ⟨named, available⟩ := holds symbol value found
  exact ⟨named.grow growth, available.grow growth⟩

theorem Holds.mono (subset : parsed ⊆ other) (holds : machine.Holds parsed) :
    machine.Holds other := by
  intro symbol value found
  obtain ⟨named, available⟩ := holds symbol value found
  exact ⟨named.mono fun _ member _ => subset member, available.mono subset⟩

theorem Holds.lookup (holds : machine.Holds parsed) {heap : Heap} {symbol : Nat} {value : Value}
    (found : machine.environment.lookup heap symbol = .ok (.ok value)) :
    machine.heap.Available parsed value := by
  rcases Environment.lookup_cases found with ⟨value, bound, same⟩ | ⟨name, -, -, same⟩
  · cases same
    exact (holds _ _ bound).2
  · cases same

theorem Holds.define (holds : machine.Holds parsed) {symbol : Nat} {value : Value}
    (named : machine.heap.Sourced parsed (.symbol symbol))
    (available : machine.heap.Available parsed value) {outcome : Except Error Value}
    {environment : Environment}
    (defined : machine.environment.define machine.heap symbol value = .ok (outcome, environment)) :
    Holds { machine with environment } parsed ∧
      ∀ answer, outcome = .ok answer → answer = .symbol symbol := by
  obtain ⟨name, defines⟩ := Environment.defines_of_define defined
  cases defines with
  | bound | full => exact ⟨holds, fun _ failed => by cases failed⟩
  | added =>
      refine ⟨fun other bound found => ?_, fun _ same => by cases same; rfl⟩
      rw [Environment.find?_bind] at found
      split at found
      · next same =>
        cases found
        exact ⟨same ▸ named, available⟩
      · exact holds other bound found

end Machine

/-! ## Evaluation -/

/-- What an activity has to be given. All that matters of an argument list is its first element:
whatever else is in it is out of reach for the routines. -/
def Activity.Admits (heap : Heap) (parsed : Set Nat) : Activity → Prop
  | .task (.eval form) => heap.Sourced parsed form
  | .task (.apply _ list) => ∀ first, heap.head list = .ok (.ok first) →
      heap.Available parsed first
  | .arguments _ evaluated forms => (∀ value ∈ evaluated, heap.Available parsed value) ∧
      ∀ form ∈ forms, heap.Sourced parsed form
  | .operation _ | .script _ => False

theorem Routine.available_of_run {routine : Routine} (builtin : ∀ id, routine ≠ .host id)
    {host : Host} {recur : Task → Evaluation Value} {machine after : Machine} {parsed : Set Nat}
    {arguments value : Value}
    (first : ∀ first, machine.heap.head arguments = .ok (.ok first) →
      machine.heap.Available parsed first)
    (ran : (routine.run host recur arguments).runIn machine = .ok (.ok value, after)) :
    machine.heap.Available parsed value := by
  obtain ⟨-, read⟩ := Routine.run_cases builtin ran
  rcases read with read | ⟨list, firstRead, read | read⟩
  · exact first value read
  · exact .sourced ((first list firstRead).head read)
  · exact .sourced ((first list firstRead).tail read)

theorem Performs.available {host : Host} {activity : Activity} {machine after : Machine}
    {log : List Definition} {outcome : Except Error Value}
    (performs : Performs host activity machine log outcome after)
    (hostFree : machine.heap.HostFree) {parsed : Set Nat}
    (admits : activity.Admits machine.heap parsed) (holds : machine.Holds parsed) :
    after.Holds parsed ∧ ∀ value, outcome = .ok value → after.heap.Available parsed value := by
  induction performs with
  | emptyList =>
      refine ⟨holds, fun value same => ?_⟩
      cases same
      exact .sourced .emptyList
  | symbol found =>
      refine ⟨holds, fun value same => ?_⟩
      subst same
      exact holds.lookup found
  | meaningless | headless | improper | notAList | arityMismatch =>
      exact ⟨holds, fun value failed => by cases failed⟩
  | quoted _ unquoted =>
      refine ⟨holds, fun value same => ?_⟩
      subst same
      exact .sourced (Heap.Sourced.unquote admits unquoted)
  | bodyFailed _ read _ ih => exact ih hostFree (Heap.Sourced.definition? admits read).2 holds
  | @definition _ _ symbol _ _ value after _ _ _ read body defined ih =>
      obtain ⟨named, sourced⟩ := Heap.Sourced.definition? admits read
      obtain ⟨holds, available⟩ := ih hostFree sourced holds
      have named := named.grow body.growsTo
      obtain ⟨holds, answers⟩ := holds.define named (available value rfl) defined
      refine ⟨holds, fun answer same => ?_⟩
      rw [answers answer same]
      exact .sourced named
  | application _ _ found listed _ ih =>
      exact ih hostFree ⟨by simp, Heap.Sourced.arguments admits found listed⟩ holds
  | argumentFailed _ ih => exact ih hostFree (List.forall_mem_cons.mp admits.2).1 holds
  | argument first _ firstIH othersIH =>
      obtain ⟨form, forms⟩ := List.forall_mem_cons.mp admits.2
      obtain ⟨holds, available⟩ := firstIH hostFree form holds
      have growth := first.growsTo
      refine othersIH (hostFree.of_addsCells (first.addsCells rfl hostFree)) ⟨?_, ?_⟩ holds
      · refine List.forall_mem_cons.mpr ⟨available _ rfl, ?_⟩
        intro value member
        exact (admits.1 value member).grow growth
      · intro form member
        exact (forms form member).grow growth
  | noRoom built | unbound built | notCallable built =>
      exact ⟨holds.grow (Heap.growsTo_of_listOf built), fun value failed => by cases failed⟩
  | call built _ _ ih =>
      have growth := Heap.growsTo_of_listOf built
      refine ih (hostFree.of_addsCells (Heap.addsCells_of_listOf built)) ?_ (holds.grow growth)
      intro first read
      have member := Heap.mem_of_head_listOf built read
      exact (admits.1 first (List.mem_reverse.mp member)).grow growth
  | builtin _ _ builtin ran =>
      refine ⟨holds, fun value same => ?_⟩
      subst same
      exact Routine.available_of_run builtin admits ran
  | routine found _ provided =>
      exact absurd provided (hostFree.of_lambda found _)
  | direct | define | eval | apply | done | perform | examine => exact admits.elim

namespace Machine

variable {host : Host} {machine after : Machine} {parsed : Set Nat}

theorem Evaluates.available {form : Value} {log : List Definition} {outcome : Except Error Value}
    (evaluates : Evaluates host machine form log outcome after) (hostFree : machine.heap.HostFree)
    (sourced : machine.heap.Sourced parsed form) (holds : machine.Holds parsed) :
    after.Holds parsed ∧ ∀ value, outcome = .ok value → after.heap.Available parsed value := by
  cases evaluates with
  | foreign => exact ⟨holds, fun value failed => by cases failed⟩
  | performed _ performs => exact performs.available hostFree sourced holds

theorem EvaluatesEach.available {forms : List Value} {log : List Definition}
    {outcomes : List (Except Error Value)}
    (evaluates : EvaluatesEach host machine forms log outcomes after)
    (hostFree : machine.heap.HostFree) (sourced : ∀ form ∈ forms, machine.heap.Sourced parsed form)
    (holds : machine.Holds parsed) :
    after.Holds parsed ∧ ∀ value, .ok value ∈ outcomes → after.heap.Available parsed value := by
  induction evaluates with
  | done => exact ⟨holds, by simp⟩
  | failed first =>
      obtain ⟨holds, -⟩ := first.available hostFree (List.forall_mem_cons.mp sourced).1 holds
      exact ⟨holds, by simp⟩
  | more first others ih =>
      obtain ⟨form, forms⟩ := List.forall_mem_cons.mp sourced
      obtain ⟨holds, available⟩ := first.available hostFree form holds
      have free := hostFree.of_addsCells (first.addsCells hostFree)
      have formsLater := fun form member => (forms form member).grow first.growsTo
      obtain ⟨holds, later⟩ := ih free formsLater holds
      refine ⟨holds, fun value member => ?_⟩
      rcases List.mem_cons.mp member with same | member
      · cases same
        exact (available _ rfl).grow others.growsTo
      · exact later value member

end Machine

/-! ## Fresh machines -/

namespace Environment

theorem Seeds.holds {lambdas : List Lambda} {machine after : Machine} {log : List Definition}
    {outcome : Except Error Unit} (seeds : Seeds lambdas machine log outcome after)
    (readable : ∀ lambda ∈ lambdas, Token.isSymbolText lambda.name.toList = true)
    {parsed : Set Nat} (holds : machine.Holds parsed) (succeeded : outcome = .ok ()) :
    after.Holds parsed ∧ after.heap.lambdas = machine.heap.lambdas ++ lambdas.toArray := by
  induction seeds with
  | done => exact ⟨holds, by simp⟩
  | unnamed | unrecorded | refused => cases succeeded
  | @bound lambda _ machine symbol named _ heap _ _ _ _ _ interned added defined _ ih =>
      obtain ⟨first, others⟩ := List.forall_mem_cons.mp readable
      have namedGrowth := machine.heap.intern_growsTo lambda.name
      have growth := named.addLambda_growsTo lambda
      rw [interned] at namedGrowth
      rw [added] at growth
      obtain ⟨isNamed, sameLambdas⟩ := Heap.named_of_intern interned
      obtain ⟨rfl, recorded⟩ := Heap.recorded_of_addLambda added
      have available : heap.Available parsed (.lambda named.lambdas.size) :=
        .lambda (recorded ▸ Array.getElem?_push_size ..)
      have sourced : heap.Sourced parsed (.symbol symbol) :=
        .symbol (growth.symbols.names isNamed) first
      have grown := holds.grow (namedGrowth.trans growth)
      obtain ⟨holds, lambdas⟩ := ih others (grown.define sourced available defined).1 succeeded
      refine ⟨holds, ?_⟩
      rw [lambdas, recorded, sameLambdas]
      simp

theorem Makes.holds {heap after : Heap} {settings : Settings} {log : List Definition}
    {outcome : Except Error Environment} (makes : Makes heap settings log outcome after)
    (keywords : heap.KeywordsNamed) {environment : Environment}
    (succeeded : outcome = .ok environment) :
    Machine.Holds ⟨after, environment⟩ ∅ ∧
      after.lambdas = heap.lambdas ++ (Lambda.reserved settings).toArray := by
  cases makes with
  | refused => cases succeeded
  | @seeded _ _ _ outcome _ defined seeds =>
      cases outcome with
      | error => cases succeeded
      | ok =>
          cases succeeded
          have start : Machine.Holds ⟨heap, .empty settings.environmentCapacity⟩ ∅ := by
            intro symbol value found
            simp at found
          have keyword : heap.Sourced ∅ (.symbol heap.keywords.definition) :=
            .symbol keywords.definition (by decide)
          have readable : ∀ lambda ∈ Lambda.reserved settings,
              Token.isSymbolText lambda.name.toList = true := by
            unfold Lambda.reserved
            split <;> decide
          exact seeds.holds readable (start.define keyword (.sourced keyword) defined).1 rfl

end Environment

/-! ## Runs of sources -/

/-- The values among the outcomes of a source. -/
def Machine.results (outcome : Except Error (List (Except Error Value))) : List Value :=
  (outcome.toOption.getD []).filterMap Except.toOption

theorem Machine.mem_results_iff {outcomes : List (Except Error Value)} {value : Value} :
    value ∈ results (.ok outcomes) ↔ .ok value ∈ outcomes := by
  simp only [results, Except.toOption, Option.getD_some, List.mem_filterMap]
  constructor
  · intro member
    obtain ⟨outcome, member, same⟩ := member
    cases outcome with
    | error => cases same
    | ok =>
        cases same
        exact member
  · intro member
    exact ⟨.ok value, member, rfl⟩

/-- A fresh machine is only ever given source texts. On record are the cells that reading them
allocated and the values that their forms came to. -/
inductive SourceRun (host : Host) (settings : Settings) : Machine → Set Nat → List Value → Prop where
  | new {machine : Machine} :
      Machine.new settings = .ok (.ok machine) → SourceRun host settings machine ∅ []
  | parse {machine : Machine} {parsed : Set Nat} {results : List Value} {source : String}
      {outcome : Except Error Value} {heap : Heap} : SourceRun host settings machine parsed results →
      machine.heap.parse source = (outcome, heap) →
      SourceRun host settings { machine with heap }
        (parsed ∪ Set.Ico machine.heap.cells.size heap.cells.size) results
  | evalForms {machine after : Machine} {parsed : Set Nat} {results : List Value} {source : String}
      {outcome : Except Error (List (Except Error Value))} :
      SourceRun host settings machine parsed results →
      machine.evalForms host source = .ok (outcome, after) →
      SourceRun host settings after
        (parsed ∪ Set.Ico machine.heap.cells.size (machine.heap.readForms source).2.cells.size)
        (results ++ Machine.results outcome)
  | evalSource {machine after : Machine} {parsed : Set Nat} {results : List Value}
      {source : String} {outcome : Except Error Value} :
      SourceRun host settings machine parsed results →
      machine.evalSource host source = .ok (outcome, after) →
      SourceRun host settings after
        (parsed ∪ Set.Ico machine.heap.cells.size (machine.heap.readForms source).2.cells.size)
        results

theorem Heap.WithinLimits.addError {heap : Heap} (limits : heap.WithinLimits) (error : Error) :
    (heap.addError error).2.WithinLimits ∧ (heap.addError error).2.lambdas = heap.lambdas := by
  unfold Heap.addError
  split
  · exact ⟨limits, rfl⟩
  · exact ⟨limits, rfl⟩
  · split
    · exact ⟨⟨limits.cells, limits.symbols⟩, rfl⟩
    · exact ⟨limits, rfl⟩

theorem Heap.WithinLimits.reify {heap : Heap} (limits : heap.WithinLimits)
    (outcomes : List (Except Error Value)) :
    (Machine.reify heap outcomes).2.WithinLimits ∧
      (Machine.reify heap outcomes).2.lambdas = heap.lambdas := by
  induction outcomes generalizing heap with
  | nil => exact ⟨limits, rfl⟩
  | cons outcome outcomes ih =>
      cases outcome with
      | ok value => exact ih limits
      | error error =>
          obtain ⟨added, lambdas⟩ := limits.addError error
          obtain ⟨kept, laterLambdas⟩ := ih added
          exact ⟨kept, laterLambdas.trans lambdas⟩

/-- What a run of sources keeps. -/
structure Machine.Sound (settings : Settings) (machine : Machine) (parsed : Set Nat)
    (results : List Value) : Prop where
  keywords : machine.heap.KeywordsNamed
  withinLimits : machine.heap.WithinLimits
  lambdas : machine.heap.lambdas = (Lambda.reserved settings).toArray
  holds : machine.Holds parsed
  results : ∀ value ∈ results, machine.heap.Available parsed value

namespace Machine

variable {settings : Settings} {machine : Machine} {parsed : Set Nat} {results : List Value}

theorem sound_new (created : Machine.new settings = .ok (.ok machine)) :
    machine.Sound settings ∅ [] := by
  unfold Machine.new at created
  cases fresh : Heap.new settings with
  | error error =>
      rw [fresh] at created
      cases created
  | ok heap =>
      have wellFormed := Heap.wellFormed_new fresh
      have noLambdas : heap.lambdas = #[] := by
        cases Heap.fresh_new fresh
        rfl
      obtain ⟨outcome, after, made, growth, afterWellFormed, -⟩ :=
        Environment.new_keeps wellFormed settings
      obtain ⟨log, makes⟩ := Environment.exists_makes made
      simp only [fresh, made, bind, Except.bind] at created
      cases outcome with
      | error error => cases created
      | ok environment =>
          cases created
          obtain ⟨holds, lambdas⟩ := makes.holds wellFormed.keywords rfl
          rw [noLambdas, Array.empty_append] at lambdas
          exact ⟨wellFormed.keywords.grow growth, afterWellFormed.withinLimits, lambdas, holds,
            by simp⟩

theorem Sound.hostFree (sound : machine.Sound settings parsed results) :
    machine.heap.HostFree := by
  intro record contents found id
  rw [sound.lambdas] at found
  have member := Array.mem_of_getElem? found
  unfold Lambda.reserved at member
  split at member
  · simp only [List.mem_toArray, List.mem_cons, List.not_mem_nil, or_false] at member
    rcases member with rfl | rfl | rfl <;> simp [Lambda.quote, Lambda.head, Lambda.tail]
  · simp only [List.mem_toArray, List.mem_singleton] at member
    subst member
    simp [Lambda.quote]

/-- Allocation of anything but lambdas. -/
theorem Sound.grow (sound : machine.Sound settings parsed results) {heap : Heap}
    (growth : machine.heap.GrowsTo heap) (limits : heap.WithinLimits)
    (lambdas : heap.lambdas = machine.heap.lambdas) {other : Set Nat} (subset : parsed ⊆ other) :
    Sound settings { machine with heap } other results where
  keywords := sound.keywords.grow growth
  withinLimits := limits
  lambdas := lambdas.trans sound.lambdas
  holds := (sound.holds.grow growth).mono subset
  results value member := ((sound.results value member).grow growth).mono subset

theorem Sound.read (sound : machine.Sound settings parsed results) (source : String) :
    Sound settings { machine with heap := (machine.heap.readForms source).2 }
      (parsed ∪ Set.Ico machine.heap.cells.size (machine.heap.readForms source).2.cells.size)
      results := by
  have reads := Reader.forms_reads (Reader.ofSource machine.heap source)
  exact sound.grow reads.growsTo (reads.withinLimits sound.withinLimits) reads.records_eq.1
    Set.subset_union_left

variable {host : Host} {source : String} {log : List Definition} {after : Machine}

theorem Sound.evaluatesForms (sound : machine.Sound settings parsed results)
    {outcome : Except Error (List (Except Error Value))}
    (evaluates : EvaluatesForms host source machine log outcome after) :
    after.Sound settings
      (parsed ∪ Set.Ico machine.heap.cells.size (machine.heap.readForms source).2.cells.size)
      (results ++ Machine.results outcome) := by
  have read := sound.read source
  cases evaluates with
  | unreadable unread =>
      rw [unread] at read ⊢
      rw [Machine.results, Except.toOption, Option.getD_none, List.filterMap_nil, List.append_nil]
      exact read
  | evaluated listed each =>
      rw [listed] at read ⊢
      have sourced := sound.keywords.sourced_of_readForms listed
      have adds := each.addsCells read.hostFree
      obtain ⟨holds, available⟩ := each.available read.hostFree
        (fun form member => (sourced form member).mono fun _ inside _ => .inr inside) read.holds
      refine ⟨read.keywords.grow each.growsTo, adds.withinLimits read.withinLimits,
        adds.lambdas.trans read.lambdas, holds, fun value member => ?_⟩
      rcases List.mem_append.mp member with old | new
      · exact (read.results value old).grow each.growsTo
      · exact available value (mem_results_iff.mp new)

theorem Sound.evaluatesSource (sound : machine.Sound settings parsed results)
    {outcome : Except Error Value}
    (evaluates : EvaluatesSource host source machine log outcome after) :
    after.Sound settings
      (parsed ∪ Set.Ico machine.heap.cells.size (machine.heap.readForms source).2.cells.size)
      results := by
  have fewer : ∀ {machine : Machine} {parsed : Set Nat} {more : List Value},
      machine.Sound settings parsed (results ++ more) → machine.Sound settings parsed results := by
    intro machine parsed more sound
    exact { sound with
      results := fun value member => sound.results value (List.mem_append_left more member) }
  cases evaluates with
  | unreadable forms => exact fewer (sound.evaluatesForms forms)
  | @listed outcomes middle _ _ _ _ forms reified built =>
      have kept := fewer (sound.evaluatesForms forms)
      have growth := reify_growsTo middle.heap outcomes
      obtain ⟨limits, lambdas⟩ := kept.withinLimits.reify outcomes
      rw [reified] at growth limits lambdas
      have adds := Heap.addsCells_of_listOf built
      exact kept.grow (growth.trans (Heap.growsTo_of_listOf built)) (adds.withinLimits limits)
        (adds.lambdas.trans lambdas) (Set.Subset.refl _)

end Machine

theorem SourceRun.sound {host : Host} {settings : Settings} {machine : Machine} {parsed : Set Nat}
    {results : List Value} (run : SourceRun host settings machine parsed results) :
    machine.Sound settings parsed results := by
  induction run with
  | new created => exact Machine.sound_new created
  | @parse machine _ _ source _ heap _ parsed ih =>
      have growth := machine.heap.parse_growsTo source
      have kept := ih.withinLimits.parse source
      rw [parsed] at growth kept
      exact ih.grow growth kept.1 kept.2 Set.subset_union_left
  | evalForms _ ran ih =>
      obtain ⟨log, evaluates⟩ := Machine.exists_evaluatesForms ran
      exact ih.evaluatesForms evaluates
  | evalSource _ ran ih =>
      obtain ⟨log, evaluates⟩ := Machine.exists_evaluatesSource ran
      exact ih.evaluatesSource evaluates

namespace Machine

variable {settings : Settings} {machine : Machine} {parsed : Set Nat} {results : List Value}

theorem Sound.exists_unfolds (sound : machine.Sound settings parsed results) :
    ∃ bindings, machine.Unfolds bindings := by
  obtain ⟨bindings, unfolds⟩ : ∃ bindings, machine.environment.Unfolds machine.heap bindings := by
    refine Environment.exists_unfolds fun symbol value found => ?_
    obtain ⟨named, available⟩ := sound.holds symbol value found
    obtain ⟨tree, unfolds⟩ := available.exists_unfolds
    cases named with
    | symbol named => exact ⟨_, tree, named, unfolds⟩
  exact ⟨bindings, sound.keywords, sound.hostFree, unfolds⟩

/-- The text of a readable tree with a quote mark before it is a source of one value, which stands for
the tree. It takes no more than the cells of that source. -/
theorem Sound.exists_quoted (sound : machine.Sound settings parsed results) (host : Host)
    {tree : Tree} (readable : tree.isReadable = true)
    (names : tree.names.toFinset ⊆ machine.heap.symbols.nameSet)
    (room : machine.heap.cells.size + tree.quoted.cellCount ≤ machine.heap.maxCells) :
    ∃ value after, machine.evalForms host ("'" ++ tree.text) = .ok (.ok [.ok value], after) ∧
      machine.heap.Uses tree.quoted.cellCount tree.quoted.names after.heap ∧
      after.heap.Unfolds value tree := by
  obtain ⟨bindings, start⟩ := sound.exists_unfolds
  obtain ⟨evaluated, free⟩ := Tree.evaluateForms_quoted tree bindings
  have demand : Tree.cellSum [tree.quoted] + Tree.demandEach [tree.quoted] bindings =
      tree.quoted.cellCount := by
    simp only [free, Tree.cellSum_cons, Tree.cellSum_nil, Nat.add_zero]
  have hasRoom : machine.heap.HasRoom tree.quoted.cellCount (Tree.namesEach [tree.quoted]) := by
    refine ⟨room, ?_⟩
    have quote := SymbolTable.mem_nameSet.mpr ⟨_, sound.keywords.quote⟩
    have known : (Tree.namesEach [tree.quoted]).toFinset ⊆ machine.heap.symbols.nameSet := by
      simpa [Tree.quoted, Finset.insert_subset_iff] using ⟨quote, names⟩
    rw [Finset.union_eq_left.mpr known, SymbolTable.card_nameSet]
    exact sound.withinLimits.symbols
  rw [← demand] at hasRoom
  obtain ⟨outcomes, after, ran, completes⟩ := start.exists_completes sound.withinLimits
    (Token.spells_ofSource_quoted_text readable) hasRoom
  have agrees := completes.agrees
  have uses := completes.uses
  rw [evaluated] at agrees
  rw [demand, Tree.namesEach_cons, Tree.namesEach_nil, List.append_nil] at uses
  cases agrees with
  | cons first others =>
      cases others
      cases first with
      | ok unfolds => exact ⟨_, after, ran, uses, unfolds⟩

end Machine

/-- When a fresh machine is only ever given source texts, every value that a form comes to and every
value that is bound is one of the lambdas that the machine was made with, or it consists of lists and
readable symbols, in cells that reading allocated. In the latter case the machine can read it back:
its text after a quote mark is a source of one value that is equal to it, as long as there is room for
the cells of that source. -/
theorem SourceRun.source_data {host : Host} {settings : Settings} {machine : Machine}
    {parsed : Set Nat} {results : List Value} (run : SourceRun host settings machine parsed results) :
    machine.heap.lambdas = (Lambda.reserved settings).toArray ∧
    ∀ value, (value ∈ results ∨ ∃ symbol, machine.environment.find? symbol = some value) →
      (∃ record, value = .lambda record ∧ record < (Lambda.reserved settings).length) ∨
      machine.heap.Sourced parsed value ∧ ∃ tree text, machine.heap.Unfolds value tree ∧
        machine.heap.display value = .ok text ∧
        (machine.heap.cells.size + tree.quoted.cellCount ≤ machine.heap.maxCells →
          ∃ copy after, machine.evalForms host ("'" ++ text) = .ok (.ok [.ok copy], after) ∧
            after.heap.isEqual value copy = .ok true) := by
  have sound := run.sound
  refine ⟨sound.lambdas, fun value origin => ?_⟩
  have available : machine.heap.Available parsed value := by
    rcases origin with result | ⟨symbol, found⟩
    · exact sound.results value result
    · exact (sound.holds symbol value found).2
  cases available with
  | lambda found =>
      rw [sound.lambdas, List.getElem?_toArray] at found
      exact .inl ⟨_, rfl, (List.getElem?_eq_some_iff.mp found).1⟩
  | sourced sourced =>
      obtain ⟨tree, unfolds, readable⟩ := sourced.exists_unfolds
      refine .inr ⟨sourced, tree, tree.text, unfolds, unfolds.display, fun room => ?_⟩
      obtain ⟨copy, after, ran, uses, copyUnfolds⟩ :=
        sound.exists_quoted host readable unfolds.names_subset room
      refine ⟨copy, after, ran, ?_⟩
      rw [(unfolds.grow uses.growsTo).isEqual copyUnfolds, Tree.isSame_refl]

theorem SourceRun.source_data_of_quoted_list :
    ∃ machine parsed value text copy after, SourceRun Host.none {} machine parsed [value] ∧
      machine.heap.Sourced parsed value ∧ machine.heap.display value = .ok text ∧
      machine.evalForms Host.none ("'" ++ text) = .ok (.ok [.ok copy], after) ∧
      after.heap.isEqual value copy = .ok true := by
  obtain ⟨fresh, environment, heap, created, made, -, cells, maxCells⟩ :=
    Environment.exists_new_with_builtins
  have start : SourceRun Host.none {} ⟨heap, environment⟩ ∅ [] := by
    refine .new ?_
    simp only [Machine.new, created, made]
    rfl
  have sound := start.sound
  have size : (Tree.list [.symbol "quote"]).quoted.cellCount = 3 := by decide
  have known : (Tree.list [.symbol "quote"]).names.toFinset ⊆ heap.symbols.nameSet := by
    simpa using SymbolTable.mem_nameSet.mpr ⟨_, sound.keywords.quote⟩
  obtain ⟨value, machine, ran, uses, unfolds⟩ :=
    sound.exists_quoted Host.none (by decide) known (by rw [size, cells, maxCells]; decide)
  have run : SourceRun Host.none {} machine _ [value] := .evalForms start ran
  rcases run.source_data.2 value (.inl List.mem_cons_self) with ⟨_, rfl, -⟩ | ⟨sourced, reads⟩
  · cases unfolds
  · obtain ⟨tree, text, treeUnfolds, displayed, again⟩ := reads
    cases treeUnfolds.unique unfolds
    have used : machine.heap.cells.size ≤ heap.cells.size + 3 := size ▸ uses.cells
    have limit : machine.heap.maxCells = heap.maxCells := uses.growsTo.maxCells
    obtain ⟨copy, after, ranAgain, equal⟩ := again (by omega)
    exact ⟨machine, _, value, text, copy, after, run, sourced, displayed, ranAgain, equal⟩

end TaggedLisp
