import TaggedLisp.Proofs.Machine
import TaggedLisp.Proofs.Walks
import TaggedLisp.StockRoutine

/-! A workspace is a heap with all environments that were made on it. A run of a workspace starts with
a fresh heap and goes on with any operations in any order, on any of the environments, as long as
their operands point inside the stores. Operations may fail, sources may be unreadable, environments
may come to nothing for lack of room, and the host may do what it likes with values that point
inside the stores. -/

set_option autoImplicit false

namespace TaggedLisp

structure Workspace where
  heap : Heap
  environments : List Environment

namespace Workspace

/-- The heap with one of the environments. Operations that need no environment may use a number that
no environment has: it stands for an environment without room. -/
def machine (workspace : Workspace) (index : Nat) : Machine where
  heap := workspace.heap
  environment := workspace.environments.getD index (.empty 0)

def keep (workspace : Workspace) (index : Nat) (machine : Machine) : Workspace where
  heap := machine.heap
  environments := workspace.environments.set index machine.environment

/-- The workspaces of all runs that start with these settings. -/
inductive Reachable (host : Host) (settings : Settings) : Workspace → Prop where
  | new {heap : Heap} : Heap.new settings = .ok heap → Reachable host settings ⟨heap, []⟩
  | environment {workspace : Workspace} {other : Settings} {outcome : Except Error Environment}
      {heap : Heap} : Reachable host settings workspace →
      Environment.new workspace.heap other = .ok (outcome, heap) →
      Reachable host settings ⟨heap, workspace.environments ++ outcome.toOption.toList⟩
  | perform {workspace : Workspace} {index : Nat} {operation : Operation}
      {outcome : Except Error Value} {machine : Machine} : Reachable host settings workspace →
      operation.isWithin workspace.heap = true →
      (workspace.machine index).perform host.screened operation = .ok (outcome, machine) →
      Reachable host settings (workspace.keep index machine)
  | evalForms {workspace : Workspace} {index : Nat} {source : String}
      {outcome : Except Error (List (Except Error Value))} {machine : Machine} :
      Reachable host settings workspace →
      (workspace.machine index).evalForms host.screened source = .ok (outcome, machine) →
      Reachable host settings (workspace.keep index machine)
  | evalSource {workspace : Workspace} {index : Nat} {source : String}
      {outcome : Except Error Value} {machine : Machine} : Reachable host settings workspace →
      (workspace.machine index).evalSource host.screened source = .ok (outcome, machine) →
      Reachable host settings (workspace.keep index machine)

theorem perform_cons (host : Host) {heap : Heap} (room : heap.cells.size < heap.maxCells)
    (head : Value) {tail : Value} (isList : tail.isList = true) :
    (machine ⟨heap, []⟩ 0).perform host (.cons head tail) = .ok (.ok (.list heap.cells.size),
      ⟨{ heap with cells := heap.cells.push ⟨head, tail⟩ }, .empty 0⟩) := by
  have consed : heap.cons head tail =
      (.ok (.list heap.cells.size), { heap with cells := heap.cells.push ⟨head, tail⟩ }) := by
    simp [Heap.cons, isList, Nat.not_le_of_lt room]
  change Except.ok ((heap.cons head tail).1, Machine.mk (heap.cons head tail).2 (.empty 0)) = _
  rw [consed]

structure WellFormed (workspace : Workspace) : Prop where
  heap : workspace.heap.WellFormed
  environments : ∀ environment ∈ workspace.environments, environment.ContainedIn workspace.heap

variable {workspace : Workspace}

theorem WellFormed.machine (wellFormed : workspace.WellFormed) (index : Nat) :
    (workspace.machine index).WellFormed := by
  refine ⟨wellFormed.heap, ?_⟩
  unfold Workspace.machine
  rw [List.getD_eq_getElem?_getD]
  cases found : workspace.environments[index]? with
  | none => exact Environment.containedIn_empty _ _
  | some environment => exact wellFormed.environments _ (List.mem_of_getElem? found)

theorem WellFormed.keep (wellFormed : workspace.WellFormed) {index : Nat} {machine : Machine}
    (growth : workspace.heap.GrowsTo machine.heap) (after : machine.WellFormed) :
    (workspace.keep index machine).WellFormed := by
  refine ⟨after.heap, fun environment member => ?_⟩
  rcases List.mem_or_eq_of_mem_set member with old | rfl
  · exact (wellFormed.environments environment old).grow growth
  · exact after.environment

/-- What runs keep besides: the limits that the heap started with. -/
private structure KeepsLimits (settings : Settings) (heap : Heap) : Prop where
  maxCells : heap.maxCells ≤ settings.maxCells
  capacity : heap.symbols.capacity ≤ settings.maxSymbols

private theorem KeepsLimits.grow {settings : Settings} {before after : Heap}
    (growth : before.GrowsTo after) (keeps : KeepsLimits settings before) :
    KeepsLimits settings after :=
  ⟨growth.maxCells ▸ keeps.maxCells, growth.symbols.capacity ▸ keeps.capacity⟩

private theorem keepsLimits_new {settings : Settings} {heap : Heap}
    (created : Heap.new settings = .ok heap) : KeepsLimits settings heap := by
  cases Heap.fresh_new created with
  | intro first second =>
      have capacity := second.growsTo.capacity.trans first.growsTo.capacity
      refine ⟨Nat.min_le_left _ _, ?_⟩
      simp only at capacity ⊢
      rw [capacity]
      exact Nat.min_le_left _ _

private theorem Reachable.invariant {host : Host} {settings : Settings}
    (reachable : Reachable host settings workspace) :
    workspace.WellFormed ∧ KeepsLimits settings workspace.heap := by
  induction reachable with
  | new created => exact ⟨⟨Heap.wellFormed_new created, by simp⟩, keepsLimits_new created⟩
  | @environment workspace other outcome heap _ created ih =>
      obtain ⟨wellFormed, limits⟩ := ih
      obtain ⟨_, _, made, growth, after, contained⟩ :=
        Environment.new_keeps wellFormed.heap other
      cases created.symm.trans made
      refine ⟨⟨after, fun environment member => ?_⟩, limits.grow growth⟩
      rcases List.mem_append.mp member with old | new
      · exact (wellFormed.environments environment old).grow growth
      · cases outcome with
        | error => simp [Except.toOption] at new
        | ok made =>
            cases List.mem_singleton.mp new
            exact contained _ rfl
  | @perform workspace index operation outcome machine _ within ran ih =>
      have kept := (ih.1.machine index).perform_ends host within
      rw [ran] at kept
      exact ⟨ih.1.keep kept.growsTo kept.wellFormed, ih.2.grow kept.growsTo⟩
  | @evalForms workspace index source outcome machine _ ran ih =>
      have kept := (ih.1.machine index).evalForms_ends host source
      rw [ran] at kept
      exact ⟨ih.1.keep kept.growsTo kept.wellFormed, ih.2.grow kept.growsTo⟩
  | @evalSource workspace index source outcome machine _ ran ih =>
      have kept := (ih.1.machine index).evalSource_ends host source
      rw [ran] at kept
      exact ⟨ih.1.keep kept.growsTo kept.wellFormed, ih.2.grow kept.growsTo⟩

theorem Reachable.wellFormed {host : Host} {settings : Settings}
    (reachable : Reachable host settings workspace) : workspace.WellFormed :=
  reachable.invariant.1

/-- Every operation on values of the workspace answers values of the workspace that it leaves. A
fault is possible only where calls are nested, and then only because the nesting is used up. -/
structure Answers (host : Host) (workspace : Workspace) : Prop where
  environment : ∀ settings, ∃ outcome heap,
    Environment.new workspace.heap settings = .ok (outcome, heap)
  direct : ∀ index operation, operation.isWithin workspace.heap = true →
    operation.isTask = false → ∃ outcome machine,
      (workspace.machine index).perform host.screened operation = .ok (outcome, machine)
  perform : ∀ index operation, operation.isWithin workspace.heap = true →
    Checked.Ends (fun result => ∀ value, result.1 = .ok value →
        result.2.heap.contains value = true)
      ((workspace.machine index).perform host.screened operation)
  evalForms : ∀ index source,
    Checked.Ends (fun result => ∀ outcomes, result.1 = .ok outcomes →
        ∀ value, .ok value ∈ outcomes → result.2.heap.contains value = true)
      ((workspace.machine index).evalForms host.screened source)
  evalSource : ∀ index source,
    Checked.Ends (fun result => ∀ value, result.1 = .ok value →
        result.2.heap.contains value = true)
      ((workspace.machine index).evalSource host.screened source)

theorem WellFormed.answers (wellFormed : workspace.WellFormed) (host : Host) :
    workspace.Answers host where
  environment settings := by
    obtain ⟨outcome, heap, created, -⟩ := Environment.new_keeps wellFormed.heap settings
    exact ⟨outcome, heap, created⟩
  direct index operation within direct := by
    obtain ⟨outcome, machine, ran, -⟩ := Evaluation.Meets.exists_runIn
      (meets_operation (Task.run host.screened (workspace.machine index).budget)
        (wellFormed.machine index) within direct)
    exact ⟨outcome, machine, ran⟩
  perform index operation within :=
    ((wellFormed.machine index).perform_ends host within).imp fun _ kept => kept.fits
  evalForms index source :=
    ((wellFormed.machine index).evalForms_ends host source).imp fun result kept outcomes same =>
      by simpa [same, Except.toOption] using kept.contained
  evalSource index source :=
    ((wellFormed.machine index).evalSource_ends host source).imp fun _ kept => kept.fits

end Workspace

namespace Heap

def HasEntry (heap : Heap) : Value → Prop
  | .internal _ | .emptyList => True
  | .symbol id => ∃ name, heap.name id = .ok name
  | .list cell => ∃ link, heap.cell cell = .ok link
  | .lambda record => ∃ contents, heap.lambda record = .ok contents
  | .error record => ∃ error, heap.errorRecord record = .ok error

theorem hasEntry_of_contains {heap : Heap} {value : Value}
    (contained : heap.contains value = true) : heap.HasEntry value := by
  cases value with
  | internal | emptyList => trivial
  | symbol => exact (exists_name_of_contains contained).imp fun _ => name_of_some
  | list => exact (exists_link_of_contains contained).imp fun _ => cell_of_some
  | lambda => exact (exists_lambda_of_contains contained).imp fun _ => lambda_of_some
  | error => exact (exists_error_of_contains contained).imp fun _ => errorRecord_of_some

structure WalksEnd (heap : Heap) (value : Value) : Prop where
  elements : ∃ elements, heap.elements value = .ok elements
  toList : ∃ outcome, heap.toList value = .ok outcome
  count : ∃ outcome, heap.count value = .ok outcome
  display : ∃ text, heap.display value = .ok text
  toDatum : ∃ datum, heap.toDatum value = .ok datum
  describe : ∃ text, heap.describe value = .ok text
  isEqual : ∀ other, heap.contains other = true → ∃ same, heap.isEqual value other = .ok same

theorem WellFormed.walksEnd {heap : Heap} (wellFormed : heap.WellFormed) {value : Value}
    (contained : heap.contains value = true) : heap.WalksEnd value := by
  obtain ⟨tree, unfolds⟩ := wellFormed.exists_unfolds contained
  have elements : ∃ elements, heap.elements value = .ok elements := by
    cases isList : value.isList with
    | true =>
        obtain ⟨trees, unfolds⟩ := wellFormed.exists_unfolds_list contained isList
        obtain ⟨values, -, listed, -⟩ := unfolds.exists_elements
        exact ⟨values, listed⟩
    | false => cases value <;> first | exact ⟨[], rfl⟩ | cases isList
  have listed : ∃ outcome, heap.toList value = .ok outcome := by
    rcases wellFormed.exists_toList contained with refused | ⟨values, listed, -⟩
    · exact ⟨_, refused⟩
    · exact ⟨_, listed⟩
  refine ⟨elements, listed, ?_, ⟨_, unfolds.display⟩, ⟨_, unfolds.toDatum⟩,
    unfolds.exists_describe, fun other otherContained => ?_⟩
  · obtain ⟨outcome, listed⟩ := listed
    exact ⟨outcome.map List.length, by rw [count, listed]; rfl⟩
  · obtain ⟨otherTree, otherUnfolds⟩ := wellFormed.exists_unfolds otherContained
    exact ⟨_, unfolds.isEqual otherUnfolds⟩

end Heap

namespace Workspace

variable {workspace : Workspace}

/-- In every workspace that a run reaches, cells refer to older cells only, all bindings point inside
the stores, and the stores keep to their limits. So operations answer values of the workspace, and no
read is out of range and no walk goes on forever. -/
theorem Reachable.wellFormed_and_answers {host : Host} {settings : Settings}
    (reachable : Reachable host settings workspace) :
    workspace.WellFormed ∧ workspace.heap.cells.size ≤ settings.maxCells ∧
      workspace.heap.symbols.size ≤ settings.maxSymbols ∧ workspace.Answers host ∧
      ∀ value, workspace.heap.contains value = true →
        workspace.heap.HasEntry value ∧ workspace.heap.WalksEnd value := by
  obtain ⟨wellFormed, limits⟩ := reachable.invariant
  have heap := wellFormed.heap
  exact ⟨wellFormed, Nat.le_trans heap.cells_size_le limits.maxCells,
    Nat.le_trans heap.symbols_size_le limits.capacity, wellFormed.answers host,
    fun value contained => ⟨Heap.hasEntry_of_contains contained, heap.walksEnd contained⟩⟩

/-- A run can begin with the environment that the default settings describe. -/
theorem exists_reachable_with_builtins (host : Host) :
    ∃ heap environment, Reachable host {} ⟨heap, [environment]⟩ ∧
      heap.lambdas = #[Lambda.quote, Lambda.head, Lambda.tail] := by
  obtain ⟨heap, environment, after, created, made, lambdas, -⟩ :=
    Environment.exists_new_with_builtins
  exact ⟨after, environment, .environment (.new created) made, lambdas⟩

theorem wellFormed_and_answers_with_builtins :
    ∃ workspace, Reachable Host.stock {} workspace ∧ workspace.environments.length = 1 ∧
      workspace.WellFormed ∧ workspace.Answers Host.stock := by
  obtain ⟨heap, environment, reachable, -⟩ := exists_reachable_with_builtins Host.stock
  have sound := reachable.wellFormed_and_answers
  exact ⟨_, reachable, rfl, sound.1, sound.2.2.2.1⟩

end Workspace

end TaggedLisp
