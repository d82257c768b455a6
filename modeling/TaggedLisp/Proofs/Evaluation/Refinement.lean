import TaggedLisp.Proofs.Evaluation.OnTrees
import TaggedLisp.Proofs.Workspace

/-! Evaluation in a heap refines evaluation on trees. Values are allocated, shared and looked up by
number on one side and are trees and names on the other, and the two agree on every outcome except
that only a heap can run out of memory. Nothing but the trees of the form and of the bindings
matters: the argument needs no order of the cells. -/

set_option autoImplicit false

namespace TaggedLisp

/-! ## Environments and bindings -/

/-- The bindings on trees that an environment stands for. -/
structure Environment.Unfolds (environment : Environment) (heap : Heap) (bindings : Bindings) :
    Prop where
  capacity : bindings.capacity = environment.capacity
  size : bindings.size = environment.size
  total : ∀ symbol value, environment.find? symbol = some value →
    ∃ name tree, heap.symbols.name? symbol = some name ∧ heap.Unfolds value tree
  bound : ∀ name tree, bindings.tree? name = some tree ↔ ∃ symbol value,
    heap.symbols.name? symbol = some name ∧ environment.find? symbol = some value ∧
      heap.Unfolds value tree

namespace Environment

variable {environment : Environment} {heap : Heap} {bindings : Bindings}

theorem Unfolds.find?_of_some (unfolds : environment.Unfolds heap bindings) {symbol : Nat}
    {name : String} {value : Value} (named : heap.symbols.name? symbol = some name)
    (found : environment.find? symbol = some value) :
    ∃ tree, bindings.tree? name = some tree ∧ heap.Unfolds value tree := by
  obtain ⟨_, tree, -, valueUnfolds⟩ := unfolds.total symbol value found
  exact ⟨tree, (unfolds.bound name tree).mpr ⟨symbol, value, named, found, valueUnfolds⟩,
    valueUnfolds⟩

theorem Unfolds.find?_of_none (unfolds : environment.Unfolds heap bindings) {symbol : Nat}
    {name : String} (named : heap.symbols.name? symbol = some name)
    (free : environment.find? symbol = none) : bindings.tree? name = none := by
  rw [Option.eq_none_iff_forall_ne_some]
  intro tree bound
  obtain ⟨other, value, otherNamed, found, -⟩ := (unfolds.bound name tree).mp bound
  cases SymbolTable.eq_of_name?_eq named otherNamed
  cases free.symm.trans found

theorem Unfolds.unique {other : Bindings} (unfolds : environment.Unfolds heap bindings)
    (otherUnfolds : environment.Unfolds heap other) : bindings = other := by
  have same : bindings.tree? = other.tree? := by
    funext name
    apply Option.ext
    intro tree
    rw [unfolds.bound, otherUnfolds.bound]
  have size := unfolds.size.trans otherUnfolds.size.symm
  have capacity := unfolds.capacity.trans otherUnfolds.capacity.symm
  cases bindings
  cases other
  simp_all

/-- Allocation changes no binding, and a name that becomes a symbol is not bound by that. -/
theorem Unfolds.grow {after : Heap} (growth : heap.GrowsTo after)
    (unfolds : environment.Unfolds heap bindings) : environment.Unfolds after bindings where
  capacity := unfolds.capacity
  size := unfolds.size
  total symbol value found := by
    obtain ⟨name, tree, named, valueUnfolds⟩ := unfolds.total symbol value found
    exact ⟨name, tree, growth.symbols.names named, valueUnfolds.grow growth⟩
  bound name tree := by
    rw [unfolds.bound]
    constructor
    · intro isBound
      obtain ⟨symbol, value, named, found, valueUnfolds⟩ := isBound
      exact ⟨symbol, value, growth.symbols.names named, found, valueUnfolds.grow growth⟩
    · intro isBound
      obtain ⟨symbol, value, named, found, valueUnfolds⟩ := isBound
      obtain ⟨oldName, oldTree, oldNamed, oldUnfolds⟩ := unfolds.total symbol value found
      cases (growth.symbols.names oldNamed).symm.trans named
      cases (oldUnfolds.grow growth).unique valueUnfolds
      exact ⟨symbol, value, oldNamed, found, oldUnfolds⟩

open Classical in
theorem exists_unfolds (total : ∀ symbol value, environment.find? symbol = some value →
      ∃ name tree, heap.symbols.name? symbol = some name ∧ heap.Unfolds value tree) :
    ∃ bindings, environment.Unfolds heap bindings := by
  let IsBound (name : String) (tree : Tree) : Prop := ∃ symbol value,
    heap.symbols.name? symbol = some name ∧ environment.find? symbol = some value ∧
      heap.Unfolds value tree
  refine ⟨⟨fun name => if bound : ∃ tree, IsBound name tree then some bound.choose else none,
    environment.size, environment.capacity⟩, rfl, rfl, total, ?_⟩
  intro name tree
  have unique : ∀ {other}, IsBound name tree → IsBound name other → tree = other := by
    intro other isBound isOtherBound
    obtain ⟨symbol, value, named, found, unfolds⟩ := isBound
    obtain ⟨_, _, otherNamed, otherFound, otherUnfolds⟩ := isOtherBound
    cases SymbolTable.eq_of_name?_eq named otherNamed
    cases found.symm.trans otherFound
    exact unfolds.unique otherUnfolds
  dsimp only
  split
  · next bound =>
    constructor
    · intro same
      cases same
      exact bound.choose_spec
    · intro isBound
      rw [unique isBound bound.choose_spec]
  · next free =>
    constructor
    · intro impossible
      cases impossible
    · intro isBound
      exact absurd ⟨tree, isBound⟩ free

theorem ContainedIn.exists_unfolds (contained : environment.ContainedIn heap)
    (wellFormed : heap.WellFormed) : ∃ bindings, environment.Unfolds heap bindings := by
  refine Environment.exists_unfolds fun symbol value found => ?_
  obtain ⟨symbolContained, valueContained⟩ := contained symbol value found
  obtain ⟨name, named⟩ := Heap.exists_name_of_contains symbolContained
  obtain ⟨tree, unfolds⟩ := wellFormed.exists_unfolds valueContained
  exact ⟨name, tree, named, unfolds⟩

theorem Unfolds.lookup (unfolds : environment.Unfolds heap bindings) {symbol : Nat}
    {name : String} (named : heap.symbols.name? symbol = some name) :
    ∃ outcome, environment.lookup heap symbol = .ok outcome ∧
      heap.Agrees outcome (bindings.lookup name) := by
  unfold Bindings.lookup
  cases found : environment.find? symbol with
  | some value =>
      obtain ⟨tree, bound, valueUnfolds⟩ := unfolds.find?_of_some named found
      rw [bound]
      exact ⟨_, lookup_of_find? found heap, .ok valueUnfolds⟩
  | none =>
      rw [unfolds.find?_of_none named found]
      exact ⟨_, lookup_of_free found named, .error⟩

theorem Unfolds.bind (unfolds : environment.Unfolds heap bindings) {symbol : Nat} {name : String}
    {value : Value} {tree : Tree} (named : heap.symbols.name? symbol = some name)
    (free : environment.find? symbol = none) (valueUnfolds : heap.Unfolds value tree) :
    (environment.bind symbol value).Unfolds heap (bindings.bind name tree) where
  capacity := unfolds.capacity
  size := by
    rw [size_bind free, Bindings.bind, unfolds.size]
  total other bound found := by
    rw [find?_bind] at found
    split at found
    · next same =>
      cases found
      exact ⟨name, tree, same ▸ named, valueUnfolds⟩
    · exact unfolds.total other bound found
  bound other otherTree := by
    by_cases same : name = other
    · subst same
      simp only [Bindings.bind, ↓reduceIte, Option.some.injEq]
      constructor
      · intro sameTree
        subst sameTree
        exact ⟨symbol, value, named, by simp [find?_bind], valueUnfolds⟩
      · intro isBound
        obtain ⟨other, bound, otherNamed, found, boundUnfolds⟩ := isBound
        cases SymbolTable.eq_of_name?_eq named otherNamed
        simp only [find?_bind, ↓reduceIte, Option.some.injEq] at found
        cases found
        exact valueUnfolds.unique boundUnfolds
    · simp only [Bindings.bind, if_neg same, unfolds.bound]
      have apart : ∀ {otherSymbol}, heap.symbols.name? otherSymbol = some other →
          (environment.bind symbol value).find? otherSymbol = environment.find? otherSymbol := by
        intro otherSymbol otherNamed
        rw [find?_bind, if_neg]
        intro sameSymbol
        subst sameSymbol
        exact same (Option.some.inj (named.symm.trans otherNamed))
      constructor
      · intro isBound
        obtain ⟨otherSymbol, bound, otherNamed, found, boundUnfolds⟩ := isBound
        exact ⟨otherSymbol, bound, otherNamed, apart otherNamed ▸ found, boundUnfolds⟩
      · intro isBound
        obtain ⟨otherSymbol, bound, otherNamed, found, boundUnfolds⟩ := isBound
        exact ⟨otherSymbol, bound, otherNamed, (apart otherNamed).symm ▸ found, boundUnfolds⟩

theorem Unfolds.define (unfolds : environment.Unfolds heap bindings) {symbol : Nat} {name : String}
    {value : Value} {tree : Tree} (named : heap.symbols.name? symbol = some name)
    (valueUnfolds : heap.Unfolds value tree) :
    ∃ outcome after, environment.define heap symbol value = .ok (outcome, after) ∧
      heap.Agrees outcome (bindings.define name tree).1 ∧
      after.Unfolds heap (bindings.define name tree).2 := by
  obtain ⟨⟨outcome, after⟩, defined, defines⟩ := environment.define_defines named value
  refine ⟨outcome, after, defined, ?_⟩
  unfold Bindings.define
  cases defines with
  | bound found =>
      obtain ⟨old, bound, -⟩ := unfolds.find?_of_some named found
      simp only [bound, Option.isSome_some, ↓reduceIte]
      exact ⟨.error, unfolds⟩
  | full free noRoom =>
      rw [← unfolds.size, ← unfolds.capacity] at noRoom
      simp only [unfolds.find?_of_none named free, Option.isSome_none, Bool.false_eq_true,
        ↓reduceIte]
      rw [if_pos noRoom, unfolds.capacity]
      exact ⟨.error, unfolds⟩
  | added free room =>
      rw [← unfolds.size, ← unfolds.capacity] at room
      simp only [unfolds.find?_of_none named free, Option.isSome_none, Bool.false_eq_true,
        ↓reduceIte, if_neg (Nat.not_le_of_lt room)]
      exact ⟨.ok (.symbol named), unfolds.bind named free valueUnfolds⟩

end Environment

/-! ## Machines and bindings -/

/-- Only routines of the language occur in the lambda store. -/
def Heap.HostFree (heap : Heap) : Prop :=
  ∀ (record : Nat) (contents : Lambda), heap.lambdas[record]? = some contents →
    ∀ id, contents.routine ≠ .host id

theorem Heap.hostFree_of_builtins {heap : Heap}
    (lambdas : heap.lambdas = #[Lambda.quote, Lambda.head, Lambda.tail]) : heap.HostFree := by
  intro record contents found id
  rw [lambdas] at found
  have member := Array.mem_of_getElem? found
  simp only [List.mem_toArray, List.mem_cons, List.not_mem_nil, or_false] at member
  rcases member with rfl | rfl | rfl <;> simp [Lambda.quote, Lambda.head, Lambda.tail]

theorem Heap.HostFree.of_lambdas {before after : Heap} (same : after.lambdas = before.lambdas)
    (hostFree : before.HostFree) : after.HostFree := by
  intro record contents found
  rw [same] at found
  exact hostFree record contents found

theorem Heap.HostFree.of_addsCells {before after : Heap} (adds : before.AddsCells after)
    (hostFree : before.HostFree) : after.HostFree :=
  hostFree.of_lambdas adds.lambdas

theorem Heap.HostFree.of_lambda {heap : Heap} (hostFree : heap.HostFree) {record : Nat}
    {contents : Lambda} (found : heap.lambda record = .ok contents) (id : Nat) :
    contents.routine ≠ .host id :=
  hostFree record contents (Heap.some_of_lambda found) id

/-- The bindings that the environment of a machine stands for, where trees can tell what its heap
does. -/
structure Machine.Unfolds (machine : Machine) (bindings : Bindings) : Prop where
  keywords : machine.heap.KeywordsNamed
  hostFree : machine.heap.HostFree
  environment : machine.environment.Unfolds machine.heap bindings

/-- A computation in a machine does as one on trees does and spends the given number of cells on it,
unless it runs out of memory for want of so many. -/
structure Machine.Follows {α β : Type} (related : Heap → α → β → Prop) (machine : Machine)
    (cells : Nat) (expected : Except Error β × Bindings) (outcome : Except Error α)
    (after : Machine) : Prop where
  growsTo : machine.heap.GrowsTo after.heap
  spends : outcome = .error .outOfMemory ∧
      machine.heap.maxCells < machine.heap.cells.size + cells ∨
    Agreement (related after.heap) outcome expected.1 ∧ after.Unfolds expected.2 ∧
      after.heap.cells.size = machine.heap.cells.size + cells

theorem Machine.Follows.agrees {α β : Type} {related : Heap → α → β → Prop}
    {machine after : Machine} {cells : Nat} {expected : Except Error β × Bindings}
    {outcome : Except Error α} (follows : machine.Follows related cells expected outcome after) :
    outcome = .error .outOfMemory ∨
      Agreement (related after.heap) outcome expected.1 ∧ after.Unfolds expected.2 := by
  rcases follows.spends with ⟨outOfMemory, -⟩ | ⟨agrees, unfolds, -⟩
  · exact .inl outOfMemory
  · exact .inr ⟨agrees, unfolds⟩

section Simulation

variable {α β γ δ : Type} {permitted : Fault → Prop} {machine : Machine} {bindings : Bindings}
  {recur : Task → Evaluation Value}

open Evaluation Machine

theorem Machine.Unfolds.follows_of_agrees (unfolds : machine.Unfolds bindings)
    {related : Heap → α → β → Prop} {outcome : Except Error α} {expected : Except Error β}
    (agrees : Agreement (related machine.heap) outcome expected) :
    machine.Follows related 0 (expected, bindings) outcome machine :=
  ⟨.refl _, .inr ⟨agrees, unfolds, rfl⟩⟩

theorem Machine.Follows.of_grown {middle after : Machine} {related : Heap → α → β → Prop}
    {spent cells : Nat} {expected : Except Error β × Bindings} {outcome : Except Error α}
    (growth : machine.heap.GrowsTo middle.heap)
    (size : middle.heap.cells.size = machine.heap.cells.size + spent)
    (follows : middle.Follows related cells expected outcome after) :
    machine.Follows related (spent + cells) expected outcome after := by
  refine ⟨growth.trans follows.growsTo, ?_⟩
  rcases follows.spends with ⟨outOfMemory, noRoom⟩ | ⟨agrees, unfolds, after⟩
  · rw [growth.maxCells] at noRoom
    exact .inl ⟨outOfMemory, by omega⟩
  · exact .inr ⟨agrees, unfolds, by omega⟩

theorem meets_follows_bind {computation : Evaluation α} {next : α → Evaluation γ}
    {related : Heap → α → β → Prop} {relatedNext : Heap → γ → δ → Prop} {cells total : Nat}
    {expected : Except Error β × Bindings} {more : β → Bindings → Nat}
    {expectedNext : β → Bindings → Except Error δ × Bindings}
    (first : computation.Meets permitted machine (machine.Follows related cells expected))
    (rest : ∀ result tree bindings after, expected = (.ok tree, bindings) →
      machine.heap.GrowsTo after.heap → after.Unfolds bindings → related after.heap result tree →
      (next result).Meets permitted after
        (after.Follows relatedNext (more tree bindings) (expectedNext tree bindings)))
    (sum : total = cells + Bindings.spentAfter expected more) :
    (computation >>= next).Meets permitted machine
      (machine.Follows relatedNext total (Bindings.andThen expected expectedNext)) := by
  obtain ⟨expected, expectedBindings⟩ := expected
  refine first.bind (fun result after follows => ?_) fun error after follows => ?_
  · rcases follows.spends with ⟨outOfMemory, -⟩ | ⟨agrees, unfolds, size⟩
    · cases outOfMemory
    · cases agrees with
      | ok holds =>
          refine (rest _ _ _ _ rfl follows.growsTo unfolds holds).imp fun _ _ later => ?_
          rw [sum]
          exact later.of_grown follows.growsTo size
  · refine ⟨follows.growsTo, ?_⟩
    rcases follows.spends with ⟨outOfMemory, noRoom⟩ | ⟨agrees, unfolds, size⟩
    · cases outOfMemory
      exact .inl ⟨rfl, by omega⟩
    · cases agrees with
      | error => exact .inr ⟨.error, unfolds, by rw [sum]; exact size⟩

theorem meets_follows_bind_of_free {computation : Evaluation α} {next : α → Evaluation γ}
    {related : Heap → α → β → Prop} {relatedNext : Heap → γ → δ → Prop} {cells : Nat}
    {expected : Except Error β × Bindings}
    {expectedNext : β → Bindings → Except Error δ × Bindings}
    (first : computation.Meets permitted machine (machine.Follows related cells expected))
    (rest : ∀ result tree bindings after, expected = (.ok tree, bindings) →
      machine.heap.GrowsTo after.heap → after.Unfolds bindings → related after.heap result tree →
      (next result).Meets permitted after
        (after.Follows relatedNext 0 (expectedNext tree bindings))) :
    (computation >>= next).Meets permitted machine
      (machine.Follows relatedNext cells (Bindings.andThen expected expectedNext)) :=
  meets_follows_bind first rest (by rw [Bindings.spentAfter_zero, Nat.add_zero])

theorem follows_lookup (unfolds : machine.Unfolds bindings) {symbol : Nat} {name : String}
    (named : machine.heap.symbols.name? symbol = some name) :
    (Evaluation.lookup symbol).Meets permitted machine
      (machine.Follows Heap.Unfolds 0 (bindings.lookup name, bindings)) := by
  obtain ⟨outcome, found, agrees⟩ := unfolds.environment.lookup named
  exact meets_consult found (unfolds.follows_of_agrees agrees)

theorem follows_define (unfolds : machine.Unfolds bindings) {symbol : Nat} {name : String}
    {value : Value} {tree : Tree} (named : machine.heap.symbols.name? symbol = some name)
    (valueUnfolds : machine.heap.Unfolds value tree) :
    (Evaluation.define symbol value).Meets permitted machine
      (machine.Follows Heap.Unfolds 0 (bindings.define name tree)) := by
  obtain ⟨outcome, environment, defined, agrees, after⟩ :=
    unfolds.environment.define named valueUnfolds
  exact meets_define defined
    ⟨.refl _, .inr ⟨agrees, ⟨unfolds.keywords, unfolds.hostFree, after⟩, rfl⟩⟩

/-- Building the list of the arguments is the one step that trees know nothing of. -/
theorem follows_listOf (unfolds : machine.Unfolds bindings) {values : List Value}
    {trees : List Tree} (each : List.Forall₂ machine.heap.Unfolds values trees) :
    (Evaluation.allocate (·.listOf values)).Meets permitted machine
      (machine.Follows Heap.Unfolds trees.length (.ok (.list trees), bindings)) := by
  have growth := machine.heap.listOf_growsTo values
  refine meets_allocate ⟨growth, ?_⟩
  rcases Heap.listOf_outOfMemory_or_unfolds each with full | ⟨list, built, listUnfolds, size⟩
  · exact .inl full
  · have hostFree := unfolds.hostFree.of_addsCells (machine.heap.listOf_addsCells values)
    rw [built]
    exact .inr ⟨.ok listUnfolds,
      ⟨unfolds.keywords.grow growth, hostFree, unfolds.environment.grow growth⟩, size⟩

private theorem follows_first (unfolds : machine.Unfolds bindings) {value : Value} {tree : Tree}
    (valueUnfolds : machine.heap.Unfolds value tree) :
    (Evaluation.consult (·.heap.head value)).Meets permitted machine
      (machine.Follows Heap.Unfolds 0 (tree.head, bindings)) := by
  obtain ⟨outcome, read, agrees⟩ := valueUnfolds.head
  exact meets_consult read (unfolds.follows_of_agrees agrees)

private theorem follows_rest (unfolds : machine.Unfolds bindings) {value : Value} {tree : Tree}
    (valueUnfolds : machine.heap.Unfolds value tree) :
    (Evaluation.consult (·.heap.tail value)).Meets permitted machine
      (machine.Follows Heap.Unfolds 0 (tree.tail, bindings)) := by
  obtain ⟨outcome, read, agrees⟩ := valueUnfolds.tail
  exact meets_consult read (unfolds.follows_of_agrees agrees)

private theorem andThen_eq_bind (first : Except Error Tree)
    (next : Tree → Except Error Tree) (bindings : Bindings) :
    Bindings.andThen (first, bindings) (fun tree bindings => (next tree, bindings)) =
      (first >>= next, bindings) := by
  cases first <;> rfl

theorem follows_routine (unfolds : machine.Unfolds bindings) (host : Host) {routine : Routine}
    (builtin : ∀ id, routine ≠ .host id) {arguments : Value} {trees : List Tree}
    (argumentsUnfold : machine.heap.Unfolds arguments (.list trees)) :
    (routine.run host recur arguments).Meets permitted machine
      (machine.Follows Heap.Unfolds 0 (routine.answer trees, bindings)) := by
  unfold Routine.run
  cases routine with
  | quote => exact follows_first unfolds argumentsUnfold
  | head =>
      rw [Routine.answer, ← andThen_eq_bind]
      exact meets_follows_bind_of_free (follows_first unfolds argumentsUnfold)
        fun _ _ _ _ _ _ unfolds listUnfolds => follows_first unfolds listUnfolds
  | tail =>
      rw [Routine.answer, ← andThen_eq_bind]
      exact meets_follows_bind_of_free (follows_first unfolds argumentsUnfold)
        fun _ _ _ _ _ _ unfolds listUnfolds => follows_rest unfolds listUnfolds
  | host id => exact absurd rfl (builtin id)

theorem follows_applyLambda (unfolds : machine.Unfolds bindings) (host : Host) {record : Nat}
    {contents : Lambda} (found : machine.heap.lambdas[record]? = some contents)
    {arguments : Value} {trees : List Tree}
    (argumentsUnfold : machine.heap.Unfolds arguments (.list trees)) :
    (applyLambda host recur record arguments).Meets permitted machine
      (machine.Follows Heap.Unfolds 0 (contents.answer trees, bindings)) := by
  unfold applyLambda Lambda.answer
  refine meets_examine_bind (Heap.lambda_of_some found) ?_
  refine meets_consult_bind argumentsUnfold.count ?_
  split
  · exact follows_routine unfolds host (unfolds.hostFree record contents found) argumentsUnfold
  · exact unfolds.follows_of_agrees .error

/-- Tasks on forms of less than the given height do as they do on trees. -/
structure Simulates (bound : Nat) (recur : Task → Evaluation Value) : Prop where
  eval : ∀ {machine : Machine} {bindings : Bindings} {form : Value} {tree : Tree},
    machine.Unfolds bindings → machine.heap.Unfolds form tree → tree.height < bound →
    (recur (.eval form)).Meets (fun _ => False) machine
      (machine.Follows Heap.Unfolds (tree.demand bindings) (tree.evaluate bindings))
  apply : ∀ {machine : Machine} {bindings : Bindings} {record : Nat} {contents : Lambda}
    {arguments : Value} {trees : List Tree}, 0 < bound → machine.Unfolds bindings →
    machine.heap.lambdas[record]? = some contents →
    machine.heap.Unfolds arguments (.list trees) →
    (recur (.apply record arguments)).Meets (fun _ => False) machine
      (machine.Follows Heap.Unfolds 0 (contents.answer trees, bindings))

variable {bound : Nat}

theorem Simulates.mapM (simulates : Simulates bound recur) (unfolds : machine.Unfolds bindings)
    {forms : List Value} {trees : List Tree}
    (each : List.Forall₂ machine.heap.Unfolds forms trees) (enough : Tree.heightEach trees ≤ bound) :
    (forms.mapM fun form => recur (.eval form)).Meets (fun _ => False) machine
      (machine.Follows (fun heap => List.Forall₂ heap.Unfolds)
        (Tree.demandEach trees bindings) (Tree.evaluateEach trees bindings)) := by
  induction trees generalizing machine bindings forms with
  | nil =>
      cases each
      rw [Tree.evaluateEach, Tree.demandEach]
      exact unfolds.follows_of_agrees (.ok .nil)
  | cons tree trees ih =>
      cases each with
      | cons formUnfolds each =>
          rw [Tree.heightEach_cons] at enough
          rw [List.mapM_cons, Tree.evaluateEach, Tree.demandEach]
          refine meets_follows_bind (simulates.eval unfolds formUnfolds (by omega))
            (fun value valueTree _ after _ growth unfolds valueUnfolds => ?_) rfl
          refine meets_follows_bind_of_free
            (ih unfolds (Heap.unfoldsEach_grow growth each) (by omega))
            fun values valueTrees _ final _ growth unfolds valuesUnfold => ?_
          exact meets_pure (unfolds.follows_of_agrees
            (.ok (.cons (valueUnfolds.grow growth) valuesUnfold)))

theorem Simulates.call (simulates : Simulates bound recur) (positive : 0 < bound)
    (unfolds : machine.Unfolds bindings) {head : Nat} {name : String}
    (named : machine.heap.symbols.name? head = some name) {arguments : Value} {trees : List Tree}
    (argumentsUnfold : machine.heap.Unfolds arguments (.list trees)) :
    (show Evaluation Value from do
      match ← Evaluation.lookup head with
      | .lambda record => recur (.apply record arguments)
      | _ => throw (.notCallable (← Evaluation.examine (·.heap.name head)))).Meets
        (fun _ => False) machine
        (machine.Follows Heap.Unfolds 0 (bindings.apply name trees, bindings)) := by
  rw [Bindings.apply, ← andThen_eq_bind]
  refine meets_follows_bind_of_free (follows_lookup unfolds named)
    fun value tree bindings after _ growth unfolds valueUnfolds => ?_
  have named := growth.symbols.names named
  have notCallable : (show Evaluation Value from do
      throw (.notCallable (← Evaluation.examine (·.heap.name head)))).Meets (fun _ => False) after
        (after.Follows Heap.Unfolds 0 (.error (.notCallable name), bindings)) :=
    meets_examine_bind (Heap.name_of_some named) (unfolds.follows_of_agrees .error)
  cases valueUnfolds with
  | lambda found => exact simulates.apply positive unfolds found (argumentsUnfold.grow growth)
  | _ => exact notCallable

theorem Simulates.evalApplication (simulates : Simulates bound recur)
    (unfolds : machine.Unfolds bindings) {cell head : Nat} {tail : Value}
    (found : machine.heap.cells[cell]? = some ⟨.symbol head, tail⟩) {name : String}
    (named : machine.heap.symbols.name? head = some name) {arguments : List Tree}
    (tailUnfolds : machine.heap.Unfolds tail (.list arguments)) (positive : 0 < bound)
    (enough : Tree.heightEach arguments ≤ bound) :
    (evalApplication recur cell).Meets (fun _ => False) machine
      (machine.Follows Heap.Unfolds
        (Tree.demandEach arguments bindings +
          Bindings.spentAfter (Tree.evaluateEach arguments bindings) fun trees _ => trees.length)
        (Bindings.andThen (Tree.evaluateEach arguments bindings)
          fun trees bindings => (bindings.apply name trees, bindings))) := by
  obtain ⟨forms, each, -, listed, -⟩ := tailUnfolds.exists_elements
  refine meets_examine_bind (Heap.cell_of_some found) ?_
  refine meets_consult_bind listed ?_
  refine meets_follows_bind (simulates.mapM unfolds each enough)
    (fun values trees bindings evaluated _ growth unfolds valuesUnfold => ?_) rfl
  have named := growth.symbols.names named
  change Meets _ _ _ (evaluated.Follows Heap.Unfolds trees.length
    (Bindings.andThen (.ok (Tree.list trees), bindings)
      fun _ bindings => (bindings.apply name trees, bindings)))
  refine meets_follows_bind_of_free (follows_listOf unfolds valuesUnfold)
    fun list tree bindings allocated same growth unfolds listUnfolds => ?_
  cases same
  exact simulates.call positive unfolds (growth.symbols.names named) listUnfolds

/-- A list that is headed by anything but a symbol has no value. -/
theorem follows_evalApplication_of_not_symbol (unfolds : machine.Unfolds bindings) {cell : Nat}
    {link : Cell} (found : machine.heap.cells[cell]? = some link) {head : Tree}
    (headUnfolds : machine.heap.Unfolds link.head head) (notSymbol : ∀ name, head ≠ .symbol name) :
    (evalApplication recur cell).Meets permitted machine
      (machine.Follows Heap.Unfolds 0 ((.error .undefined : Except Error Tree), bindings)) := by
  refine meets_examine_bind (Heap.cell_of_some found) ?_
  obtain ⟨linkHead, linkTail⟩ := link
  cases headUnfolds with
  | symbol => exact absurd rfl (notSymbol _)
  | _ => exact unfolds.follows_of_agrees .error

theorem Simulates.definition (simulates : Simulates bound recur)
    (unfolds : machine.Unfolds bindings) {symbol : Nat} {name : String}
    (named : machine.heap.symbols.name? symbol = some name) {form : Value} {body : Tree}
    (formUnfolds : machine.heap.Unfolds form body) (enough : body.height < bound) :
    (recur (.eval form) >>= fun value => Evaluation.define symbol value).Meets (fun _ => False)
      machine (machine.Follows Heap.Unfolds
        ((Tree.list [.symbol "def", .symbol name, body]).demand bindings)
        ((Tree.list [.symbol "def", .symbol name, body]).evaluate bindings)) := by
  rw [Tree.evaluate, Tree.demand]
  exact meets_follows_bind_of_free (simulates.eval unfolds formUnfolds enough)
    fun value tree bindings after _ growth unfolds valueUnfolds =>
      follows_define unfolds (growth.symbols.names named) valueUnfolds

theorem Simulates.evalForm (simulates : Simulates bound recur) (unfolds : machine.Unfolds bindings)
    {form : Value} {tree : Tree} (formUnfolds : machine.heap.Unfolds form tree)
    (enough : tree.height ≤ bound) :
    (evalForm recur form).Meets (fun _ => False) machine
      (machine.Follows Heap.Unfolds (tree.demand bindings) (tree.evaluate bindings)) := by
  unfold TaggedLisp.evalForm
  cases formUnfolds with
  | emptyList =>
      rw [Tree.evaluate, Tree.demand]
      · exact unfolds.follows_of_agrees (.ok .emptyList)
      all_goals simp
  | symbol named =>
      rw [Tree.evaluate, Tree.demand]
      · exact follows_lookup unfolds named
      all_goals simp
  | internal | error | lambda =>
      rw [Tree.evaluate, Tree.demand]
      · exact unfolds.follows_of_agrees .error
      all_goals simp
  | @list cell link element elements found head tail =>
      -- The tree decides the same questions in the same order: quoted, a definition, an application.
      have whole := Heap.Unfolds.list found head tail
      rw [Tree.height_list, Tree.heightEach_cons] at enough
      refine meets_examine_bind (whole.isQuoted unfolds.keywords) ?_
      obtain ⟨outcome, unquoted, innerAgrees⟩ := whole.unquote unfolds.keywords
      obtain ⟨definition, read, agrees⟩ := whole.definition? unfolds.keywords
      generalize quoted : (Tree.list (element :: elements)).unquoted? = inner? at innerAgrees ⊢
      generalize defined : (Tree.list (element :: elements)).definition? = parts? at agrees
      cases inner? with
      | some inner =>
          rw [Tree.unquoted?_eq_some_iff.mp quoted, Tree.quoted, Tree.evaluate, Tree.demand]
          exact meets_consult unquoted (unfolds.follows_of_agrees innerAgrees)
      | none =>
          refine meets_examine_bind read ?_
          cases agrees with
          | some named bodyUnfolds =>
              cases Tree.definition?_eq_some_iff.mp defined
              simp only [Tree.heightEach_cons] at enough
              exact simulates.definition unfolds named bodyUnfolds (by omega)
          | none =>
              by_cases symbol : ∃ name, element = .symbol name
              · obtain ⟨name, rfl⟩ := symbol
                obtain ⟨linkHead, linkTail⟩ := link
                cases head with
                | symbol named =>
                    rw [Tree.evaluate_application quoted defined,
                      Tree.demand_application quoted defined]
                    exact simulates.evalApplication unfolds found named tail (by omega) (by omega)
              · have notSymbol : ∀ name, element ≠ .symbol name := by simpa using symbol
                rw [Tree.evaluate_other notSymbol, Tree.demand_other notSymbol]
                exact follows_evalApplication_of_not_symbol unfolds found head notSymbol

theorem simulates_run (host : Host) (budget : Nat) : Simulates budget (Task.run host budget) := by
  induction budget with
  | zero =>
      constructor
      · intro _ _ _ _ _ _ impossible
        exact absurd impossible (Nat.not_lt_zero _)
      · intro _ _ _ _ _ _ impossible
        exact absurd impossible (Nat.lt_irrefl 0)
  | succ budget ih =>
      constructor
      · intro machine bindings form tree unfolds formUnfolds enough
        exact ih.evalForm unfolds formUnfolds (Nat.le_of_lt_succ enough)
      · intro machine bindings record contents arguments trees _ unfolds found argumentsUnfold
        exact follows_applyLambda unfolds host found argumentsUnfold

end Simulation

/-- A form is nested no deeper than the heap may have cells, so its evaluation comes to an end. -/
theorem Machine.Unfolds.exists_run {machine : Machine} {bindings : Bindings} (host : Host)
    (unfolds : machine.Unfolds bindings)
    (bounded : machine.heap.cells.size ≤ machine.heap.maxCells) {form : Value} {tree : Tree}
    (formUnfolds : machine.heap.Unfolds form tree) :
    ∃ outcome after, Machine.run host (.eval form) machine = .ok (outcome, after) ∧
      machine.Follows Heap.Unfolds (tree.demand bindings) (tree.evaluate bindings) outcome after := by
  have enough : tree.height < machine.budget :=
    Nat.lt_of_le_of_lt (Nat.le_trans formUnfolds.height_le bounded)
      (Nat.lt_add_of_pos_right (by decide))
  exact ((simulates_run host machine.budget).eval unfolds formUnfolds enough).exists_runIn

/-- In every workspace that a run reaches and where only builtins occur, evaluating a form of the
workspace ends, and unless memory runs out it ends as evaluating the tree of the form ends: with the
same failure or with a value of the resulting tree, and with the bindings that result on trees. -/
theorem Workspace.Reachable.eval_refines_trees {host : Host} {settings : Settings}
    {workspace : Workspace} (reachable : Workspace.Reachable host settings workspace)
    (hostFree : workspace.heap.HostFree) {environment : Environment}
    (member : environment ∈ workspace.environments) {form : Value}
    (contained : workspace.heap.contains form = true) :
    ∃ tree bindings outcome after,
      workspace.heap.Unfolds form tree ∧ environment.Unfolds workspace.heap bindings ∧
      Machine.run host (.eval form) ⟨workspace.heap, environment⟩ = .ok (outcome, after) ∧
      (outcome ≠ .error .outOfMemory →
        after.heap.Agrees outcome (tree.evaluate bindings).1 ∧
          after.environment.Unfolds after.heap (tree.evaluate bindings).2) := by
  have wellFormed := reachable.wellFormed
  obtain ⟨tree, formUnfolds⟩ := wellFormed.heap.exists_unfolds contained
  obtain ⟨bindings, environmentUnfolds⟩ :=
    (wellFormed.environments environment member).exists_unfolds wellFormed.heap
  have start : Machine.Unfolds ⟨workspace.heap, environment⟩ bindings :=
    ⟨wellFormed.heap.keywords, hostFree, environmentUnfolds⟩
  obtain ⟨outcome, after, ran, follows⟩ :=
    start.exists_run host wellFormed.heap.cells_size_le formUnfolds
  refine ⟨tree, bindings, outcome, after, formUnfolds, environmentUnfolds, ran, fun inMemory => ?_⟩
  rcases follows.agrees with outOfMemory | ⟨agrees, unfolds⟩
  · exact absurd outOfMemory inMemory
  · exact ⟨agrees, unfolds.environment⟩

theorem Workspace.eval_refines_trees_with_builtins :
    ∃ heap environment bindings outcome after,
      Workspace.Reachable Host.none {} ⟨heap, [environment]⟩ ∧
      environment.Unfolds heap bindings ∧
      Machine.run Host.none (.eval (.symbol heap.keywords.definition)) ⟨heap, environment⟩ =
        .ok (outcome, after) ∧
      (outcome ≠ .error .outOfMemory → after.heap.Agrees outcome (bindings.lookup "def")) := by
  obtain ⟨heap, environment, reachable, lambdas⟩ := exists_reachable_with_builtins Host.none
  have keyword := reachable.wellFormed.heap.keywords.definition
  have contained : heap.contains (.symbol heap.keywords.definition) = true :=
    decide_eq_true (SymbolTable.lt_size_of_name? keyword)
  have hostFree := Heap.hostFree_of_builtins lambdas
  obtain ⟨tree, bindings, outcome, after, formUnfolds, unfolds, ran, agrees⟩ :=
    reachable.eval_refines_trees hostFree List.mem_cons_self contained
  cases formUnfolds.unique (.symbol keyword)
  rw [Tree.evaluate] at agrees
  exact ⟨heap, environment, bindings, outcome, after, reachable, unfolds, ran,
    fun inMemory => (agrees inMemory).1⟩

end TaggedLisp
