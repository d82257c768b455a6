import TaggedLisp.Proofs.Equality
import TaggedLisp.Proofs.Evaluation.Language
import TaggedLisp.Proofs.Evaluation.Rationed

/-! Evaluation looks at nothing that equality does not look at. Blurring everything that it is given
blurs what it comes to and nothing else: the failures are the same, and so are the names that are bound
and the cells that are left. Hence equal forms have equal values, wherever their cells lie and whatever
the errors in them say. -/

set_option autoImplicit false

namespace TaggedLisp

/-! ## Blurred trees -/

namespace Tree

@[simp] theorem blurred_eq_symbol_iff {tree : Tree} {name : String} :
    tree.blurred = .symbol name ↔ tree = .symbol name := by
  cases tree <;> simp

theorem head_blurred (tree : Tree) : tree.blurred.head = tree.head.map blurred := by
  cases tree with
  | list elements =>
      rw [blurred_list]
      cases elements <;> rfl
  | _ => simp [head, Except.map]

theorem tail_blurred (tree : Tree) : tree.blurred.tail = tree.tail.map blurred := by
  cases tree with
  | list elements =>
      rw [blurred_list]
      cases elements <;> simp [tail, Except.map]
  | _ => simp [tail, Except.map]

private theorem bind_blurred {first : Except Error Tree} {next : Tree → Except Error Tree}
    (blurs : ∀ tree, next tree.blurred = (next tree).map blurred) :
    first.map blurred >>= next = (first >>= next).map blurred := by
  cases first with
  | error => rfl
  | ok tree => exact blurs tree

theorem answer_blurred (routine : Routine) (arguments : List Tree) :
    routine.answer (arguments.map blurred) = (routine.answer arguments).map blurred := by
  have first := (Tree.list arguments).head_blurred
  rw [blurred_list] at first
  cases routine with
  | quote => exact first
  | head =>
      rw [Routine.answer, Routine.answer, first]
      exact bind_blurred head_blurred
  | tail =>
      rw [Routine.answer, Routine.answer, first]
      exact bind_blurred tail_blurred
  | host id => rfl

theorem call_blurred (callee : Tree) (name : String) (arguments : List Tree) :
    callee.blurred.call name (arguments.map blurred) = (callee.call name arguments).map blurred := by
  cases callee with
  | lambda record contents =>
      rw [blurred_lambda, Tree.call, Tree.call, Lambda.answer, Lambda.answer, List.length_map]
      split
      · exact answer_blurred _ arguments
      · rfl
  | _ => simp [Tree.call, Except.map]

end Tree

/-! ## Blurred bindings -/

namespace Bindings

def blurred (bindings : Bindings) : Bindings where
  tree? name := (bindings.tree? name).map Tree.blurred
  size := bindings.size
  capacity := bindings.capacity

variable (bindings : Bindings) (name : String)

@[simp] theorem tree?_blurred : bindings.blurred.tree? name = (bindings.tree? name).map Tree.blurred :=
  rfl

@[simp] theorem size_blurred : bindings.blurred.size = bindings.size :=
  rfl

@[simp] theorem capacity_blurred : bindings.blurred.capacity = bindings.capacity :=
  rfl

theorem lookup_blurred : bindings.blurred.lookup name = (bindings.lookup name).map Tree.blurred := by
  unfold lookup
  rw [tree?_blurred]
  cases bindings.tree? name <;> rfl

theorem bind_blurred (tree : Tree) :
    bindings.blurred.bind name tree.blurred = (bindings.bind name tree).blurred := by
  rw [bind, blurred, mk.injEq]
  refine ⟨funext fun other => ?_, rfl, rfl⟩
  simp only [bind, tree?_blurred]
  split <;> rfl

theorem define_blurred (tree : Tree) :
    bindings.blurred.define name tree.blurred =
      ((bindings.define name tree).1.map Tree.blurred, (bindings.define name tree).2.blurred) := by
  unfold define
  rw [tree?_blurred, Option.isSome_map, capacity_blurred, size_blurred, bind_blurred]
  split
  · rfl
  split
  · rfl
  · simp only [Except.map, Tree.blurred_symbol]

theorem apply_blurred (arguments : List Tree) :
    bindings.blurred.apply name (arguments.map Tree.blurred) =
      (bindings.apply name arguments).map Tree.blurred := by
  unfold apply
  rw [lookup_blurred]
  cases bindings.lookup name with
  | error => rfl
  | ok callee => exact callee.call_blurred name arguments

end Bindings

/-! ## Blurred evaluation -/

namespace Allotment

def blurred (allotment : Allotment) : Allotment where
  bindings := allotment.bindings.blurred
  cells := allotment.cells

/-- What a step of evaluation leaves, blurred. -/
def blurring {α : Type} (blur : α → α) (result : Except Error α × Allotment) :
    Except Error α × Allotment :=
  (result.1.map blur, result.2.blurred)

theorem andThen_blurred {α β : Type} {blur : α → α} {blurNext : β → β}
    {first : Except Error α × Allotment} {next other : α → Allotment → Except Error β × Allotment}
    (blurs : ∀ value allotment,
      other (blur value) allotment.blurred = blurring blurNext (next value allotment)) :
    andThen (blurring blur first) other = blurring blurNext (andThen first next) := by
  obtain ⟨outcome, allotment⟩ := first
  cases outcome with
  | error => rfl
  | ok value => exact blurs value allotment

variable (allotment : Allotment) (name : String)

theorem define_blurred (tree : Tree) :
    allotment.blurred.define name tree.blurred =
      blurring Tree.blurred (allotment.define name tree) := by
  simp only [define, blurred, Bindings.define_blurred, blurring]

theorem apply_blurred (arguments : List Tree) :
    allotment.blurred.apply name (arguments.map Tree.blurred) =
      blurring Tree.blurred (allotment.apply name arguments) := by
  simp only [apply, blurred, List.length_map, Bindings.apply_blurred]
  split <;> rfl

end Allotment

namespace Tree

open Allotment

mutual

/-- Evaluation of a blurred form with blurred bindings comes to the blurred outcome. -/
theorem evaluateWithin_blurred (tree : Tree) (allotment : Allotment) :
    tree.blurred.evaluateWithin allotment.blurred =
      blurring blurred (tree.evaluateWithin allotment) := by
  rw [evaluateWithin.eq_def tree allotment]
  split
  · rw [blurred_list, List.map_nil, evaluateWithin]
    simp [blurring, Except.map]
  · next name =>
    rw [blurred_symbol, evaluateWithin]
    exact Prod.ext (allotment.bindings.lookup_blurred name) rfl
  · next inner =>
    rw [blurred_list, List.map_cons, List.map_cons, List.map_nil, blurred_symbol, evaluateWithin]
    rfl
  · next name body =>
    rw [blurred_list, List.map_cons, List.map_cons, List.map_cons, List.map_nil, blurred_symbol,
      blurred_symbol, evaluateWithin, evaluateWithin_blurred body allotment]
    exact andThen_blurred fun tree allotment => allotment.define_blurred name tree
  · next name arguments notQuoted notDefinition =>
    rw [blurred_list, List.map_cons, blurred_symbol, evaluateWithin,
      evaluateEachWithin_blurred arguments allotment]
    · exact andThen_blurred fun trees allotment => allotment.apply_blurred name trees
    -- Blurring makes no symbol of anything else, so what is left is no quoted form and no definition.
    · intro inner single quoting
      obtain ⟨tree, rfl, -⟩ := List.map_eq_singleton_iff.mp single
      exact notQuoted tree rfl quoting
    · intro other body pair defining
      obtain ⟨first, rest, rfl, named, single⟩ := List.map_eq_cons_iff.mp pair
      obtain ⟨tree, rfl, -⟩ := List.map_eq_singleton_iff.mp single
      cases blurred_eq_symbol_iff.mp named
      exact notDefinition other tree rfl defining
  · next notEmpty notSymbol _ _ notApplication =>
    cases tree with
    | symbol name => exact absurd rfl (notSymbol name)
    | list elements =>
        cases elements with
        | nil => exact absurd rfl notEmpty
        | cons head arguments =>
            rw [blurred_list, List.map_cons, evaluateWithin_other]
            · rfl
            · intro name named
              cases blurred_eq_symbol_iff.mp named
              exact notApplication name arguments rfl
    | _ =>
        rw [evaluateWithin_meaningless (by simp) (by simp)]
        rfl

theorem evaluateEachWithin_blurred (trees : List Tree) (allotment : Allotment) :
    evaluateEachWithin (trees.map blurred) allotment.blurred =
      blurring (List.map blurred) (evaluateEachWithin trees allotment) := by
  cases trees with
  | nil =>
      rw [List.map_nil, evaluateEachWithin, evaluateEachWithin]
      rfl
  | cons tree trees =>
      rw [List.map_cons, evaluateEachWithin, evaluateEachWithin,
        evaluateWithin_blurred tree allotment]
      refine andThen_blurred fun value allotment => ?_
      rw [evaluateEachWithin_blurred trees allotment]
      exact andThen_blurred fun values allotment => rfl

end

end Tree

/-! ## Two evaluations from one machine -/

/-- The trees of two values, each in a heap of its own, are equal as far as equality looks. -/
def Heap.Alike (heap other : Heap) (value otherValue : Value) : Prop :=
  ∃ tree otherTree, heap.Unfolds value tree ∧ other.Unfolds otherValue otherTree ∧
    tree.isSame otherTree = true

/-- Two ends of evaluations that cannot be told apart: the same failure or equal values, equal numbers
of cells, and the same symbols bound to equal values. Symbols, lambdas and errors have the same
numbers in both. -/
structure Machine.Resembles (after : Machine) (outcome : Except Error Value) (otherAfter : Machine)
    (otherOutcome : Except Error Value) : Prop where
  outcome : Agreement (after.heap.Alike otherAfter.heap) outcome otherOutcome
  cells : after.heap.cells.size = otherAfter.heap.cells.size
  bindings : ∀ symbol, Option.Rel (after.heap.Alike otherAfter.heap)
    (after.environment.find? symbol) (otherAfter.environment.find? symbol)
  symbols : after.heap.symbols = otherAfter.heap.symbols
  lambdas : after.heap.lambdas = otherAfter.heap.lambdas
  errors : after.heap.errors = otherAfter.heap.errors

/-- Where a heap has no lambda of the host, no value leads to one. -/
theorem Heap.HostFree.tree {heap : Heap} (free : heap.HostFree) {value : Value} {tree : Tree}
    (unfolds : heap.Unfolds value tree) : tree.HostFree := by
  induction unfolds with
  | internal => exact .internal
  | error => exact .error
  | symbol => exact .symbol
  | lambda found => exact .lambda (free _ _ found)
  | emptyList => exact .list (by simp)
  | list _ _ _ headIH tailIH => exact .list (List.forall_mem_cons.mpr ⟨headIH, tailIH.each⟩)

theorem Heap.HostFree.isHostFree {heap : Heap} (free : heap.HostFree) (wellFormed : heap.WellFormed)
    {value : Value} (contained : heap.contains value = true) : heap.IsHostFree value := by
  obtain ⟨tree, unfolds⟩ := wellFormed.exists_unfolds contained
  exact ⟨tree, unfolds, free.tree unfolds⟩

theorem Heap.Unfolds.alike {heap other : Heap} (lambdas : other.lambdas = heap.lambdas)
    {value otherValue : Value} {tree otherTree : Tree} (unfolds : heap.Unfolds value tree)
    (otherUnfolds : other.Unfolds otherValue otherTree) (same : tree.blurred = otherTree.blurred) :
    heap.Alike other value otherValue :=
  ⟨tree, otherTree, unfolds, otherUnfolds, (unfolds.isSame_iff lambdas otherUnfolds).mpr same⟩

/-- In one heap this is what comparing the two values answers. -/
theorem Heap.WellFormed.alike_iff {heap : Heap} (wellFormed : heap.WellFormed) {left right : Value}
    (leftContained : heap.contains left = true) (rightContained : heap.contains right = true) :
    heap.Alike heap left right ↔ heap.isEqual left right = .ok true := by
  constructor
  · rintro ⟨tree, otherTree, unfolds, otherUnfolds, same⟩
    rw [unfolds.isEqual otherUnfolds, same]
  · intro equal
    obtain ⟨tree, unfolds⟩ := wellFormed.exists_unfolds leftContained
    obtain ⟨otherTree, otherUnfolds⟩ := wellFormed.exists_unfolds rightContained
    exact ⟨tree, otherTree, unfolds, otherUnfolds,
      Except.ok.inj ((unfolds.isEqual otherUnfolds).symm.trans equal)⟩

namespace Environment

variable {environment : Environment} {heap : Heap} {bindings : Bindings}

theorem Unfolds.find?_of_unnamed (unfolds : environment.Unfolds heap bindings) {symbol : Nat}
    (unnamed : heap.symbols.name? symbol = none) : environment.find? symbol = none := by
  cases found : environment.find? symbol with
  | none => rfl
  | some value =>
      obtain ⟨_, _, named, -⟩ := unfolds.total symbol value found
      cases unnamed.symm.trans named

theorem Unfolds.find?_unfolds (unfolds : environment.Unfolds heap bindings) {symbol : Nat}
    {name : String} (named : heap.symbols.name? symbol = some name) :
    Option.Rel heap.Unfolds (environment.find? symbol) (bindings.tree? name) := by
  cases found : environment.find? symbol with
  | none =>
      rw [unfolds.find?_of_none named found]
      exact .none
  | some value =>
      obtain ⟨tree, bound, valueUnfolds⟩ := unfolds.find?_of_some named found
      rw [bound]
      exact .some valueUnfolds

end Environment

namespace Machine

open Allotment

variable {machine : Machine}

theorem HostFree.of_heap {heap : Heap} {environment : Environment} (wellFormed : heap.WellFormed)
    (contained : environment.ContainedIn heap) (free : heap.HostFree) :
    HostFree ⟨heap, environment⟩ where
  heap := wellFormed
  bindings symbol value found :=
    ⟨(contained symbol value found).1,
      free.isHostFree wellFormed (contained symbol value found).2⟩

/-- Environments that stand for bindings which look the same bind the same symbols to equal values. -/
theorem Allots.alike {other : Machine} {allotment otherAllotment : Allotment}
    (allots : machine.Allots allotment) (otherAllots : other.Allots otherAllotment)
    (symbols : other.heap.symbols = machine.heap.symbols)
    (lambdas : other.heap.lambdas = machine.heap.lambdas)
    (same : allotment.bindings.blurred = otherAllotment.bindings.blurred) (symbol : Nat) :
    Option.Rel (machine.heap.Alike other.heap) (machine.environment.find? symbol)
      (other.environment.find? symbol) := by
  cases named : machine.heap.symbols.name? symbol with
  | none =>
      rw [allots.environment.find?_of_unnamed named,
        otherAllots.environment.find?_of_unnamed (symbols ▸ named)]
      exact .none
  | some name =>
      have finds := allots.environment.find?_unfolds named
      have otherFinds := otherAllots.environment.find?_unfolds (symbols ▸ named)
      have sameTree : (allotment.bindings.tree? name).map Tree.blurred =
          (otherAllotment.bindings.tree? name).map Tree.blurred := congrArg (·.tree? name) same
      generalize machine.environment.find? symbol = value at finds ⊢
      generalize other.environment.find? symbol = otherValue at otherFinds ⊢
      generalize allotment.bindings.tree? name = tree at finds sameTree
      generalize otherAllotment.bindings.tree? name = otherTree at otherFinds sameTree
      cases finds with
      | some unfolds =>
          cases otherFinds with
          | some otherUnfolds =>
              exact .some (unfolds.alike lambdas otherUnfolds (Option.some.inj sameTree))
          | none => cases sameTree
      | none =>
          cases otherFinds with
          | some => cases sameTree
          | none => exact .none

/-- Ends of evaluations that come to the same on trees, once blurred, resemble each other. -/
theorem Settles.resembles {first second : Except Error Tree × Allotment}
    {outcome otherOutcome : Except Error Value} {after otherAfter : Machine}
    (settles : machine.Settles first outcome after)
    (otherSettles : machine.Settles second otherOutcome otherAfter)
    (maxCells : after.heap.maxCells = otherAfter.heap.maxCells)
    (same : blurring Tree.blurred first = blurring Tree.blurred second) :
    after.Resembles outcome otherAfter otherOutcome := by
  obtain ⟨expected, allotment⟩ := first
  obtain ⟨otherExpected, otherAllotment⟩ := second
  obtain ⟨adds, agrees, allots⟩ := settles
  obtain ⟨otherAdds, otherAgrees, otherAllots⟩ := otherSettles
  obtain ⟨sameOutcome, sameAllotment⟩ := Prod.mk.inj same
  have symbols := otherAdds.symbols.trans adds.symbols.symm
  have lambdas := otherAdds.lambdas.trans adds.lambdas.symm
  refine ⟨?_, ?_, allots.alike otherAllots symbols lambdas (congrArg Allotment.bindings sameAllotment),
    symbols.symm, lambdas.symm, adds.errors.trans otherAdds.errors.symm⟩
  · cases agrees with
    | ok unfolds =>
        cases otherAgrees with
        | ok otherUnfolds =>
            exact .ok (unfolds.alike lambdas otherUnfolds (Except.ok.inj sameOutcome))
        | error => cases sameOutcome
    | error =>
        cases otherAgrees with
        | ok => cases sameOutcome
        | error =>
            cases sameOutcome
            exact .error
  · have left := congrArg Allotment.cells sameAllotment
    have cells := allots.cells
    have otherCells := otherAllots.cells
    simp only [blurred] at left cells otherCells
    omega

/-- Equal forms, evaluated in one machine, come to ends that resemble each other. -/
theorem HostFree.eval_resembles (host : Host) (free : machine.HostFree) {form other : Value}
    (formFree : machine.heap.IsHostFree form) (otherFree : machine.heap.IsHostFree other)
    (alike : machine.heap.Alike machine.heap form other) :
    ∃ outcome after otherOutcome otherAfter,
      machine.eval host form = .ok (outcome, after) ∧
      machine.eval host other = .ok (otherOutcome, otherAfter) ∧
      after.Resembles outcome otherAfter otherOutcome := by
  obtain ⟨tree, otherTree, unfolds, otherUnfolds, isSame⟩ := alike
  have same : tree.blurred = otherTree.blurred := (unfolds.isSame_iff rfl otherUnfolds).mp isSame
  have treeFree := formFree.tree unfolds
  have otherTreeFree := otherFree.tree otherUnfolds
  obtain ⟨allotment, allots, bindingsFree⟩ := free.exists_allots
  obtain ⟨outcome, after, ran, growth, settles⟩ :=
    allots.exists_eval host free bindingsFree unfolds treeFree
  obtain ⟨otherOutcome, otherAfter, otherRan, otherGrowth, otherSettles⟩ :=
    allots.exists_eval host free bindingsFree otherUnfolds otherTreeFree
  refine ⟨outcome, after, otherOutcome, otherAfter, ran, otherRan,
    settles.resembles otherSettles (growth.maxCells.trans otherGrowth.maxCells.symm) ?_⟩
  calc blurring Tree.blurred (tree.evaluateWithin allotment)
    _ = tree.blurred.evaluateWithin allotment.blurred := (tree.evaluateWithin_blurred _).symm
    _ = otherTree.blurred.evaluateWithin allotment.blurred := by rw [same]
    _ = blurring Tree.blurred (otherTree.evaluateWithin allotment) :=
      otherTree.evaluateWithin_blurred _

end Machine

/-- In every workspace that a run reaches and where only builtins occur, evaluation cannot tell equal
forms apart. -/
theorem Workspace.Reachable.eval_same_for_equal_forms {host : Host} {settings : Settings}
    {workspace : Workspace} (reachable : Workspace.Reachable host settings workspace)
    (hostFree : workspace.heap.HostFree) {environment : Environment}
    (member : environment ∈ workspace.environments) {form other : Value}
    (formContained : workspace.heap.contains form = true)
    (otherContained : workspace.heap.contains other = true)
    (equal : workspace.heap.isEqual form other = .ok true) :
    ∃ outcome after otherOutcome otherAfter,
      Machine.eval host form ⟨workspace.heap, environment⟩ = .ok (outcome, after) ∧
      Machine.eval host other ⟨workspace.heap, environment⟩ = .ok (otherOutcome, otherAfter) ∧
      after.Resembles outcome otherAfter otherOutcome := by
  have wellFormed := reachable.wellFormed
  have free : Machine.HostFree ⟨workspace.heap, environment⟩ :=
    .of_heap wellFormed.heap (wellFormed.environments environment member) hostFree
  exact free.eval_resembles host (hostFree.isHostFree wellFormed.heap formContained)
    (hostFree.isHostFree wellFormed.heap otherContained)
    ((wellFormed.heap.alike_iff formContained otherContained).mpr equal)

/-- Two quoted errors that are different, and equal: evaluation cannot tell them apart. -/
theorem Workspace.eval_same_for_two_quoted_errors :
    ∃ heap environment outcome after otherOutcome otherAfter,
      Workspace.Reachable Host.none {} ⟨heap, [environment]⟩ ∧
      heap.Unfolds (.list 1) (Tree.internal .undefined).quoted ∧
      heap.Unfolds (.list 3) (Tree.internal .outOfMemory).quoted ∧
      heap.isEqual (.list 1) (.list 3) = .ok true ∧
      Machine.eval Host.none (.list 1) ⟨heap, environment⟩ = .ok (outcome, after) ∧
      Machine.eval Host.none (.list 3) ⟨heap, environment⟩ = .ok (otherOutcome, otherAfter) ∧
      after.Resembles outcome otherAfter otherOutcome := by
  obtain ⟨fresh, environment, seeded, created, made, lambdas, cells, maxCells⟩ :=
    Environment.exists_new_with_builtins
  let inner (cause : InternalError) : Cell := ⟨.internal cause, .emptyList⟩
  let outer (cell : Nat) : Cell := ⟨.symbol seeded.keywords.quote, .list cell⟩
  let once : Heap := { seeded with cells := #[inner .undefined, outer 0] }
  let twice : Heap :=
    { seeded with cells := #[inner .undefined, outer 0, inner .outOfMemory, outer 2] }
  have noCells : seeded.cells = #[] := Array.eq_empty_of_size_eq_zero cells
  have quoted : seeded.quote (.internal .undefined) = (.ok (.list 1), once) := by
    simp [Heap.quote, Heap.listOf, Heap.cons, Value.isList, noCells, maxCells, once, inner, outer]
  have quotedOther : once.quote (.internal .outOfMemory) = (.ok (.list 3), twice) := by
    simp [Heap.quote, Heap.listOf, Heap.cons, Value.isList, maxCells, once, twice, inner, outer]
  have performs : ∀ {heap after : Heap} {cause : InternalError} {list : Value},
      heap.quote (.internal cause) = (.ok list, after) →
      (Workspace.machine ⟨heap, [environment]⟩ 0).perform Host.none.screened
        (.quote (.internal cause)) = .ok (.ok list, ⟨after, environment⟩) := by
    intro heap after cause list quoted
    change Except.ok ((heap.quote (.internal cause)).1,
      Machine.mk (heap.quote (.internal cause)).2 environment) = _
    rw [quoted]
  have reachable : Workspace.Reachable Host.none {} ⟨twice, [environment]⟩ :=
    .perform (.perform (.environment (.new created) made) rfl (performs quoted)) rfl
      (performs quotedOther)
  have keyword : twice.symbols.name? seeded.keywords.quote = some "quote" :=
    reachable.wellFormed.heap.keywords.quote
  have unfolds : twice.Unfolds (.list 1) (Tree.internal .undefined).quoted :=
    .list rfl (.symbol keyword) (.list rfl .internal .emptyList)
  have otherUnfolds : twice.Unfolds (.list 3) (Tree.internal .outOfMemory).quoted :=
    .list rfl (.symbol keyword) (.list rfl .internal .emptyList)
  have equal : twice.isEqual (.list 1) (.list 3) = .ok true := by
    rw [unfolds.isEqual otherUnfolds]
    rfl
  obtain ⟨outcome, after, otherOutcome, otherAfter, ran, otherRan, resembles⟩ :=
    reachable.eval_same_for_equal_forms (Heap.hostFree_of_builtins lambdas) List.mem_cons_self
      unfolds.contains otherUnfolds.contains equal
  exact ⟨twice, environment, outcome, after, otherOutcome, otherAfter, reachable, unfolds,
    otherUnfolds, equal, ran, otherRan, resembles⟩

end TaggedLisp
