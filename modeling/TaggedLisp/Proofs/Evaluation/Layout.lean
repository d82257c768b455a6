import TaggedLisp.Proofs.Evaluation.Refinement
import TaggedLisp.Proofs.Evaluation.Sources
import TaggedLisp.Proofs.Reader.Effects

/-! Evaluation does not see how values are laid out in the cells, nor what was read ahead. Two machines
are alike if their environments bind the same names to values of the same trees, where the first may
have used more cells and may know more names. Forms of the same tree then come to the same in both,
unless the first machine runs out of memory. The language guarantees this of its own routines. A
routine of the host could count cells or look for names, so it is a premise that those on record do
not; nothing else is asked of them, and they may define names and come back to the evaluator. -/

set_option autoImplicit false

namespace TaggedLisp

/-! ## Values of the same tree -/

namespace Heap

/-- Values of two heaps that stand for the same tree. -/
def SameTree (left right : Heap) (value other : Value) : Prop :=
  ∃ tree, left.Unfolds value tree ∧ right.Unfolds other tree

variable {left right leftAfter rightAfter : Heap} {value other : Value}

theorem SameTree.grow (leftGrowth : left.GrowsTo leftAfter) (rightGrowth : right.GrowsTo rightAfter)
    (same : left.SameTree right value other) : leftAfter.SameTree rightAfter value other := by
  obtain ⟨tree, unfolds, otherUnfolds⟩ := same
  exact ⟨tree, unfolds.grow leftGrowth, otherUnfolds.grow rightGrowth⟩

theorem agreement_sameTree {outcome result : Except Error Value} {expected : Except Error Tree}
    (leftAgrees : left.Agrees outcome expected) (rightAgrees : right.Agrees result expected) :
    Agreement (left.SameTree right) outcome result := by
  cases leftAgrees with
  | ok unfolds =>
      cases rightAgrees with
      | ok otherUnfolds => exact .ok ⟨_, unfolds, otherUnfolds⟩
  | error =>
      cases rightAgrees with
      | error => exact .error

theorem forall₂_sameTree_iff {values others : List Value} :
    List.Forall₂ (left.SameTree right) values others ↔
      ∃ trees, List.Forall₂ left.Unfolds values trees ∧
        List.Forall₂ right.Unfolds others trees := by
  constructor
  · intro each
    induction each with
    | nil => exact ⟨[], .nil, .nil⟩
    | cons same _ ih =>
        obtain ⟨tree, unfolds, otherUnfolds⟩ := same
        obtain ⟨trees, each, otherEach⟩ := ih
        exact ⟨tree :: trees, .cons unfolds each, .cons otherUnfolds otherEach⟩
  · intro both
    obtain ⟨trees, each, otherEach⟩ := both
    induction each generalizing others with
    | nil =>
        cases otherEach
        exact .nil
    | cons unfolds _ ih =>
        cases otherEach with
        | cons otherUnfolds otherEach => exact .cons ⟨_, unfolds, otherUnfolds⟩ (ih otherEach)

theorem SameTree.head (same : left.SameTree right value other) :
    ∃ outcome result, left.head value = .ok outcome ∧ right.head other = .ok result ∧
      Agreement (left.SameTree right) outcome result := by
  obtain ⟨tree, unfolds, otherUnfolds⟩ := same
  obtain ⟨outcome, read, agrees⟩ := unfolds.head
  obtain ⟨result, otherRead, otherAgrees⟩ := otherUnfolds.head
  exact ⟨outcome, result, read, otherRead, agreement_sameTree agrees otherAgrees⟩

theorem SameTree.tail (same : left.SameTree right value other) :
    ∃ outcome result, left.tail value = .ok outcome ∧ right.tail other = .ok result ∧
      Agreement (left.SameTree right) outcome result := by
  obtain ⟨tree, unfolds, otherUnfolds⟩ := same
  obtain ⟨outcome, read, agrees⟩ := unfolds.tail
  obtain ⟨result, otherRead, otherAgrees⟩ := otherUnfolds.tail
  exact ⟨outcome, result, read, otherRead, agreement_sameTree agrees otherAgrees⟩

theorem SameTree.toList (same : left.SameTree right value other) :
    ∃ outcome result, left.toList value = .ok outcome ∧ right.toList other = .ok result ∧
      Agreement (List.Forall₂ (left.SameTree right)) outcome result := by
  obtain ⟨tree, unfolds, otherUnfolds⟩ := same
  cases tree with
  | list trees =>
      obtain ⟨values, each, -, listed, -⟩ := unfolds.exists_elements
      obtain ⟨others, otherEach, -, otherListed, -⟩ := otherUnfolds.exists_elements
      exact ⟨_, _, listed, otherListed, .ok (forall₂_sameTree_iff.mpr ⟨trees, each, otherEach⟩)⟩
  | _ =>
      cases unfolds
      cases otherUnfolds
      exact ⟨_, _, rfl, rfl, .error⟩

theorem SameTree.count (same : left.SameTree right value other) :
    ∃ outcome result, left.count value = .ok outcome ∧ right.count other = .ok result ∧
      Agreement Eq outcome result := by
  obtain ⟨outcome, result, listed, otherListed, agrees⟩ := same.toList
  refine ⟨outcome.map List.length, result.map List.length, ?_, ?_, ?_⟩
  · rw [Heap.count, listed]
    rfl
  · rw [Heap.count, otherListed]
    rfl
  · cases agrees with
    | ok each => exact .ok each.length_eq
    | error => exact .error

/-- Growth by which no name becomes a symbol. -/
structure GrowsUnnamed (before after : Heap) : Prop where
  growsTo : before.GrowsTo after
  symbols : after.symbols = before.symbols

theorem GrowsUnnamed.refl (heap : Heap) : heap.GrowsUnnamed heap :=
  ⟨.refl heap, rfl⟩

theorem GrowsUnnamed.trans {first second third : Heap} (left : first.GrowsUnnamed second)
    (right : second.GrowsUnnamed third) : first.GrowsUnnamed third :=
  ⟨left.growsTo.trans right.growsTo, right.symbols.trans left.symbols⟩

/-- Lambdas on record stand for routines of the language or for these of the host. -/
def OffersOnly (heap : Heap) (routines : Set Nat) : Prop :=
  ∀ (record : Nat) (contents : Lambda), heap.lambdas[record]? = some contents →
    ∀ id, contents.routine = .host id → id ∈ routines

theorem OffersOnly.of_lambdas {before after : Heap} {routines : Set Nat}
    (same : after.lambdas = before.lambdas) (offersOnly : before.OffersOnly routines) :
    after.OffersOnly routines := by
  intro record contents found
  rw [same] at found
  exact offersOnly record contents found

theorem HostFree.offersOnly {heap : Heap} (hostFree : heap.HostFree) (routines : Set Nat) :
    heap.OffersOnly routines := by
  intro record contents found id provided
  exact absurd provided (hostFree record contents found id)

end Heap

/-! ## Machines that are alike -/

/-- Machines with the same names bound to values of the same trees, and the same records. The left one
has used up some more cells, and may know names that the right one does not. -/
structure Machine.Alike (routines : Set Nat) (spare : Nat) (left right : Machine) : Prop where
  leftKeywords : left.heap.KeywordsNamed
  rightKeywords : right.heap.KeywordsNamed
  withinLimits : left.heap.WithinLimits
  maxCells : right.heap.maxCells = left.heap.maxCells
  cells : left.heap.cells.size = right.heap.cells.size + spare
  symbols : right.heap.symbols.GrowsTo left.heap.symbols
  lambdas : right.heap.lambdas = left.heap.lambdas
  errors : right.heap.errors = left.heap.errors
  offersOnly : left.heap.OffersOnly routines
  environments : ∃ bindings, left.environment.Unfolds left.heap bindings ∧
    right.environment.Unfolds right.heap bindings

/-- How computations end in machines that are alike: with the same failure or with related results, and
in machines that are alike again and know no new names. -/
structure Machine.EndAlike {α β : Type} (routines : Set Nat) (spare : Nat) (left right : Machine)
    (related : Heap → Heap → α → β → Prop) (outcome : Except Error α) (after : Machine)
    (result : Except Error β) (final : Machine) : Prop where
  agrees : Agreement (related after.heap final.heap) outcome result
  alike : after.Alike routines spare final
  left : left.heap.GrowsUnnamed after.heap
  right : right.heap.GrowsUnnamed final.heap

/-- However the first computation ends in the left machine, except for want of memory, the second one
ends like that in the right machine. -/
def Evaluation.Mirrors {α β : Type} (routines : Set Nat) (spare : Nat) (left right : Machine)
    (related : Heap → Heap → α → β → Prop) (computation : Evaluation α) (other : Evaluation β) :
    Prop :=
  ∀ outcome after, computation.runIn left = .ok (outcome, after) → outcome ≠ .error .outOfMemory →
    ∃ result final, other.runIn right = .ok (result, final) ∧
      Machine.EndAlike routines spare left right related outcome after result final

/-- Tasks that cannot tell machines apart that are alike. -/
structure Evaluation.BlindTasks (routines : Set Nat) (recur : Task → Evaluation Value) : Prop where
  eval : ∀ {spare : Nat} {left right : Machine} {form other : Value},
    left.Alike routines spare right → left.heap.SameTree right.heap form other →
    Mirrors routines spare left right Heap.SameTree (recur (.eval form)) (recur (.eval other))
  apply : ∀ {spare : Nat} {left right : Machine} {record : Nat} {arguments others : Value},
    left.Alike routines spare right → left.heap.SameTree right.heap arguments others →
    Mirrors routines spare left right Heap.SameTree (recur (.apply record arguments))
      (recur (.apply record others))

/-- These routines of the host cannot tell machines apart that are alike, as long as the tasks that
they come back to the evaluator with cannot do so. -/
def Host.IsBlind (host : Host) (routines : Set Nat) : Prop :=
  ∀ id ∈ routines, ∀ recur, Evaluation.BlindTasks routines recur →
    ∀ {spare : Nat} {left right : Machine} {arguments others : Value},
      left.Alike routines spare right → left.heap.SameTree right.heap arguments others →
      Evaluation.Mirrors routines spare left right Heap.SameTree
        ((host.routine id arguments).run recur) ((host.routine id others).run recur)

namespace Machine

variable {routines : Set Nat} {spare : Nat} {left right : Machine}

theorem Alike.budget (alike : left.Alike routines spare right) : right.budget = left.budget := by
  rw [Machine.budget, Machine.budget, alike.maxCells]

theorem Alike.eq_of_symbol (alike : left.Alike routines spare right) {symbol other : Nat}
    {name : String} (named : left.heap.symbols.name? symbol = some name)
    (otherNamed : right.heap.symbols.name? other = some name) : other = symbol :=
  SymbolTable.eq_of_name?_eq (alike.symbols.names otherNamed) named

/-- Machines stay alike if each is given as many cells as the other. -/
theorem Alike.addCells (alike : left.Alike routines spare right) {leftHeap rightHeap : Heap}
    {count : Nat} (leftAdds : left.heap.AddsCells leftHeap)
    (rightAdds : right.heap.AddsCells rightHeap) (leftGrowth : left.heap.GrowsTo leftHeap)
    (rightGrowth : right.heap.GrowsTo rightHeap)
    (leftSize : leftHeap.cells.size = left.heap.cells.size + count)
    (rightSize : rightHeap.cells.size = right.heap.cells.size + count) :
    Alike routines spare { left with heap := leftHeap } { right with heap := rightHeap } where
  leftKeywords := alike.leftKeywords.grow leftGrowth
  rightKeywords := alike.rightKeywords.grow rightGrowth
  withinLimits := leftAdds.withinLimits alike.withinLimits
  maxCells := by
    rw [rightGrowth.maxCells, leftGrowth.maxCells, alike.maxCells]
  cells := by
    have cells := alike.cells
    simp only
    omega
  symbols := by
    rw [leftAdds.symbols, rightAdds.symbols]
    exact alike.symbols
  lambdas := by
    rw [leftAdds.lambdas, rightAdds.lambdas, alike.lambdas]
  errors := by
    rw [leftAdds.errors, rightAdds.errors, alike.errors]
  offersOnly := alike.offersOnly.of_lambdas leftAdds.lambdas
  environments := by
    obtain ⟨bindings, unfolds, otherUnfolds⟩ := alike.environments
    exact ⟨bindings, unfolds.grow leftGrowth, otherUnfolds.grow rightGrowth⟩

theorem Alike.ends {α β : Type} (alike : left.Alike routines spare right)
    {related : Heap → Heap → α → β → Prop} {outcome : Except Error α} {result : Except Error β}
    (agrees : Agreement (related left.heap right.heap) outcome result) :
    EndAlike routines spare left right related outcome left result right :=
  ⟨agrees, alike, .refl _, .refl _⟩

theorem EndAlike.of_grown {α β : Type} {related : Heap → Heap → α → β → Prop}
    {outcome : Except Error α} {result : Except Error β} {middle other after final : Machine}
    (leftGrowth : left.heap.GrowsUnnamed middle.heap)
    (rightGrowth : right.heap.GrowsUnnamed other.heap)
    (ends : EndAlike routines spare middle other related outcome after result final) :
    EndAlike routines spare left right related outcome after result final :=
  ⟨ends.agrees, ends.alike, leftGrowth.trans ends.left, rightGrowth.trans ends.right⟩

end Machine

namespace Evaluation

open Machine

section Rules

variable {α β γ δ : Type} {routines : Set Nat} {spare : Nat} {left right : Machine}
  {related : Heap → Heap → α → β → Prop} {relatedNext : Heap → Heap → γ → δ → Prop}

theorem mirrors_of_runIn {computation : Evaluation α} {other : Evaluation β}
    {outcome : Except Error α} {after : Machine} {result : Except Error β} {final : Machine}
    (ran : computation.runIn left = .ok (outcome, after))
    (otherRan : other.runIn right = .ok (result, final))
    (ends : EndAlike routines spare left right related outcome after result final) :
    Mirrors routines spare left right related computation other := by
  intro _ _ leftRan _
  cases ran.symm.trans leftRan
  exact ⟨result, final, otherRan, ends⟩

theorem Mirrors.bind {computation : Evaluation α} {other : Evaluation β} {next : α → Evaluation γ}
    {otherNext : β → Evaluation δ}
    (first : Mirrors routines spare left right related computation other)
    (rest : ∀ value otherValue after final, after.Alike routines spare final →
      left.heap.GrowsTo after.heap → right.heap.GrowsTo final.heap →
      related after.heap final.heap value otherValue →
      Mirrors routines spare after final relatedNext (next value) (otherNext otherValue)) :
    Mirrors routines spare left right relatedNext (computation >>= next) (other >>= otherNext) := by
  intro outcome after ran inMemory
  rcases runIn_bind_of_ok ran with ⟨value, middle, firstRan, restRan⟩ | ⟨error, failed, rfl⟩
  · obtain ⟨result, otherMiddle, otherRan, ends⟩ := first _ _ firstRan (by simp)
    cases result with
    | error => cases ends.agrees
    | ok otherValue =>
        cases ends.agrees with
        | ok holds =>
            obtain ⟨result, final, finalRan, laterEnds⟩ :=
              rest value otherValue middle otherMiddle ends.alike ends.left.growsTo
                ends.right.growsTo holds _ _ restRan inMemory
            refine ⟨result, final, ?_, laterEnds.of_grown ends.left ends.right⟩
            rw [runIn_bind, otherRan]
            exact finalRan
  · obtain ⟨result, final, otherRan, ends⟩ := first _ _ failed (by simpa using inMemory)
    cases result with
    | ok => cases ends.agrees
    | error otherError =>
        cases ends.agrees with
        | error =>
            refine ⟨.error error, final, ?_, ⟨.error, ends.alike, ends.left, ends.right⟩⟩
            rw [runIn_bind, otherRan]

theorem mirrors_pure (alike : left.Alike routines spare right) {value : α} {otherValue : β}
    (holds : related left.heap right.heap value otherValue) :
    Mirrors routines spare left right related (pure value) (pure otherValue) :=
  mirrors_of_runIn rfl rfl (alike.ends (.ok holds))

theorem mirrors_throw (alike : left.Alike routines spare right) (error : Error) :
    Mirrors routines spare left right related (throw error) (throw error) :=
  mirrors_of_runIn rfl rfl (alike.ends .error)

theorem mirrors_consult (alike : left.Alike routines spare right)
    {read : Machine → Checked (Except Error α)} {otherRead : Machine → Checked (Except Error β)}
    (reads : ∃ outcome result, read left = .ok outcome ∧ otherRead right = .ok result ∧
      Agreement (related left.heap right.heap) outcome result) :
    Mirrors routines spare left right related (consult read) (consult otherRead) := by
  obtain ⟨outcome, result, found, otherFound, agrees⟩ := reads
  refine mirrors_of_runIn ?_ ?_ (alike.ends agrees)
  · rw [consult, runIn_ofFunction, found]
    rfl
  · rw [consult, runIn_ofFunction, otherFound]
    rfl

theorem mirrors_examine_bind {read : Machine → Checked α} {otherRead : Machine → Checked β}
    {next : α → Evaluation γ} {otherNext : β → Evaluation δ}
    (rest : ∀ value, read left = .ok value → ∃ otherValue, otherRead right = .ok otherValue ∧
      Mirrors routines spare left right relatedNext (next value) (otherNext otherValue)) :
    Mirrors routines spare left right relatedNext (examine read >>= next)
      (examine otherRead >>= otherNext) := by
  intro outcome after ran inMemory
  obtain ⟨value, found, nextRan⟩ := runIn_examine_bind ran
  obtain ⟨otherValue, otherFound, mirrors⟩ := rest value found
  obtain ⟨result, final, otherRan, ends⟩ := mirrors _ _ nextRan inMemory
  refine ⟨result, final, ?_, ends⟩
  rw [runIn_bind, examine, runIn_ofFunction, otherFound]
  exact otherRan

theorem mirrors_lookup (alike : left.Alike routines spare right) {symbol : Nat} {name : String}
    (named : right.heap.symbols.name? symbol = some name) :
    Mirrors routines spare left right Heap.SameTree (lookup symbol) (lookup symbol) := by
  obtain ⟨bindings, unfolds, otherUnfolds⟩ := alike.environments
  obtain ⟨outcome, found, agrees⟩ := unfolds.lookup (alike.symbols.names named)
  obtain ⟨result, otherFound, otherAgrees⟩ := otherUnfolds.lookup named
  exact mirrors_consult alike
    ⟨outcome, result, found, otherFound, Heap.agreement_sameTree agrees otherAgrees⟩

theorem mirrors_define (alike : left.Alike routines spare right) {symbol : Nat} {name : String}
    {value other : Value} (named : right.heap.symbols.name? symbol = some name)
    (same : left.heap.SameTree right.heap value other) :
    Mirrors routines spare left right Heap.SameTree (define symbol value) (define symbol other) := by
  obtain ⟨bindings, unfolds, otherUnfolds⟩ := alike.environments
  obtain ⟨tree, valueUnfolds, otherValueUnfolds⟩ := same
  obtain ⟨outcome, environment, defined, agrees, after⟩ :=
    unfolds.define (alike.symbols.names named) valueUnfolds
  obtain ⟨result, otherEnvironment, otherDefined, otherAgrees, otherAfter⟩ :=
    otherUnfolds.define named otherValueUnfolds
  have alike : Alike routines spare { left with environment }
      { right with environment := otherEnvironment } :=
    { alike with environments := ⟨_, after, otherAfter⟩ }
  have ends : EndAlike routines spare left right Heap.SameTree outcome { left with environment }
      result { right with environment := otherEnvironment } :=
    ⟨Heap.agreement_sameTree agrees otherAgrees, alike, .refl _, .refl _⟩
  refine mirrors_of_runIn ?_ ?_ ends
  · rw [define, runIn_ofFunction, defined]
    rfl
  · rw [define, runIn_ofFunction, otherDefined]
    rfl

/-- What is built in the left machine can be built in the right one, which has no less room. -/
theorem mirrors_allocate (alike : left.Alike routines spare right)
    {build otherBuild : Heap → Except Error Value × Heap} {cells : Nat} {tree : Tree}
    (builds : left.heap.Builds cells tree (build left.heap))
    (otherBuilds : right.heap.Builds cells tree (otherBuild right.heap)) :
    Mirrors routines spare left right Heap.SameTree (allocate build) (allocate otherBuild) := by
  intro outcome after ran inMemory
  obtain ⟨rfl, rfl⟩ := runIn_allocate ran
  obtain ⟨leftGrowth, leftAdds, built⟩ := builds
  obtain ⟨rightGrowth, rightAdds, otherBuilt⟩ := otherBuilds
  rcases built with ⟨full, -⟩ | ⟨value, same, unfolds, size⟩
  · exact absurd full inMemory
  · rcases otherBuilt with ⟨-, noRoom⟩ | ⟨other, otherSame, otherUnfolds, otherSize⟩
    · have bounded := leftAdds.bounded alike.withinLimits.cells
      have ahead := alike.cells
      rw [leftGrowth.maxCells] at bounded
      rw [alike.maxCells] at noRoom
      omega
    · have alike := alike.addCells leftAdds rightAdds leftGrowth rightGrowth size otherSize
      refine ⟨.ok other, { right with heap := (otherBuild right.heap).2 }, ?_, ?_, alike,
        ⟨leftGrowth, leftAdds.symbols⟩, ⟨rightGrowth, rightAdds.symbols⟩⟩
      · rw [← otherSame]
        rfl
      · rw [same]
        exact .ok ⟨_, unfolds, otherUnfolds⟩

theorem mirrors_listOf (alike : left.Alike routines spare right) {values others : List Value}
    (each : List.Forall₂ (left.heap.SameTree right.heap) values others) :
    Mirrors routines spare left right Heap.SameTree (allocate (·.listOf values))
      (allocate (·.listOf others)) := by
  obtain ⟨trees, unfoldEach, otherUnfoldEach⟩ := Heap.forall₂_sameTree_iff.mp each
  exact mirrors_allocate alike (Heap.listOf_builds unfoldEach) (Heap.listOf_builds otherUnfoldEach)

end Rules

section Tasks

variable {routines : Set Nat} {spare : Nat} {left right : Machine}
  {recur : Task → Evaluation Value}

theorem BlindTasks.mapM (blind : BlindTasks routines recur) (alike : left.Alike routines spare right)
    {forms others : List Value}
    (each : List.Forall₂ (left.heap.SameTree right.heap) forms others) :
    Mirrors routines spare left right (fun left right => List.Forall₂ (left.SameTree right))
      (forms.mapM fun form => recur (.eval form)) (others.mapM fun form => recur (.eval form)) := by
  induction forms generalizing left right others with
  | nil =>
      cases each
      exact mirrors_pure alike .nil
  | cons form forms ih =>
      cases each with
      | cons same each =>
          rw [List.mapM_cons, List.mapM_cons]
          refine (blind.eval alike same).bind
            fun value other after final alike leftGrowth rightGrowth valueSame => ?_
          have each := each.imp fun _ _ same => Heap.SameTree.grow leftGrowth rightGrowth same
          refine (ih alike each).bind
            fun values others last otherLast alike leftGrowth rightGrowth valuesSame => ?_
          exact mirrors_pure alike (.cons (valueSame.grow leftGrowth rightGrowth) valuesSame)

theorem BlindTasks.call (blind : BlindTasks routines recur) (alike : left.Alike routines spare right)
    {head : Nat} {name : String} (named : right.heap.symbols.name? head = some name)
    {arguments others : Value} (same : left.heap.SameTree right.heap arguments others) :
    Mirrors routines spare left right Heap.SameTree
      (do
        match ← lookup head with
        | .lambda record => recur (.apply record arguments)
        | _ => throw (.notCallable (← examine (·.heap.name head))))
      (do
        match ← lookup head with
        | .lambda record => recur (.apply record others)
        | _ => throw (.notCallable (← examine (·.heap.name head)))) := by
  refine (mirrors_lookup alike named).bind
    fun value other after final alike leftGrowth rightGrowth valueSame => ?_
  have named := rightGrowth.symbols.names named
  have notCallable : Mirrors routines spare after final Heap.SameTree
      (do throw (.notCallable (← examine (·.heap.name head))))
      (do throw (.notCallable (← examine (·.heap.name head)))) := by
    refine mirrors_examine_bind fun found same => ⟨_, Heap.name_of_some named, ?_⟩
    cases (Heap.name_of_some (alike.symbols.names named)).symm.trans same
    exact mirrors_throw alike _
  obtain ⟨tree, unfolds, otherUnfolds⟩ := valueSame
  cases unfolds with
  | lambda =>
      cases otherUnfolds with
      | lambda => exact blind.apply alike (same.grow leftGrowth rightGrowth)
  | _ =>
      cases otherUnfolds
      exact notCallable

theorem BlindTasks.evalApplication (blind : BlindTasks routines recur)
    (alike : left.Alike routines spare right) {cell otherCell : Nat} {link otherLink : Cell}
    (found : left.heap.cells[cell]? = some link)
    (otherFound : right.heap.cells[otherCell]? = some otherLink)
    (head : left.heap.SameTree right.heap link.head otherLink.head)
    (tail : left.heap.SameTree right.heap link.tail otherLink.tail) :
    Mirrors routines spare left right Heap.SameTree (evalApplication recur cell)
      (evalApplication recur otherCell) := by
  refine mirrors_examine_bind fun read same => ⟨_, Heap.cell_of_some otherFound, ?_⟩
  cases (Heap.cell_of_some found).symm.trans same
  obtain ⟨linkHead, linkTail⟩ := link
  obtain ⟨otherHead, otherTail⟩ := otherLink
  obtain ⟨tree, unfolds, otherUnfolds⟩ := head
  cases unfolds with
  | symbol named =>
      cases otherUnfolds with
      | symbol otherNamed =>
          cases alike.eq_of_symbol named otherNamed
          have listed : Mirrors routines spare left right
              (fun left right => List.Forall₂ (left.SameTree right))
              (consult (·.heap.toList linkTail)) (consult (·.heap.toList otherTail)) :=
            mirrors_consult alike tail.toList
          refine listed.bind fun forms others after final alike leftGrowth rightGrowth each => ?_
          have otherNamed := rightGrowth.symbols.names otherNamed
          refine (blind.mapM alike each).bind
            fun values others after final alike leftGrowth rightGrowth each => ?_
          have otherNamed := rightGrowth.symbols.names otherNamed
          refine (mirrors_listOf alike each).bind
            fun list other after final alike leftGrowth rightGrowth same => ?_
          exact blind.call alike (rightGrowth.symbols.names otherNamed) same
  | _ =>
      cases otherUnfolds
      exact mirrors_throw alike _

theorem BlindTasks.evalForm (blind : BlindTasks routines recur)
    (alike : left.Alike routines spare right) {form other : Value}
    (same : left.heap.SameTree right.heap form other) :
    Mirrors routines spare left right Heap.SameTree (evalForm recur form)
      (evalForm recur other) := by
  obtain ⟨tree, unfolds, otherUnfolds⟩ := same
  unfold TaggedLisp.evalForm
  cases unfolds with
  | emptyList =>
      cases otherUnfolds with
      | emptyList => exact mirrors_pure alike ⟨_, .emptyList, .emptyList⟩
  | symbol named =>
      cases otherUnfolds with
      | symbol otherNamed =>
          cases alike.eq_of_symbol named otherNamed
          exact mirrors_lookup alike otherNamed
  | internal | error | lambda =>
      cases otherUnfolds
      exact mirrors_throw alike _
  | @list cell link element elements found head tail =>
      cases otherUnfolds with
      | @list otherCell otherLink _ _ otherFound otherHead otherTail =>
          have whole := Heap.Unfolds.list found head tail
          have otherWhole := Heap.Unfolds.list otherFound otherHead otherTail
          refine mirrors_examine_bind fun read quoted =>
            ⟨_, otherWhole.isQuoted alike.rightKeywords, ?_⟩
          cases (whole.isQuoted alike.leftKeywords).symm.trans quoted
          split
          · obtain ⟨outcome, unquoted, agrees⟩ := whole.unquote alike.leftKeywords
            obtain ⟨result, otherUnquoted, otherAgrees⟩ := otherWhole.unquote alike.rightKeywords
            exact mirrors_consult alike
              ⟨outcome, result, unquoted, otherUnquoted, Heap.agreement_sameTree agrees otherAgrees⟩
          · obtain ⟨definition, defined, agrees⟩ := whole.definition? alike.leftKeywords
            obtain ⟨otherDefinition, otherDefined, otherAgrees⟩ :=
              otherWhole.definition? alike.rightKeywords
            refine mirrors_examine_bind fun read same => ⟨_, otherDefined, ?_⟩
            cases defined.symm.trans same
            generalize (Tree.list (element :: elements)).definition? = parts at agrees otherAgrees
            cases agrees with
            | none =>
                cases otherAgrees
                exact blind.evalApplication alike found otherFound ⟨_, head, otherHead⟩
                  ⟨_, tail, otherTail⟩
            | some named bodyUnfolds =>
                cases otherAgrees with
                | some otherNamed otherBodyUnfolds =>
                    cases alike.eq_of_symbol named otherNamed
                    refine (blind.eval alike ⟨_, bodyUnfolds, otherBodyUnfolds⟩).bind
                      fun value other after final alike leftGrowth rightGrowth same => ?_
                    exact mirrors_define alike (rightGrowth.symbols.names otherNamed) same

theorem BlindTasks.routine (blind : BlindTasks routines recur) {host : Host}
    (hostBlind : host.IsBlind routines) (alike : left.Alike routines spare right)
    {routine : Routine} (provided : ∀ id, routine = .host id → id ∈ routines)
    {arguments others : Value} (same : left.heap.SameTree right.heap arguments others) :
    Mirrors routines spare left right Heap.SameTree (routine.run host recur arguments)
      (routine.run host recur others) := by
  unfold Routine.run
  cases routine with
  | quote => exact mirrors_consult alike same.head
  | head =>
      refine (mirrors_consult alike same.head).bind fun _ _ _ _ alike _ _ same => ?_
      exact mirrors_consult alike same.head
  | tail =>
      refine (mirrors_consult alike same.head).bind fun _ _ _ _ alike _ _ same => ?_
      exact mirrors_consult alike same.tail
  | host id => exact hostBlind id (provided id rfl) recur blind alike same

theorem BlindTasks.applyLambda (blind : BlindTasks routines recur) {host : Host}
    (hostBlind : host.IsBlind routines) (alike : left.Alike routines spare right) (record : Nat)
    {arguments others : Value} (same : left.heap.SameTree right.heap arguments others) :
    Mirrors routines spare left right Heap.SameTree (applyLambda host recur record arguments)
      (applyLambda host recur record others) := by
  refine mirrors_examine_bind fun contents read => ⟨contents, ?_, ?_⟩
  · rw [← read, Heap.lambda, Heap.lambda, alike.lambdas]
  · have provided := alike.offersOnly record contents (Heap.some_of_lambda read)
    have counted : Mirrors routines spare left right (fun _ _ => Eq)
        (consult (·.heap.count arguments)) (consult (·.heap.count others)) :=
      mirrors_consult alike same.count
    refine counted.bind fun given _ after final alike leftGrowth rightGrowth sameCount => ?_
    subst sameCount
    split
    · exact blind.routine hostBlind alike provided (same.grow leftGrowth rightGrowth)
    · exact mirrors_throw alike _

/-- However deep the evaluator may nest calls, it is blind if the routines of the host are. -/
theorem blindTasks_run {host : Host} (hostBlind : host.IsBlind routines) (budget : Nat) :
    BlindTasks routines (Task.run host budget) := by
  induction budget with
  | zero =>
      constructor
      · intro _ _ _ _ _ _ _ outcome after ran
        cases ran
      · intro _ _ _ _ _ _ _ _ outcome after ran
        cases ran
  | succ budget ih =>
      constructor
      · intro _ _ _ _ _ alike same
        exact ih.evalForm alike same
      · intro _ _ _ record _ _ alike same
        exact ih.applyLambda hostBlind alike record same

end Tasks

end Evaluation

/-! ## Forms -/

namespace Machine

variable {host : Host} {routines : Set Nat} {spare : Nat} {left right after : Machine}

theorem Alike.eval (alike : left.Alike routines spare right) (blind : host.IsBlind routines)
    {form other : Value} (same : left.heap.SameTree right.heap form other)
    {outcome : Except Error Value} (ran : left.eval host form = .ok (outcome, after))
    (inMemory : outcome ≠ .error .outOfMemory) :
    ∃ result final, right.eval host other = .ok (result, final) ∧
      EndAlike routines spare left right Heap.SameTree outcome after result final := by
  obtain ⟨tree, unfolds, otherUnfolds⟩ := same
  rw [Machine.eval, if_pos unfolds.contains] at ran
  rw [Machine.eval, if_pos otherUnfolds.contains, Machine.run, alike.budget]
  exact (Evaluation.blindTasks_run blind left.budget).eval alike ⟨tree, unfolds, otherUnfolds⟩
    outcome after ran inMemory

/-- Outcomes of forms in two heaps: the same failures, or values of the same tree. -/
abbrev SameOutcomes (left right : Heap) :
    List (Except Error Value) → List (Except Error Value) → Prop :=
  List.Forall₂ (Agreement (left.SameTree right))

theorem SameOutcomes.grow {left right leftAfter rightAfter : Heap}
    (leftGrowth : left.GrowsTo leftAfter) (rightGrowth : right.GrowsTo rightAfter)
    {outcomes results : List (Except Error Value)} (same : SameOutcomes left right outcomes results) :
    SameOutcomes leftAfter rightAfter outcomes results := by
  refine same.imp fun _ _ agrees => ?_
  cases agrees with
  | ok same => exact .ok (same.grow leftGrowth rightGrowth)
  | error => exact .error

/-- Forms of the same trees come to the same one after the other. -/
theorem Alike.evalEach (alike : left.Alike routines spare right) (blind : host.IsBlind routines)
    {forms others : List Value} (each : List.Forall₂ (left.heap.SameTree right.heap) forms others)
    {outcomes : List (Except Error Value)} (ran : left.evalEach host forms = .ok (outcomes, after))
    (inMemory : .error .outOfMemory ∉ outcomes) :
    ∃ results final, right.evalEach host others = .ok (results, final) ∧
      EndAlike routines spare left right SameOutcomes (.ok outcomes) after (.ok results) final := by
  induction forms generalizing left right others outcomes with
  | nil =>
      cases each
      cases ran
      exact ⟨[], right, rfl, alike.ends (.ok .nil)⟩
  | cons form forms ih =>
      cases each with
      | @cons _ other _ others same each =>
          rcases evalEach_cons_eq_ok_iff.mp ran with
            ⟨error, first, rfl⟩ | ⟨value, middle, later, first, rest, rfl⟩
          · have enough : (.error error : Except Error Value) ≠ .error .outOfMemory := by
              intro full
              exact inMemory (full ▸ List.mem_cons_self)
            obtain ⟨result, final, otherFirst, ends⟩ := alike.eval blind same first enough
            cases result with
            | ok => cases ends.agrees
            | error otherError =>
                exact ⟨_, final, evalEach_cons_eq_ok_iff.mpr (.inl ⟨otherError, otherFirst, rfl⟩),
                  .ok (.cons ends.agrees .nil), ends.alike, ends.left, ends.right⟩
          · obtain ⟨result, otherMiddle, otherFirst, ends⟩ := alike.eval blind same first (by simp)
            cases result with
            | error => cases ends.agrees
            | ok otherValue =>
                have each := each.imp fun _ _ same =>
                  Heap.SameTree.grow ends.left.growsTo ends.right.growsTo same
                obtain ⟨results, final, otherRest, laterEnds⟩ :=
                  ih ends.alike each rest fun full => inMemory (List.mem_cons_of_mem _ full)
                have otherRan := evalEach_cons_eq_ok_iff.mpr
                  (.inr ⟨otherValue, otherMiddle, results, otherFirst, otherRest, rfl⟩)
                refine ⟨_, final, otherRan, ?_, laterEnds.alike, ends.left.trans laterEnds.left,
                  ends.right.trans laterEnds.right⟩
                cases ends.agrees with
                | ok same =>
                    cases laterEnds.agrees with
                    | ok sameLater =>
                        exact .ok (.cons (.ok (same.grow laterEnds.left.growsTo
                          laterEnds.right.growsTo)) sameLater)

end Machine

end TaggedLisp
