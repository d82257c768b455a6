import TaggedLisp.Proofs.Evaluation.Refinement
import TaggedLisp.Proofs.Evaluation.Sources
import TaggedLisp.Proofs.Reader.Effects

/-! Evaluation with the routines of the language only. It allocates nothing but cells, it always comes
to an end, and the forms of a source do one after the other what they do on trees, as long as there
is room for the cells that they spend. -/

set_option autoImplicit false

namespace TaggedLisp

/-! ## Nothing but cells is allocated -/

/-- Tasks and applications are all that evaluation consists of where the host has no part in it. -/
def Activity.isInner : Activity → Bool
  | .task _ | .arguments .. => true
  | .operation _ | .script _ => false

theorem Performs.addsCells {host : Host} {activity : Activity} {machine after : Machine}
    {log : List Definition} {outcome : Except Error Value}
    (performs : Performs host activity machine log outcome after)
    (inner : activity.isInner = true) (hostFree : machine.heap.HostFree) :
    machine.heap.AddsCells after.heap := by
  induction performs with
  | emptyList | symbol | meaningless | quoted | headless | improper | notAList | arityMismatch
  | builtin => exact .refl _
  | bodyFailed _ _ _ ih | definition _ _ _ _ ih | application _ _ _ _ _ ih | argumentFailed _ ih =>
      exact ih rfl hostFree
  | argument _ _ firstIH othersIH =>
      have first := firstIH rfl hostFree
      exact first.trans (othersIH rfl (hostFree.of_addsCells first))
  | noRoom built | unbound built | notCallable built => exact Heap.addsCells_of_listOf built
  | call built _ _ ih =>
      have adds := Heap.addsCells_of_listOf built
      exact adds.trans (ih rfl (hostFree.of_addsCells adds))
  | routine found _ provided => exact absurd provided (hostFree.of_lambda found _)
  | direct | define | eval | apply | done | perform | examine => cases inner

namespace Machine

variable {host : Host} {machine after : Machine}

theorem Evaluates.addsCells {form : Value} {log : List Definition} {outcome : Except Error Value}
    (evaluates : Evaluates host machine form log outcome after)
    (hostFree : machine.heap.HostFree) : machine.heap.AddsCells after.heap := by
  cases evaluates with
  | foreign => exact .refl _
  | performed _ performs => exact performs.addsCells rfl hostFree

theorem EvaluatesEach.addsCells {forms : List Value} {log : List Definition}
    {outcomes : List (Except Error Value)}
    (evaluates : EvaluatesEach host machine forms log outcomes after)
    (hostFree : machine.heap.HostFree) : machine.heap.AddsCells after.heap := by
  induction evaluates with
  | done => exact .refl _
  | failed first => exact first.addsCells hostFree
  | more first _ ih =>
      have adds := first.addsCells hostFree
      exact adds.trans (ih (hostFree.of_addsCells adds))

end Machine

/-! ## Forms in order -/

namespace Tree

/-- The outcomes of forms up to the first that fails, with the bindings afterwards. -/
def evaluateForms : List Tree → Bindings → List (Except Error Tree) × Bindings
  | [], bindings => ([], bindings)
  | form :: forms, bindings =>
    match form.evaluate bindings with
    | (.error failure, bindings) => ([.error failure], bindings)
    | (.ok tree, bindings) =>
      let (outcomes, bindings) := evaluateForms forms bindings
      (.ok tree :: outcomes, bindings)

/-- A quoted form costs nothing but its own cells. -/
theorem evaluateForms_quoted (tree : Tree) (bindings : Bindings) :
    evaluateForms [tree.quoted] bindings = ([.ok tree], bindings) ∧
      demandEach [tree.quoted] bindings = 0 := by
  simp only [evaluateForms, demandEach, quoted, evaluate, demand, Bindings.spentAfter]
  exact ⟨trivial, trivial⟩

end Tree

namespace Machine

variable {machine : Machine} {bindings : Bindings} (host : Host)

/-- A form of the machine is evaluated as its tree is, and that comes to an end. -/
theorem Unfolds.exists_eval (unfolds : machine.Unfolds bindings)
    (limits : machine.heap.WithinLimits) {form : Value} {tree : Tree}
    (formUnfolds : machine.heap.Unfolds form tree) :
    ∃ outcome after, machine.eval host form = .ok (outcome, after) ∧
      machine.Follows Heap.Unfolds (tree.demand bindings) (tree.evaluate bindings) outcome after := by
  obtain ⟨outcome, after, ran, follows⟩ := unfolds.exists_run host limits.cells formUnfolds
  refine ⟨outcome, after, ?_, follows⟩
  rw [Machine.eval, if_pos formUnfolds.contains]
  exact ran

/-- What evaluating forms in order comes to: unless it runs out of memory, for want of the cells that
the forms spend, the outcomes are those on trees. -/
structure FollowsEach (machine : Machine) (cells : Nat)
    (expected : List (Except Error Tree) × Bindings) (outcomes : List (Except Error Value))
    (after : Machine) : Prop where
  growsTo : machine.heap.GrowsTo after.heap
  spends : .error .outOfMemory ∈ outcomes ∧
      machine.heap.maxCells < machine.heap.cells.size + cells ∨
    List.Forall₂ (Agreement after.heap.Unfolds) outcomes expected.1 ∧ after.Unfolds expected.2 ∧
      after.heap.cells.size = machine.heap.cells.size + cells

theorem Unfolds.exists_evalEach (unfolds : machine.Unfolds bindings)
    (limits : machine.heap.WithinLimits) {forms : List Value} {trees : List Tree}
    (each : List.Forall₂ machine.heap.Unfolds forms trees) :
    ∃ outcomes after, machine.evalEach host forms = .ok (outcomes, after) ∧
      machine.FollowsEach (Tree.demandEach trees bindings) (Tree.evaluateForms trees bindings)
        outcomes after := by
  induction trees generalizing machine bindings forms with
  | nil =>
      cases each
      refine ⟨[], machine, rfl, .refl _, .inr ⟨.nil, unfolds, ?_⟩⟩
      rw [Tree.demandEach, Nat.add_zero]
  | cons tree trees ih =>
      cases each with
      | cons formUnfolds each =>
          obtain ⟨outcome, middle, ran, follows⟩ := unfolds.exists_eval host limits formUnfolds
          obtain ⟨log, evaluates⟩ := exists_evaluates ran
          have limits := (evaluates.addsCells unfolds.hostFree).withinLimits limits
          rw [Tree.demandEach, Tree.evaluateForms]
          generalize tree.evaluate bindings = expected at follows ⊢
          obtain ⟨expected, next⟩ := expected
          cases outcome with
          | error error =>
              refine ⟨[.error error], middle, evalEach_cons_eq_ok_iff.mpr (.inl ⟨error, ran, rfl⟩),
                follows.growsTo, ?_⟩
              rcases follows.spends with ⟨outOfMemory, noRoom⟩ | ⟨agrees, unfolds, size⟩
              · cases outOfMemory
                exact .inl ⟨List.mem_cons_self, by omega⟩
              · cases agrees with
                | error => exact .inr ⟨.cons .error .nil, unfolds, size⟩
          | ok value =>
              rcases follows.spends with ⟨outOfMemory, -⟩ | ⟨agrees, nextUnfolds, size⟩
              · cases outOfMemory
              · cases agrees with
                | ok valueUnfolds =>
                    have growth := follows.growsTo
                    have nextUnfolds : middle.Unfolds next := nextUnfolds
                    obtain ⟨outcomes, after, others, followsEach⟩ :=
                      ih nextUnfolds limits (Heap.unfoldsEach_grow growth each)
                    have evaluated := evalEach_cons_eq_ok_iff.mpr
                      (.inr ⟨value, middle, outcomes, ran, others, rfl⟩)
                    refine ⟨.ok value :: outcomes, after, evaluated,
                      growth.trans followsEach.growsTo, ?_⟩
                    simp only [Bindings.spentAfter]
                    rcases followsEach.spends with ⟨outOfMemory, noRoom⟩ | ⟨agree, last, laterSize⟩
                    · rw [growth.maxCells] at noRoom
                      exact .inl ⟨List.mem_cons_of_mem _ outOfMemory, by omega⟩
                    · have value := valueUnfolds.grow followsEach.growsTo
                      exact .inr ⟨.cons (.ok value) agree, last, by omega⟩

end Machine

/-! ## Sources -/

namespace Machine

/-- What a source comes to that is evaluated without running out of memory: the outcomes and bindings
of its trees, for one cell of every cell of them and those that their evaluation spends. -/
structure Completes (machine : Machine) (trees : List Tree) (bindings : Bindings)
    (outcomes : List (Except Error Value)) (after : Machine) : Prop where
  uses : machine.heap.Uses (Tree.cellSum trees + Tree.demandEach trees bindings)
    (Tree.namesEach trees) after.heap
  agrees : List.Forall₂ (Agreement after.heap.Unfolds) outcomes
    (Tree.evaluateForms trees bindings).1
  unfolds : after.Unfolds (Tree.evaluateForms trees bindings).2

variable {host : Host} {machine : Machine} {bindings : Bindings} {source : String}
  {trees : List Tree} {forms : List Value} {heap : Heap}

theorem Unfolds.read (unfolds : machine.Unfolds bindings)
    (exactly : machine.heap.ReadsExactly source trees forms heap) :
    Machine.Unfolds { machine with heap } bindings where
  keywords := unfolds.keywords.grow exactly.uses.growsTo
  hostFree := unfolds.hostFree.of_lambdas exactly.lambdas
  environment := unfolds.environment.grow exactly.uses.growsTo

theorem Unfolds.exists_evalForms (unfolds : machine.Unfolds bindings)
    (limits : machine.heap.WithinLimits) (host : Host) (source : String) :
    ∃ outcome after, machine.evalForms host source = .ok (outcome, after) := by
  rcases read : machine.heap.readForms source with ⟨outcome, heap⟩
  cases outcome with
  | error error => exact ⟨_, _, evalForms_eq_ok_iff.mpr (.inl ⟨error, heap, read, rfl, rfl⟩)⟩
  | ok forms =>
      obtain ⟨trees, exactly⟩ := Heap.exists_readsExactly unfolds.keywords limits read
      obtain ⟨outcomes, after, ran, -⟩ :=
        (unfolds.read exactly).exists_evalEach host exactly.withinLimits exactly.unfolds
      exact ⟨_, after, evalForms_of_readForms read ran⟩

theorem EvaluatesForms.lambdas_eq {log : List Definition} {after : Machine}
    {outcome : Except Error (List (Except Error Value))} (hostFree : machine.heap.HostFree)
    (evaluates : EvaluatesForms host source machine log outcome after) :
    after.heap.lambdas = machine.heap.lambdas := by
  have read : (machine.heap.readForms source).2.lambdas = machine.heap.lambdas :=
    (Reader.forms_reads (Reader.ofSource machine.heap source)).records_eq.1
  cases evaluates with
  | unreadable unread =>
      rw [unread] at read
      exact read
  | evaluated listed each =>
      rw [listed] at read
      exact (each.addsCells (hostFree.of_lambdas read)).lambdas.trans read

/-- A source that spells some trees is evaluated to the end if there is room for all cells of the
trees and those that their evaluation spends. -/
theorem Unfolds.exists_completes (unfolds : machine.Unfolds bindings)
    (limits : machine.heap.WithinLimits) (spells : SpellsEach (Token.ofSource source) trees)
    (room : machine.heap.HasRoom (Tree.cellSum trees + Tree.demandEach trees bindings)
      (Tree.namesEach trees)) :
    ∃ outcomes after, machine.evalForms host source = .ok (.ok outcomes, after) ∧
      machine.Completes trees bindings outcomes after := by
  obtain ⟨forms, heap, read, exactly⟩ := Heap.exists_readForms unfolds.keywords limits spells
    (room.mono (Nat.le_add_right _ _) (List.Subset.refl _))
  have readUnfolds := unfolds.read exactly
  obtain ⟨outcomes, after, ran, follows⟩ :=
    readUnfolds.exists_evalEach host exactly.withinLimits exactly.unfolds
  refine ⟨outcomes, after, evalForms_of_readForms read ran, ?_⟩
  rcases follows.spends with ⟨-, noRoom⟩ | ⟨agrees, last, size⟩
  · rw [exactly.uses.growsTo.maxCells, exactly.size] at noRoom
    have enough := room.cells
    omega
  · obtain ⟨log, evaluates⟩ := exists_evaluatesEach ran
    have adds := evaluates.addsCells readUnfolds.hostFree
    have spent : after.heap.cells.size = machine.heap.cells.size +
        (Tree.cellSum trees + Tree.demandEach trees bindings) := by
      rw [size, exactly.size, Nat.add_assoc]
    have uses : machine.heap.Uses (Tree.cellSum trees + Tree.demandEach trees bindings)
        (Tree.namesEach trees) after.heap := by
      refine ⟨exactly.uses.growsTo.trans follows.growsTo, Nat.le_of_eq spent, ?_⟩
      rw [adds.symbols]
      exact exactly.uses.names
    exact ⟨uses, agrees, last⟩

end Machine

end TaggedLisp
