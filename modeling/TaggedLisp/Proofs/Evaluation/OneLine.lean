import TaggedLisp.Proofs.Evaluation.OnTrees
import TaggedLisp.Proofs.Reader.OneLine

/-! Evaluation never makes a line feed: what forms come to, what is bound and what an error quotes are
names of the source or of builtins. -/

set_option autoImplicit false

namespace TaggedLisp

open Text

/-- An outcome that can be shown on one line. -/
inductive OneLineOutcome {α : Type} (fits : α → Prop) : Except Error α → Prop where
  | ok {result : α} : fits result → OneLineOutcome fits (.ok result)
  | error {error : Error} : IsOneLine error.message → OneLineOutcome fits (.error error)

theorem OneLineOutcome.of_quotes {α : Type} {fits : α → Prop} {error : Error}
    (each : ∀ text ∈ error.quotes, IsOneLine text) : OneLineOutcome fits (.error error) :=
  .error (Error.isOneLine_message each)

theorem OneLineOutcome.bind {α β : Type} {fits : α → Prop} {later : β → Prop}
    {outcome : Except Error α} {next : α → Except Error β} (first : OneLineOutcome fits outcome)
    (rest : ∀ result, fits result → OneLineOutcome later (next result)) :
    OneLineOutcome later (outcome >>= next) := by
  cases first with
  | ok fitting => exact rest _ fitting
  | error oneLine => exact .error oneLine

namespace Tree

theorem OneLine.head {tree : Tree} (oneLine : tree.OneLine) : OneLineOutcome OneLine tree.head := by
  unfold Tree.head
  split
  · exact .ok (oneLine.each _ List.mem_cons_self)
  · exact .of_quotes (by decide)
  · exact .of_quotes (by decide)

theorem OneLine.tail {tree : Tree} (oneLine : tree.OneLine) : OneLineOutcome OneLine tree.tail := by
  unfold Tree.tail
  split
  · exact .ok (.list fun element member => oneLine.each element (List.mem_cons_of_mem _ member))
  · exact .of_quotes (by decide)
  · exact .of_quotes (by decide)

variable {arguments : List Tree}

theorem OneLine.answer (each : ∀ tree ∈ arguments, tree.OneLine) (routine : Routine) :
    OneLineOutcome OneLine (routine.answer arguments) := by
  have first : OneLineOutcome OneLine (Tree.list arguments).head := (OneLine.list each).head
  cases routine with
  | quote => exact first
  | head => exact first.bind fun _ oneLine => oneLine.head
  | tail => exact first.bind fun _ oneLine => oneLine.tail
  | host id => exact .of_quotes (by decide)

theorem OneLine.call {callee : Tree} {name : String} (oneLine : callee.OneLine)
    (plain : IsOneLine name) (each : ∀ tree ∈ arguments, tree.OneLine) :
    OneLineOutcome OneLine (callee.call name arguments) := by
  cases oneLine with
  | lambda lambdaName =>
      rw [Tree.call, Lambda.answer]
      split
      · exact OneLine.answer each _
      · exact .of_quotes (List.forall_mem_singleton.mpr lambdaName)
  | symbol | list => exact .of_quotes (List.forall_mem_singleton.mpr plain)

end Tree

namespace Bindings

def OneLine (bindings : Bindings) : Prop :=
  ∀ name tree, bindings.tree? name = some tree → tree.OneLine

/-- What one step of evaluation leaves. -/
structure OneLineStep {α : Type} (fits : α → Prop) (result : Except Error α × Bindings) : Prop where
  outcome : OneLineOutcome fits result.1
  bindings : result.2.OneLine

variable {bindings : Bindings} {name : String}

theorem OneLineStep.andThen {α β : Type} {fits : α → Prop} {later : β → Prop}
    {result : Except Error α × Bindings} {next : α → Bindings → Except Error β × Bindings}
    (first : OneLineStep fits result)
    (rest : ∀ value bindings, fits value → bindings.OneLine →
      OneLineStep later (next value bindings)) :
    OneLineStep later (Bindings.andThen result next) := by
  obtain ⟨outcome, after⟩ := result
  obtain ⟨oneLine, bound⟩ := first
  cases oneLine with
  | ok fitting => exact rest _ _ fitting bound
  | error plain => exact ⟨.error plain, bound⟩

theorem OneLine.lookup (bound : bindings.OneLine) (plain : IsOneLine name) :
    OneLineOutcome Tree.OneLine (bindings.lookup name) := by
  unfold Bindings.lookup
  split
  · next tree found => exact .ok (bound name tree found)
  · exact .of_quotes (List.forall_mem_singleton.mpr plain)

theorem OneLine.define (bound : bindings.OneLine) (plain : IsOneLine name) {tree : Tree}
    (oneLine : tree.OneLine) : OneLineStep Tree.OneLine (bindings.define name tree) := by
  unfold Bindings.define
  split
  · exact ⟨.of_quotes (List.forall_mem_singleton.mpr plain), bound⟩
  split
  · exact ⟨.of_quotes (by simp [Error.quotes]), bound⟩
  · refine ⟨.ok (.symbol plain), fun other value found => ?_⟩
    simp only [Bindings.bind] at found
    split at found
    · cases found
      exact oneLine
    · exact bound other value found

end Bindings

namespace Tree

open Bindings

mutual

/-- Evaluation of a tree without line feeds, where none is bound, comes to such a tree, or to an error
that fits on a line, and binds only such trees. -/
theorem OneLine.evaluate (tree : Tree) {bindings : Bindings} (oneLine : tree.OneLine)
    (bound : bindings.OneLine) : OneLineStep OneLine (tree.evaluate bindings) := by
  unfold Tree.evaluate
  split
  · exact ⟨.ok oneLine, bound⟩
  · exact ⟨bound.lookup oneLine.name, bound⟩
  · next inner =>
    exact ⟨.ok (oneLine.each inner (by simp)), bound⟩
  · next name body =>
    have plain : IsOneLine name := (oneLine.each (.symbol name) (by simp)).name
    exact (OneLine.evaluate body (oneLine.each body (by simp)) bound).andThen
      fun tree bindings value bound => bound.define plain value
  · next name arguments _ _ =>
    have plain : IsOneLine name := (oneLine.each (.symbol name) (by simp)).name
    have each : ∀ argument ∈ arguments, argument.OneLine := fun argument member =>
      oneLine.each argument (List.mem_cons_of_mem _ member)
    exact (OneLine.evaluateEach arguments each bound).andThen fun trees bindings values bound =>
      ⟨(bound.lookup plain).bind fun callee oneLine => oneLine.call plain values, bound⟩
  · exact ⟨.of_quotes (by decide), bound⟩

theorem OneLine.evaluateEach (trees : List Tree) {bindings : Bindings}
    (each : ∀ tree ∈ trees, tree.OneLine) (bound : bindings.OneLine) :
    OneLineStep (fun values => ∀ value ∈ values, value.OneLine) (evaluateEach trees bindings) := by
  cases trees with
  | nil =>
      rw [Tree.evaluateEach]
      exact ⟨.ok (by simp), bound⟩
  | cons tree trees =>
      rw [Tree.evaluateEach]
      have first := OneLine.evaluate tree (each tree List.mem_cons_self) bound
      refine first.andThen fun value bindings oneLine bound => ?_
      have others := OneLine.evaluateEach trees
        (fun tree member => each tree (List.mem_cons_of_mem _ member)) bound
      exact others.andThen fun values bindings oneLines bound =>
        ⟨.ok (List.forall_mem_cons.mpr ⟨oneLine, oneLines⟩), bound⟩

end

end Tree

end TaggedLisp
