import TaggedLisp.Machine
import TaggedLisp.Proofs.Evaluation.Containment

/-! Machines stay well-formed from their first state on: fresh heaps and environments, single
operations, and whole sources with all their failures. -/

set_option autoImplicit false

namespace TaggedLisp

open Evaluation Machine

/-! ## Fresh heaps and environments -/

theorem meets_intern {permitted : Fault → Prop} {machine : Machine}
    (wellFormed : machine.WellFormed) (name : String) :
    (Evaluation.allocate (·.intern name)).Meets permitted machine
      (machine.Keeps fun heap id => heap.contains (.symbol id) = true) := by
  have keeps := wellFormed.heap.keeps_symbol name
  refine meets_allocate ⟨keeps.growsTo, ⟨keeps.wellFormed, ?_⟩, fun id interned => ?_⟩
  · exact wellFormed.environment.grow keeps.growsTo
  · refine keeps.contained (.symbol id) ?_
    simp only [Heap.symbol, interned]
    rfl

theorem meets_bindLambda {permitted : Fault → Prop} {machine : Machine}
    (wellFormed : machine.WellFormed) (lambda : Lambda) :
    (show Evaluation Unit from do
      let symbol ← Evaluation.allocate (·.intern lambda.name)
      let value ← Evaluation.allocate (·.addLambda lambda)
      let _ ← Evaluation.define symbol value).Meets permitted machine
        (machine.Keeps fun _ _ => True) := by
  refine meets_keeps_bind (meets_intern wellFormed lambda.name)
    fun symbol interned _ keeps symbolContained => ?_
  refine meets_keeps_bind (meets_allocate (keeps.keeps_of_heap
    (keeps.heap.keeps_addLambda lambda))) fun value added growth keeps valueContained => ?_
  refine meets_keeps_bind (meets_define_keeps keeps (growth.contains symbolContained)
    valueContained) fun _ _ _ keeps _ => ?_
  exact keeps.keeps_ok trivial

theorem meets_bindLambdas {permitted : Fault → Prop} {machine : Machine}
    (wellFormed : machine.WellFormed) (lambdas : List Lambda) :
    (lambdas.forM fun lambda => do
      let symbol ← Evaluation.allocate (·.intern lambda.name)
      let value ← Evaluation.allocate (·.addLambda lambda)
      let _ ← Evaluation.define symbol value).Meets permitted machine
        (machine.Keeps fun _ (_ : Unit) => True) := by
  induction lambdas generalizing machine with
  | nil => exact wellFormed.keeps_ok trivial
  | cons lambda lambdas ih =>
      exact meets_keeps_bind (meets_bindLambda wellFormed lambda) fun _ _ _ keeps _ => ih keeps

/-- A fresh environment is made without a fault, whatever the heap held before and whether or not
there is room for it. -/
theorem Environment.new_keeps {heap : Heap} (wellFormed : heap.WellFormed) (settings : Settings) :
    ∃ outcome after, Environment.new heap settings = .ok (outcome, after) ∧
      heap.GrowsTo after ∧ after.WellFormed ∧
      ∀ environment, outcome = .ok environment → environment.ContainedIn after := by
  have start : Machine.WellFormed ⟨heap, .empty settings.environmentCapacity⟩ :=
    ⟨wellFormed, Environment.containedIn_empty _ _⟩
  have seeded : (Environment.seed settings).Meets (fun _ => False)
      ⟨heap, .empty settings.environmentCapacity⟩
      (Machine.Keeps (fun _ (_ : Unit) => True) ⟨heap, .empty settings.environmentCapacity⟩) := by
    have keyword := decide_eq_true (SymbolTable.lt_size_of_name? wellFormed.keywords.definition)
    refine meets_examine_bind rfl ?_
    refine meets_keeps_bind (meets_define_keeps start keyword keyword)
      fun _ bound _ keeps _ => ?_
    exact meets_bindLambdas keeps (Lambda.reserved settings)
  obtain ⟨outcome, after, ran, keeps⟩ := seeded.exists_runIn
  refine ⟨outcome.map fun _ => after.environment, after.heap, ?_, keeps.growsTo,
    keeps.wellFormed.heap, fun environment succeeded => ?_⟩
  · simp only [Environment.new, ran]
    rfl
  · cases outcome with
    | error => cases succeeded
    | ok =>
        cases succeeded
        exact keeps.wellFormed.environment

theorem Environment.exists_new_with_builtins :
    ∃ heap environment after, Heap.new {} = .ok heap ∧
      Environment.new heap {} = .ok (.ok environment, after) ∧
      after.lambdas = #[Lambda.quote, Lambda.head, Lambda.tail] ∧
      after.cells.size = 0 ∧ after.maxCells = 1 <<< 24 := by
  have made : ((Environment.new ((Heap.new {}).toOption.get (by decide)) {}).toOption.map
      fun result =>
        (result.1.isOk, result.2.lambdas, result.2.cells.size, result.2.maxCells)) =
        some (true, #[Lambda.quote, Lambda.head, Lambda.tail], 0, 1 <<< 24) := by
    decide +kernel
  have created : Heap.new {} = .ok ((Heap.new {}).toOption.get (by decide)) := rfl
  -- From here on only what `made` says of the heap matters, and its stores must not be unfolded.
  generalize (Heap.new {}).toOption.get (by decide) = heap at made created
  cases seeded : Environment.new heap {} with
  | error fault =>
      rw [seeded] at made
      cases made
  | ok result =>
      obtain ⟨outcome, after⟩ := result
      rw [seeded] at made
      simp only [Except.toOption, Option.map_some, Option.some.injEq, Prod.mk.injEq] at made
      obtain ⟨succeeded, lambdas, cells, maxCells⟩ := made
      cases outcome with
      | error error => cases succeeded
      | ok environment =>
          exact ⟨heap, environment, after, created, seeded, lambdas, cells, maxCells⟩

/-! ## Runs -/

/-- The computation ends as the condition says, unless nested calls use up the budget. -/
def Checked.Ends {α : Type} (condition : α → Prop) : Checked α → Prop
  | .ok result => condition result
  | .error fault => fault = .exhausted

theorem Evaluation.Meets.ends {α : Type} {computation : Evaluation α} {machine : Machine}
    {condition : Except Error α → Machine → Prop}
    (meets : computation.Meets (· = .exhausted) machine condition) :
    Checked.Ends (fun result => condition result.1 result.2) (computation.runIn machine) := by
  unfold Meets at meets
  split at meets
  · next outcome after ran =>
    rw [ran]
    exact meets
  · next fault ran =>
    rw [ran]
    exact meets

theorem Checked.Ends.imp {α : Type} {strong weak : α → Prop} {computation : Checked α}
    (ends : Checked.Ends strong computation) (implies : ∀ result, strong result → weak result) :
    Checked.Ends weak computation := by
  cases computation with
  | error fault => exact ends
  | ok result => exact implies result ends

theorem Checked.Ends.bind {α β : Type} {middle : α → Prop} {condition : β → Prop}
    {first : Checked α} {next : α → Checked β} (ends : Checked.Ends middle first)
    (rest : ∀ result, middle result → Checked.Ends condition (next result)) :
    Checked.Ends condition (first >>= next) := by
  cases first with
  | error fault => exact ends
  | ok result => exact rest result ends

namespace Machine

variable {machine : Machine} (host : Host)

theorem WellFormed.perform_ends (wellFormed : machine.WellFormed) {operation : Operation}
    (within : operation.isWithin machine.heap = true) :
    Checked.Ends (fun result => machine.Keeps Heap.Has result.1 result.2)
      (machine.perform host.screened operation) :=
  ((soundTasks_run host machine.budget).operation wellFormed within).ends

theorem WellFormed.eval_ends (wellFormed : machine.WellFormed) (form : Value) :
    Checked.Ends (fun result => machine.Keeps Heap.Has result.1 result.2)
      (machine.eval host.screened form) := by
  unfold Machine.eval
  split
  · next contained =>
    exact (soundTasks_run host machine.budget (.eval form) machine wellFormed contained).ends
  · exact wellFormed.keeps_error _

structure KeepsEach (machine : Machine) (outcomes : List (Except Error Value)) (after : Machine) :
    Prop where
  growsTo : machine.heap.GrowsTo after.heap
  wellFormed : after.WellFormed
  contained : ∀ value, .ok value ∈ outcomes → after.heap.contains value = true

theorem WellFormed.evalEach_ends (wellFormed : machine.WellFormed) (forms : List Value) :
    Checked.Ends (fun result => machine.KeepsEach result.1 result.2)
      (machine.evalEach host.screened forms) := by
  induction forms generalizing machine with
  | nil => exact ⟨.refl _, wellFormed, by simp⟩
  | cons form forms ih =>
      refine (wellFormed.eval_ends host form).bind fun (outcome, middle) keeps => ?_
      cases outcome with
      | error error => exact ⟨keeps.growsTo, keeps.wellFormed, by simp⟩
      | ok value =>
          refine (ih keeps.wellFormed).bind fun (outcomes, after) others => ?_
          refine ⟨keeps.growsTo.trans others.growsTo, others.wellFormed, fun other member => ?_⟩
          rcases List.mem_cons.mp member with same | member
          · cases same
            exact others.growsTo.contains (keeps.fits _ rfl)
          · exact others.contained other member

theorem WellFormed.read (wellFormed : machine.WellFormed) (source : String) :
    WellFormed { machine with heap := (machine.heap.readForms source).2 } :=
  ⟨(wellFormed.heap.readForms source).1,
    wellFormed.environment.grow (machine.heap.readForms_growsTo source)⟩

theorem WellFormed.evalForms_ends (wellFormed : machine.WellFormed) (source : String) :
    Checked.Ends (fun result => machine.KeepsEach (result.1.toOption.getD []) result.2)
      (machine.evalForms host.screened source) := by
  have growth := machine.heap.readForms_growsTo source
  have read := wellFormed.read source
  unfold Machine.evalForms
  split
  · next error heap result =>
    rw [result] at growth read
    exact ⟨growth, read, by simp [Except.toOption]⟩
  · next forms heap result =>
    rw [result] at growth read
    refine (read.evalEach_ends host forms).bind fun (outcomes, after) keeps => ?_
    exact ⟨growth.trans keeps.growsTo, keeps.wellFormed, keeps.contained⟩

theorem reify_keeps {heap : Heap} (wellFormed : heap.WellFormed)
    {outcomes : List (Except Error Value)}
    (contained : ∀ value, .ok value ∈ outcomes → heap.contains value = true) :
    heap.GrowsTo (reify heap outcomes).2 ∧ (reify heap outcomes).2.WellFormed ∧
      ∀ value ∈ (reify heap outcomes).1, (reify heap outcomes).2.contains value = true := by
  induction outcomes generalizing heap with
  | nil => exact ⟨.refl _, wellFormed, by simp [reify]⟩
  | cons outcome outcomes ih =>
      cases outcome with
      | ok value =>
          obtain ⟨growth, after, all⟩ :=
            ih wellFormed fun value member => contained value (List.mem_cons_of_mem _ member)
          refine ⟨growth, after, List.forall_mem_cons.mpr ⟨?_, all⟩⟩
          exact growth.contains (contained value List.mem_cons_self)
      | error error =>
          have added := wellFormed.keeps_addError error
          obtain ⟨growth, after, all⟩ := ih added.wellFormed fun value member =>
            added.growsTo.contains (contained value (List.mem_cons_of_mem _ member))
          refine ⟨added.growsTo.trans growth, after, List.forall_mem_cons.mpr ⟨?_, all⟩⟩
          exact growth.contains (added.contained _ rfl)

theorem WellFormed.evalSource_ends (wellFormed : machine.WellFormed) (source : String) :
    Checked.Ends (fun result => machine.Keeps Heap.Has result.1 result.2)
      (machine.evalSource host.screened source) := by
  refine (wellFormed.evalForms_ends host source).bind fun (outcome, after) keeps => ?_
  cases outcome with
  | error error => exact ⟨keeps.growsTo, keeps.wellFormed, fun _ failed => by cases failed⟩
  | ok outcomes =>
      obtain ⟨growth, reified, all⟩ := reify_keeps keeps.wellFormed.heap keeps.contained
      have built := reified.keeps_listOf all
      exact ⟨keeps.growsTo.trans (growth.trans built.growsTo),
        ⟨built.wellFormed, keeps.wellFormed.environment.grow (growth.trans built.growsTo)⟩,
        built.contained⟩

end Machine

end TaggedLisp
