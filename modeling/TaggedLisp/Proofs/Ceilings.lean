import TaggedLisp.Proofs.Evaluation.Roomier
import TaggedLisp.Proofs.Heap.Spine
import TaggedLisp.Proofs.ResultLists
import TaggedLisp.Proofs.SourceData

/-! Raising a ceiling never changes a run that hit none. A failure for lack of room is never lost: it is
what a call answers, or it is among the outcomes of the forms, or in the list that is built of them.
So where no answer of a run says that a ceiling was hit, none was, and a machine with more room gives
the same answers and is left with the same contents after every call. -/

set_option autoImplicit false

namespace TaggedLisp

/-! ## Calls -/

/-- A source that is given to a machine, with what is asked for. -/
inductive Call where
  | evalForms (source : String)
  | evalSource (source : String)

inductive Answer where
  | forms (outcome : Except Error (List (Except Error Value)))
  | list (outcome : Except Error Value)

def Call.run (host : Host) (machine : Machine) : Call → Checked (Answer × Machine)
  | .evalForms source => Prod.map .forms id <$> machine.evalForms host source
  | .evalSource source => Prod.map .list id <$> machine.evalSource host source

/-- Makes calls in order. With each answer comes the machine after the call. -/
def Machine.runCalls (host : Host) (machine : Machine) : List Call → Checked (List (Answer × Machine))
  | [] => return []
  | call :: calls => do
    let result ← call.run host machine
    let results ← result.2.runCalls host calls
    return result :: results

/-- The errors that an answer is or holds. In a list these are the elements that stand for errors. -/
inductive Answer.HasError (heap : Heap) : Answer → Error → Prop where
  | unreadable {error} : HasError heap (.forms (.error error)) error
  | form {outcomes error} : .error error ∈ outcomes → HasError heap (.forms (.ok outcomes)) error
  | noList {error} : HasError heap (.list (.error error)) error
  | element {list values value error} :
      heap.toList list = .ok (.ok values) → value ∈ values →
      heap.toError? value = .ok (some error) → HasError heap (.list (.ok list)) error

/-- No error that the answer is or holds says that a ceiling was hit. -/
def Answer.IsUnhindered (heap : Heap) (answer : Answer) : Prop :=
  ∀ error, answer.HasError heap error → ¬ error.isCeiling = true

/-- Calls that cannot be told apart by their answers or by what they leave. -/
structure SameResult (first second : Answer × Machine) : Prop where
  answer : second.1 = first.1
  stats : second.2.heap.stats = first.2.heap.stats
  bindings : second.2.environment.bindings = first.2.environment.bindings
  heap : first.2.heap.ReadsLike second.2.heap
  errors : second.2.heap.errors = first.2.heap.errors

theorem Machine.Roomier.sameResult {machine other : Machine} (roomier : machine.Roomier other)
    (answer : Answer) : SameResult (answer, machine) (answer, other) where
  answer := rfl
  stats := roomier.heap.stats
  bindings := congrArg Std.TreeMap.toList roomier.environment.table
  heap := roomier.heap.readsLike
  errors := roomier.heap.errors

theorem map_eq_ok_iff {α : Type} {computation : Checked (α × Machine)} {toAnswer : α → Answer}
    {answer : Answer} {after : Machine} :
    Prod.map toAnswer id <$> computation = .ok (answer, after) ↔
      ∃ outcome, computation = .ok (outcome, after) ∧ toAnswer outcome = answer := by
  cases computation with
  | error fault => simp [Functor.map, Except.map]
  | ok result => simp [Functor.map, Except.map, Prod.ext_iff, and_comm]

theorem Machine.runCalls_cons_eq_ok_iff {host : Host} {machine : Machine} {call : Call}
    {calls : List Call} {results : List (Answer × Machine)} :
    machine.runCalls host (call :: calls) = .ok results ↔
      ∃ answer middle later, call.run host machine = .ok (answer, middle) ∧
        middle.runCalls host calls = .ok later ∧ results = (answer, middle) :: later := by
  rw [runCalls]
  cases call.run host machine with
  | error fault => simp [bind, Except.bind]
  | ok result =>
      obtain ⟨answer, middle⟩ := result
      cases others : middle.runCalls host calls with
      | error fault => simp [bind, Except.bind, others]
      | ok later => simp [bind, Except.bind, pure, Except.pure, others, eq_comm]

/-! ## Failures in lists -/

namespace Heap

/-- No failure is lost in a list, unless there is no room for its record, and then that is said. -/
theorem exists_toError?_of_reify {heap : Heap} {outcomes : List (Except Error Value)} {error : Error}
    (failed : .error error ∈ outcomes) :
    ∃ value ∈ (Machine.reify heap outcomes).1, ∃ found,
      (Machine.reify heap outcomes).2.toError? value = .ok (some found) ∧
        (found = error ∨ found = .outOfMemory) := by
  have stores := Machine.reify_stores heap outcomes
  generalize Machine.reify heap outcomes = result at stores ⊢
  obtain ⟨values, reified⟩ := result
  simp only at stores ⊢
  induction stores with
  | nil => cases failed
  | cons stored _ ih =>
      rcases List.mem_cons.mp failed with rfl | later
      · cases stored with
        | failure stands => exact ⟨_, List.mem_cons_self, error, stands, .inl rfl⟩
        | unrecorded => exact ⟨_, List.mem_cons_self, .outOfMemory, rfl, .inr rfl⟩
      · obtain ⟨value, member, stands⟩ := ih later
        exact ⟨value, List.mem_cons_of_mem _ member, stands⟩

end Heap

namespace Machine

variable {settings : Settings} {machine other after : Machine} {parsed : Set Nat}
  {results : List Value} {host : Host}

/-! ## Every call comes to an end -/

theorem Sound.exists_evalForms (sound : machine.Sound settings parsed results) (host : Host)
    (source : String) : ∃ outcome after, machine.evalForms host source = .ok (outcome, after) := by
  obtain ⟨bindings, unfolds⟩ := sound.exists_unfolds
  exact unfolds.exists_evalForms sound.withinLimits host source

theorem Sound.exists_run (sound : machine.Sound settings parsed results) (host : Host)
    (call : Call) : ∃ answer after, call.run host machine = .ok (answer, after) := by
  cases call with
  | evalForms source =>
      obtain ⟨outcome, after, ran⟩ := sound.exists_evalForms host source
      exact ⟨_, after, map_eq_ok_iff.mpr ⟨outcome, ran, rfl⟩⟩
  | evalSource source =>
      obtain ⟨outcome, middle, ran⟩ := sound.exists_evalForms host source
      cases outcome with
      | error error =>
          have failed := evalSource_eq_ok_iff.mpr (.inl ⟨error, ran, rfl⟩)
          exact ⟨_, middle, map_eq_ok_iff.mpr ⟨_, failed, rfl⟩⟩
      | ok outcomes =>
          have listed := evalSource_eq_ok_iff.mpr
            (.inr ⟨outcomes, middle, _, _, _, ran, rfl, rfl, rfl⟩)
          exact ⟨_, _, map_eq_ok_iff.mpr ⟨_, listed, rfl⟩⟩

theorem Sound.run (sound : machine.Sound settings parsed results) {call : Call} {answer : Answer}
    (ran : call.run host machine = .ok (answer, after)) :
    ∃ parsed results, after.Sound settings parsed results := by
  cases call with
  | evalForms source =>
      obtain ⟨outcome, ran, -⟩ := map_eq_ok_iff.mp ran
      obtain ⟨log, evaluates⟩ := exists_evaluatesForms ran
      exact ⟨_, _, sound.evaluatesForms evaluates⟩
  | evalSource source =>
      obtain ⟨outcome, ran, -⟩ := map_eq_ok_iff.mp ran
      obtain ⟨log, evaluates⟩ := exists_evaluatesSource ran
      exact ⟨_, _, sound.evaluatesSource evaluates⟩

theorem Sound.exists_runCalls (sound : machine.Sound settings parsed results) (host : Host)
    (calls : List Call) : ∃ answers, machine.runCalls host calls = .ok answers := by
  induction calls generalizing machine parsed results with
  | nil => exact ⟨[], rfl⟩
  | cons call calls ih =>
      obtain ⟨answer, middle, ran⟩ := sound.exists_run host call
      obtain ⟨_, _, soundAfter⟩ := sound.run ran
      obtain ⟨later, others⟩ := ih soundAfter
      exact ⟨_, runCalls_cons_eq_ok_iff.mpr ⟨answer, middle, later, ran, others, rfl⟩⟩

/-! ## More room -/

/-- A ceiling that a form hit is hit in the answer, either by the list itself or by an element. -/
theorem isUnhindered_of_list {heap reified listed : Heap} {outcomes : List (Except Error Value)}
    {values : List Value} {outcome : Except Error Value} (added : reify heap outcomes = (values, reified))
    (built : reified.listOf values = (outcome, listed))
    (unhindered : Answer.IsUnhindered listed (.list outcome)) :
    ∀ result ∈ outcomes, IsUnhindered result := by
  rintro result member error rfl ceiling
  obtain ⟨value, valueMember, found, stands, same⟩ := heap.exists_toError?_of_reify member
  rw [added] at valueMember stands
  have foundCeiling : found.isCeiling = true := by
    rcases same with rfl | rfl
    · exact ceiling
    · rfl
  cases outcome with
  | error failure =>
      have lists := reified.listOf_lists values
      rw [built] at lists
      cases lists
      exact unhindered _ .noList rfl
  | ok list =>
      have elements := Heap.toList_eq_ok_iff.mpr (Heap.spine_of_listOf built)
      have stands := (Heap.growsTo_of_listOf built).toError?_eq_some stands
      exact unhindered _ (.element elements valueMember stands) foundCeiling

theorem Roomier.evalSource (roomier : machine.Roomier other) (hostFree : machine.heap.HostFree)
    {source : String} {outcome : Except Error Value}
    (ran : machine.evalSource host source = .ok (outcome, after))
    (unhindered : Answer.IsUnhindered after.heap (.list outcome)) :
    ∃ final, other.evalSource host source = .ok (outcome, final) ∧ after.Roomier final := by
  have unhinderedOutcome : IsUnhindered outcome := by
    rintro error rfl
    exact unhindered error .noList
  rcases evalSource_eq_ok_iff.mp ran with
    ⟨error, unread, rfl⟩ | ⟨outcomes, middle, values, reified, heap, forms, added, built, rfl⟩
  · obtain ⟨final, otherUnread, later⟩ := roomier.evalForms hostFree unread
      unhinderedOutcome.of_error fun _ same => by cases same
    exact ⟨final, evalSource_eq_ok_iff.mpr (.inl ⟨error, otherUnread, rfl⟩), later⟩
  · have unhinderedEach := isUnhindered_of_list added built unhindered
    obtain ⟨otherMiddle, otherForms, roomier⟩ := roomier.evalForms hostFree forms
      (isUnhindered_ok outcomes) fun _ same => by cases same; exact unhinderedEach
    obtain ⟨sameValues, roomierReified⟩ := roomier.heap.reify outcomes
    rw [added] at sameValues roomierReified
    obtain ⟨otherHeap, otherBuilt, later⟩ :=
      (roomierReified.listOf values).exists_eq built unhinderedOutcome
    have otherAdded : reify otherMiddle.heap outcomes =
        (values, (reify otherMiddle.heap outcomes).2) := Prod.ext sameValues rfl
    have otherRan := evalSource_eq_ok_iff.mpr
      (.inr ⟨outcomes, otherMiddle, values, _, otherHeap, otherForms, otherAdded, otherBuilt, rfl⟩)
    exact ⟨_, otherRan, later, roomier.environment⟩

theorem Roomier.run (roomier : machine.Roomier other) (hostFree : machine.heap.HostFree)
    {call : Call} {answer : Answer} (ran : call.run host machine = .ok (answer, after))
    (unhindered : answer.IsUnhindered after.heap) :
    ∃ final, call.run host other = .ok (answer, final) ∧ after.Roomier final := by
  cases call with
  | evalForms source =>
      obtain ⟨outcome, evaluated, rfl⟩ := map_eq_ok_iff.mp ran
      have unhinderedOutcome : IsUnhindered outcome := by
        rintro error rfl
        exact unhindered error .unreadable
      obtain ⟨final, otherRan, later⟩ := roomier.evalForms hostFree evaluated unhinderedOutcome <| by
        rintro outcomes rfl _ member error rfl
        exact unhindered error (.form member)
      exact ⟨final, map_eq_ok_iff.mpr ⟨outcome, otherRan, rfl⟩, later⟩
  | evalSource source =>
      obtain ⟨outcome, evaluated, rfl⟩ := map_eq_ok_iff.mp ran
      obtain ⟨final, otherRan, later⟩ := roomier.evalSource hostFree evaluated unhindered
      exact ⟨final, map_eq_ok_iff.mpr ⟨outcome, otherRan, rfl⟩, later⟩

theorem Roomier.runCalls (roomier : machine.Roomier other)
    (sound : machine.Sound settings parsed results) {calls : List Call}
    {answers : List (Answer × Machine)} (ran : machine.runCalls host calls = .ok answers)
    (unhindered : ∀ result ∈ answers, result.1.IsUnhindered result.2.heap) :
    ∃ otherAnswers, other.runCalls host calls = .ok otherAnswers ∧
      List.Forall₂ SameResult answers otherAnswers := by
  induction calls generalizing machine other parsed results answers with
  | nil =>
      cases ran
      exact ⟨[], rfl, .nil⟩
  | cons call calls ih =>
      obtain ⟨answer, middle, later, first, others, rfl⟩ := runCalls_cons_eq_ok_iff.mp ran
      obtain ⟨unhindered, unhinderedLater⟩ := List.forall_mem_cons.mp unhindered
      obtain ⟨otherMiddle, otherFirst, roomier⟩ := roomier.run sound.hostFree first unhindered
      obtain ⟨_, _, soundAfter⟩ := sound.run first
      obtain ⟨otherLater, otherOthers, same⟩ := ih roomier soundAfter others unhinderedLater
      exact ⟨_, runCalls_cons_eq_ok_iff.mpr
        ⟨answer, otherMiddle, otherLater, otherFirst, otherOthers, rfl⟩,
        .cons (roomier.sameResult answer) same⟩

/-- Raising ceilings never changes a run that hit none. If a machine can be made under the lower
ceilings, then also under the higher ones. The first comes to an end on every sequence of sources, and
if none of its answers is or holds an error that says that a ceiling was hit, then the second gives
the same answers and is left with the same contents after every call. -/
theorem raising_ceilings {lower upper : Settings}
    (builtins : upper.listBuiltins = lower.listBuiltins)
    (symbols : lower.maxSymbols ≤ upper.maxSymbols) (cells : lower.maxCells ≤ upper.maxCells)
    (capacity : lower.environmentCapacity ≤ upper.environmentCapacity) {machine : Machine}
    (created : Machine.new lower = .ok (.ok machine)) (host : Host) (calls : List Call) :
    ∃ other answers, Machine.new upper = .ok (.ok other) ∧
      machine.runCalls host calls = .ok answers ∧
      ((∀ result ∈ answers, result.1.IsUnhindered result.2.heap) →
        ∃ otherAnswers, other.runCalls host calls = .ok otherAnswers ∧
          List.Forall₂ SameResult answers otherAnswers) := by
  have sound := sound_new created
  obtain ⟨other, otherCreated, roomier⟩ := Roomier.new builtins symbols cells capacity created
  obtain ⟨answers, ran⟩ := sound.exists_runCalls host calls
  exact ⟨other, answers, otherCreated, ran, roomier.runCalls sound ran⟩

theorem raising_ceilings_for_quoted_list :
    ∃ machine other value after final, Machine.new {} = .ok (.ok machine) ∧
      Machine.new { maxCells := 1 <<< 25, environmentCapacity := 2048 } = .ok (.ok other) ∧
      machine.runCalls Host.none [.evalForms "'(quote)"] =
        .ok [(.forms (.ok [.ok value]), after)] ∧
      other.runCalls Host.none [.evalForms "'(quote)"] =
        .ok [(.forms (.ok [.ok value]), final)] ∧
      final.heap.stats = after.heap.stats := by
  obtain ⟨fresh, environment, heap, made, seeded, -, cells, maxCells⟩ :=
    Environment.exists_new_with_builtins
  have created : Machine.new {} = .ok (.ok ⟨heap, environment⟩) := by
    simp only [Machine.new, made, seeded]
    rfl
  have sound := sound_new created
  have known : (Tree.list [.symbol "quote"]).names.toFinset ⊆ heap.symbols.nameSet := by
    simpa using SymbolTable.mem_nameSet.mpr ⟨_, sound.keywords.quote⟩
  have size : (Tree.list [.symbol "quote"]).quoted.cellCount = 3 := by decide
  obtain ⟨value, after, evaluated, -⟩ :=
    sound.exists_quoted Host.none (by decide) known (by rw [size, cells, maxCells]; decide)
  have ran : Machine.runCalls Host.none ⟨heap, environment⟩ [.evalForms "'(quote)"] =
      .ok [(.forms (.ok [.ok value]), after)] :=
    runCalls_cons_eq_ok_iff.mpr
      ⟨_, after, [], map_eq_ok_iff.mpr ⟨_, evaluated, rfl⟩, rfl, rfl⟩
  obtain ⟨other, answers, otherCreated, sameRan, raised⟩ :=
    @raising_ceilings {} { maxCells := 1 <<< 25, environmentCapacity := 2048 } rfl (Nat.le_refl _)
      (by decide) (by decide) _ created Host.none [.evalForms "'(quote)"]
  cases ran.symm.trans sameRan
  obtain ⟨otherAnswers, otherRan, same⟩ := raised <| by
    intro result member error has
    cases List.mem_singleton.mp member
    cases has with
    | form failed => simp at failed
  cases same with
  | @cons _ result _ _ first others =>
      cases others
      obtain ⟨answer, final⟩ := result
      cases first.answer
      exact ⟨_, other, value, after, final, created, otherCreated, ran, otherRan, first.stats⟩

end Machine

end TaggedLisp
