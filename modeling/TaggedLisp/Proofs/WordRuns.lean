import TaggedLisp.Proofs.Evaluation.Words
import TaggedLisp.Proofs.Workspace

/-! No run makes a value that its word cannot hold, however large the limits in the settings are. So
every value that is stored or answered comes back from its word, and in no store do two entries share
a word. -/

set_option autoImplicit false

namespace TaggedLisp

namespace Workspace

/-- A run, with the outcomes of all that was done. Operands may be any words, also words from elsewhere
that point outside the stores. -/
inductive WordRun (settings : Settings) : List (Except Error Value) → Workspace → Prop where
  | new {heap : Heap} : Heap.new settings = .ok heap → WordRun settings [] ⟨heap, []⟩
  | environment {outcomes : List (Except Error Value)} {workspace : Workspace} {other : Settings}
      {outcome : Except Error Environment} {heap : Heap} : WordRun settings outcomes workspace →
      Environment.new workspace.heap other = .ok (outcome, heap) →
      WordRun settings outcomes ⟨heap, workspace.environments ++ outcome.toOption.toList⟩
  | perform {outcomes : List (Except Error Value)} {workspace : Workspace} {host : Host}
      {index : Nat} {operation : Operation} {outcome : Except Error Value} {machine : Machine} :
      WordRun settings outcomes workspace → host.HandsWords →
      (∀ operand ∈ operation.operands, operand.Fits) →
      (workspace.machine index).perform host operation = .ok (outcome, machine) →
      WordRun settings (outcomes ++ [outcome]) (workspace.keep index machine)
  | eval {outcomes : List (Except Error Value)} {workspace : Workspace} {host : Host}
      {index : Nat} {form : Value} {outcome : Except Error Value} {machine : Machine} :
      WordRun settings outcomes workspace → host.HandsWords →
      (workspace.machine index).eval host form = .ok (outcome, machine) →
      WordRun settings (outcomes ++ [outcome]) (workspace.keep index machine)
  | evalForms {outcomes : List (Except Error Value)} {workspace : Workspace} {host : Host}
      {index : Nat} {source : String} {outcome : Except Error (List (Except Error Value))}
      {machine : Machine} : WordRun settings outcomes workspace → host.HandsWords →
      (workspace.machine index).evalForms host source = .ok (outcome, machine) →
      WordRun settings (outcomes ++ outcome.toOption.getD []) (workspace.keep index machine)
  | evalSource {outcomes : List (Except Error Value)} {workspace : Workspace} {host : Host}
      {index : Nat} {source : String} {outcome : Except Error Value} {machine : Machine} :
      WordRun settings outcomes workspace → host.HandsWords →
      (workspace.machine index).evalSource host source = .ok (outcome, machine) →
      WordRun settings (outcomes ++ [outcome]) (workspace.keep index machine)

/-- Every index of an entry leaves room for the tags, and all values in cells, in bindings and among
the outcomes fit. -/
structure HoldsWords (workspace : Workspace) (outcomes : List (Except Error Value)) : Prop where
  heap : workspace.heap.HoldsWords
  bindings : ∀ environment ∈ workspace.environments, ∀ symbol value,
    environment.find? symbol = some value → value.Fits
  outcomes : ∀ value, .ok value ∈ outcomes → value.Fits

variable {workspace : Workspace} {outcomes : List (Except Error Value)}

theorem HoldsWords.machine (holds : workspace.HoldsWords outcomes) (index : Nat) :
    (workspace.machine index).HoldsWords := by
  refine ⟨holds.heap, fun symbol value found => ?_⟩
  unfold Workspace.machine at found
  rw [List.getD_eq_getElem?_getD] at found
  cases kept : workspace.environments[index]? with
  | none => simp [kept] at found
  | some environment =>
      rw [kept] at found
      exact holds.bindings _ (List.mem_of_getElem? kept) symbol value found

theorem HoldsWords.keep (holds : workspace.HoldsWords outcomes) {index : Nat} {machine : Machine}
    (after : machine.HoldsWords) {later : List (Except Error Value)}
    (fits : ∀ value, .ok value ∈ later → value.Fits) :
    (workspace.keep index machine).HoldsWords (outcomes ++ later) := by
  refine ⟨after.heap, fun environment member => ?_, fun value member => ?_⟩
  · rcases List.mem_or_eq_of_mem_set member with old | rfl
    · exact holds.bindings environment old
    · exact after.bindings
  · exact (List.mem_append.mp member).elim (holds.outcomes value) (fits value)

theorem HoldsWords.keep_answer (holds : workspace.HoldsWords outcomes) {index : Nat}
    {outcome : Except Error Value} {machine : Machine}
    (answers : Machine.AnswersWord outcome machine) :
    (workspace.keep index machine).HoldsWords (outcomes ++ [outcome]) :=
  holds.keep answers.holds fun value member => answers.fits value (List.mem_singleton.mp member).symm

theorem WordRun.holdsWords {settings : Settings} (run : WordRun settings outcomes workspace) :
    workspace.HoldsWords outcomes := by
  induction run with
  | new created => exact ⟨Heap.holdsWords_new created, by simp, by simp⟩
  | @environment _ _ _ outcome _ _ made ih =>
      obtain ⟨log, makes⟩ := Environment.exists_makes made
      obtain ⟨heap, fits⟩ := makes.holdsWords ih.heap
      refine ⟨heap, fun environment member => ?_, ih.outcomes⟩
      rcases List.mem_append.mp member with old | new
      · exact ih.bindings environment old
      · cases outcome with
        | error => simp [Except.toOption] at new
        | ok made =>
            cases List.mem_singleton.mp new
            exact fits _ rfl
  | perform _ hands given ran ih =>
      obtain ⟨log, performs⟩ := Machine.exists_performs ran
      exact ih.keep_answer (performs.answersWord hands given (ih.machine _))
  | eval _ hands ran ih =>
      obtain ⟨log, evaluates⟩ := Machine.exists_evaluates ran
      exact ih.keep_answer (evaluates.answersWord hands (ih.machine _))
  | @evalForms _ _ _ _ _ outcome _ _ hands ran ih =>
      obtain ⟨log, evaluates⟩ := Machine.exists_evaluatesForms ran
      obtain ⟨after, fits⟩ := evaluates.holdsWords hands (ih.machine _)
      cases outcome with
      | error => exact ih.keep after (by simp [Except.toOption])
      | ok outcomes => exact ih.keep after (fits outcomes rfl)
  | evalSource _ hands ran ih =>
      obtain ⟨log, evaluates⟩ := Machine.exists_evaluatesSource ran
      exact ih.keep_answer (evaluates.answersWord hands (ih.machine _))

/-- The fields of a word lie side by side up to the limit on indices, values share a word exactly if
their words are viewed alike, and all tests on words agree with the view. However large the limits in
the settings are, no run goes beyond the limit on indices, so the values of a workspace come back from
their words, and no two of them share one. -/
theorem words_lose_nothing :
    (∀ kind index, index ≤ indexLimit → (Word.boxed kind index).view = kind.value index ∧
      (Word.boxed kind index).toNat = index <<< 3 ||| kind.code <<< 1 ||| 1) ∧
    (∀ left right : Value, left.word = right.word ↔ left.word.view = right.word.view) ∧
    (∀ word : Word, word.AgreesWithView) ∧
    ∀ settings outcomes workspace, WordRun settings outcomes workspace →
      workspace.HoldsWords outcomes ∧
      (∀ value, workspace.heap.contains value = true → value.Fits ∧ value.word.view = value) ∧
      ∀ left right, workspace.heap.contains left = true → workspace.heap.contains right = true →
        left.word = right.word → left = right := by
  refine ⟨fun kind index le => ⟨?_, Word.toNat_boxed_of_le le⟩, fun _ _ => Value.word_eq_iff,
    Word.agreesWithView, fun settings outcomes workspace run => ?_⟩
  · rw [Word.view_boxed, Nat.mod_eq_of_lt (by simp only [indexLimit] at le; omega)]
  · have holds := run.holdsWords
    have fits : ∀ value, workspace.heap.contains value = true → value.Fits := fun _ contained =>
      holds.heap.fits contained
    exact ⟨holds, fun value contained =>
        ⟨fits value contained, Value.view_word_of_fits (fits value contained)⟩,
      fun left right leftContained rightContained =>
        Value.eq_of_word_eq (fits left leftContained) (fits right rightContained)⟩

/-- The largest index comes back from its word. A list is made whose element lies outside the stores,
and then the word of the list is told apart from that of the keyword. -/
theorem words_lose_nothing_after_cons :
    ∃ heap after, Heap.new {} = .ok heap ∧ WordRun {} [.ok (.list heap.cells.size)] ⟨after, []⟩ ∧
      (Word.boxed .symbol indexLimit).view = .symbol indexLimit ∧
      after.contains (.symbol indexLimit) = false ∧
      (Value.list heap.cells.size).word.view = .list heap.cells.size ∧
      (Value.list heap.cells.size).word ≠ (Value.symbol heap.keywords.definition).word := by
  have created : Heap.new {} = .ok ((Heap.new {}).toOption.get (by decide)) := rfl
  have room : ((Heap.new {}).toOption.get (by decide)).cells.size <
      ((Heap.new {}).toOption.get (by decide)).maxCells := by decide
  have symbols : ((Heap.new {}).toOption.get (by decide)).symbols.size ≤ indexLimit := by decide
  generalize (Heap.new {}).toOption.get (by decide) = heap at created room symbols
  let link : Cell := ⟨.symbol indexLimit, .emptyList⟩
  have ran := perform_cons Host.none room link.head (show link.tail.isList = true from rfl)
  have hands : Host.none.HandsWords := fun _ _ _ => .done fun _ other => by cases other
  have run : WordRun {} [.ok (.list heap.cells.size)]
      ⟨{ heap with cells := heap.cells.push link }, []⟩ := by
    refine .perform (.new created) hands ?_ ran
    simp [Operation.operands, link, Value.Fits, Value.index?]
  obtain ⟨packed, -, -, runs⟩ := words_lose_nothing
  obtain ⟨holds, whole, distinct⟩ := runs _ _ _ run
  have foreign : heap.contains (.symbol indexLimit) = false :=
    decide_eq_false (Nat.not_lt_of_le symbols)
  have keyword : heap.contains (.symbol heap.keywords.definition) = true :=
    decide_eq_true (SymbolTable.lt_size_of_name? holds.heap.keywords.definition)
  have added : Heap.contains { heap with cells := heap.cells.push link }
      (.list heap.cells.size) = true := by
    simp [Heap.contains]
  exact ⟨heap, _, created, run, (packed .symbol indexLimit le_rfl).1, foreign, (whole _ added).2,
    fun same => by cases distinct _ (.symbol heap.keywords.definition) added keyword same⟩

end Workspace

end TaggedLisp
