import TaggedLisp.Console.Report
import TaggedLisp.Proofs.Evaluation.Sources
import TaggedLisp.Proofs.Walks

/-! A report has one entry for each outcome of its source, in the same order: the line of a result,
which the dump of the result may follow, or the line of a failure. The lines are the same with dumps
and without. -/

set_option autoImplicit false

namespace TaggedLisp

/-- What is printed about one outcome. -/
structure Entry where
  line : Emission
  dumps : List Emission

def Entry.emissions (entry : Entry) : List Emission :=
  entry.line :: entry.dumps

/-- The entry of an outcome, whose value is rendered in the given heap. -/
inductive Entry.Shows (format : OutputFormat) (showDump : Bool) (heap : Heap) :
    Except Error Value → Entry → Prop where
  | failure {error : Error} : Shows format showDump heap (.error error) ⟨.failure error, []⟩
  | result {value : Value} {text : String} : showDump = false →
      format.renderValue heap value = .ok text →
      Shows format showDump heap (.ok value) ⟨.line text, []⟩
  | dumped {value : Value} {text dump : String} : showDump = true →
      format.renderValue heap value = .ok text → heap.describe value = .ok dump →
      Shows format showDump heap (.ok value) ⟨.line text, [.print dump]⟩

/-- The outcomes that are reported of a source. One that cannot be read has a single outcome. -/
def reportedOutcomes : Except Error (List (Except Error Value)) → List (Except Error Value)
  | .error error => [.error error]
  | .ok outcomes => outcomes

variable {host : Host} {format : OutputFormat} {showDump : Bool} {heap : Heap}
  {outcome : Except Error Value} {machine : Machine} {source : String} {report : Report}

theorem Entry.Shows.plain {entry : Entry} (shown : Entry.Shows format showDump heap outcome entry) :
    Entry.Shows format false heap outcome ⟨entry.line, []⟩ := by
  cases shown with
  | failure => exact .failure
  | result _ rendered => exact .result rfl rendered
  | dumped _ rendered => exact .result rfl rendered

theorem outcomeEmissions_eq_ok_iff {emissions : List Emission} :
    outcomeEmissions format showDump heap outcome = .ok emissions ↔
      ∃ entry, Entry.Shows format showDump heap outcome entry ∧ emissions = entry.emissions := by
  unfold outcomeEmissions
  constructor
  · intro printed
    cases outcome with
    | error error =>
        cases printed
        exact ⟨_, .failure, rfl⟩
    | ok value =>
        obtain ⟨text, rendered, printed⟩ := exists_of_bind_eq_ok printed
        cases showDump with
        | false =>
            cases printed
            exact ⟨_, .result rfl rendered, rfl⟩
        | true =>
            obtain ⟨dump, described, printed⟩ := exists_of_bind_eq_ok printed
            cases printed
            exact ⟨_, .dumped rfl rendered described, rfl⟩
  · rintro ⟨entry, shown, rfl⟩
    cases shown with
    | failure => rfl
    | result plain rendered =>
        simp only [plain, rendered, bind, Except.bind]
        rfl
    | dumped dumping rendered described =>
        simp only [dumping, rendered, described, bind, Except.bind]
        rfl

theorem mapM_outcomeEmissions_eq_ok_iff {outcomes : List (Except Error Value)}
    {printed : List (List Emission)} :
    outcomes.mapM (outcomeEmissions format showDump heap) = .ok printed ↔
      ∃ entries, List.Forall₂ (Entry.Shows format showDump heap) outcomes entries ∧
        printed = entries.map Entry.emissions := by
  induction outcomes generalizing printed with
  | nil => simp [pure, Except.pure, eq_comm]
  | cons outcome outcomes ih =>
      rw [List.mapM_cons]
      constructor
      · intro all
        obtain ⟨emissions, first, all⟩ := exists_of_bind_eq_ok all
        obtain ⟨later, others, all⟩ := exists_of_bind_eq_ok all
        cases all
        obtain ⟨entry, shown, rfl⟩ := outcomeEmissions_eq_ok_iff.mp first
        obtain ⟨entries, each, rfl⟩ := ih.mp others
        exact ⟨entry :: entries, .cons shown each, rfl⟩
      · rintro ⟨_, each, rfl⟩
        cases each with
        | cons shown each =>
            simp only [outcomeEmissions_eq_ok_iff.mpr ⟨_, shown, rfl⟩, ih.mpr ⟨_, each, rfl⟩,
              bind, Except.bind]
            rfl

/-- A report says what the forms of its source came to, and nothing else. -/
theorem Report.ofSource_eq_ok_iff :
    Report.ofSource host format showDump source machine = .ok report ↔
      ∃ outcome entries, machine.evalForms host source = .ok (outcome, report.machine) ∧
        List.Forall₂ (Entry.Shows format showDump report.machine.heap) (reportedOutcomes outcome)
          entries ∧
        report.emissions = entries.flatMap Entry.emissions ∧
        report.succeeded = (reportedOutcomes outcome).all isSuccess := by
  unfold Report.ofSource
  cases evaluated : machine.evalForms host source with
  | error fault => simp [bind, Except.bind]
  | ok result =>
      obtain ⟨outcome, after⟩ := result
      cases outcome with
      | error error =>
          simp only [bind, Except.bind, pure, Except.pure]
          constructor
          · intro reported
            cases reported
            exact ⟨_, [⟨.failure error, []⟩], rfl, .cons .failure .nil, rfl, rfl⟩
          · rintro ⟨outcome, entries, same, each, emissions, succeeded⟩
            cases same
            cases each with
            | cons shown each =>
                cases each
                cases shown
                cases report
                cases emissions
                cases succeeded
                rfl
      | ok outcomes =>
          simp only [bind, Except.bind, pure, Except.pure]
          constructor
          · intro reported
            split at reported
            · cases reported
            · next printed all =>
              cases reported
              obtain ⟨entries, each, rfl⟩ := mapM_outcomeEmissions_eq_ok_iff.mp all
              exact ⟨_, entries, rfl, each, List.flatMap_def.symm, rfl⟩
          · rintro ⟨outcome, entries, same, each, emissions, succeeded⟩
            cases same
            have all : outcomes.mapM (outcomeEmissions format showDump report.machine.heap) =
                .ok (entries.map Entry.emissions) :=
              mapM_outcomeEmissions_eq_ok_iff.mpr ⟨entries, each, rfl⟩
            rw [reportedOutcomes] at succeeded
            simp only [all, ← List.flatMap_def, ← emissions, ← succeeded]

/-! ## Everything that was evaluated can be reported -/

theorem exists_renderValue (format : OutputFormat) {value : Value} {tree : Tree}
    (unfolds : heap.Unfolds value tree) : ∃ text, format.renderValue heap value = .ok text := by
  cases format with
  | text =>
      simp only [OutputFormat.renderValue, unfolds.display]
      exact ⟨_, rfl⟩
  | json =>
      simp only [OutputFormat.renderValue, unfolds.toDatum]
      exact ⟨_, rfl⟩

theorem Entry.exists_shows (format : OutputFormat) (showDump : Bool)
    (unfolds : ∀ value, outcome = .ok value → ∃ tree, heap.Unfolds value tree) :
    ∃ entry, Entry.Shows format showDump heap outcome entry := by
  cases outcome with
  | error error => exact ⟨_, .failure⟩
  | ok value =>
      obtain ⟨tree, unfolds⟩ := unfolds value rfl
      obtain ⟨text, rendered⟩ := exists_renderValue format unfolds
      cases showDump with
      | false => exact ⟨_, .result rfl rendered⟩
      | true =>
          obtain ⟨dump, described⟩ := unfolds.exists_describe
          exact ⟨_, .dumped rfl rendered described⟩

theorem Entry.exists_showsEach (format : OutputFormat) (showDump : Bool)
    {outcomes : List (Except Error Value)}
    (unfolds : ∀ value, .ok value ∈ outcomes → ∃ tree, heap.Unfolds value tree) :
    ∃ entries, List.Forall₂ (Entry.Shows format showDump heap) outcomes entries := by
  induction outcomes with
  | nil => exact ⟨[], .nil⟩
  | cons outcome outcomes ih =>
      obtain ⟨entry, shown⟩ : ∃ entry, Entry.Shows format showDump heap outcome entry :=
        Entry.exists_shows format showDump fun value same => unfolds value (same ▸ List.mem_cons_self)
      obtain ⟨entries, each⟩ := ih fun value member => unfolds value (List.mem_cons_of_mem _ member)
      exact ⟨entry :: entries, .cons shown each⟩

theorem Report.exists_ofSource (format : OutputFormat) (showDump : Bool) {after : Machine}
    {outcome : Except Error (List (Except Error Value))}
    (evaluated : machine.evalForms host source = .ok (outcome, after))
    (unfolds : ∀ value, .ok value ∈ reportedOutcomes outcome → ∃ tree, after.heap.Unfolds value tree) :
    ∃ report, Report.ofSource host format showDump source machine = .ok report ∧
      report.machine = after := by
  obtain ⟨entries, each⟩ := Entry.exists_showsEach format showDump unfolds
  exact ⟨⟨entries.flatMap Entry.emissions, (reportedOutcomes outcome).all isSuccess, after⟩,
    Report.ofSource_eq_ok_iff.mpr ⟨outcome, entries, evaluated, each, rfl, rfl⟩, rfl⟩

end TaggedLisp
