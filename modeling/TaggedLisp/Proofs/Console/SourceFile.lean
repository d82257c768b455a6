import TaggedLisp.CommandLine.Launch
import TaggedLisp.Proofs.Console.Reports
import TaggedLisp.Proofs.Evaluation.OneLine
import TaggedLisp.Proofs.Reader.RoundTrip
import TaggedLisp.Proofs.SourceData

/-! The report of a source file says line by line what was evaluated. A fresh machine binds nothing that
has a line feed in its name, and a source has none in its symbols, so every result is shown on a line
of its own, and so is the failure at the end, if there is one. The exit code of the program tells
whether there is. -/

set_option autoImplicit false

namespace TaggedLisp

open Text

/-! ## Evaluation up to the first failure -/

namespace Machine

variable {host : Host} {machine after : Machine} {forms : List Value}
  {outcomes : List (Except Error Value)}

/-- Some forms from the first one on come to values, and the next form, if there is one, fails. -/
theorem exists_leading_of_evalEach (ran : machine.evalEach host forms = .ok (outcomes, after)) :
    ∃ (values : List Value) (middle : Machine),
      machine.evalEach host (forms.take values.length) = .ok (values.map .ok, middle) ∧
      ((values.length = forms.length ∧ outcomes = values.map .ok ∧ after = middle) ∨
        ∃ form error, forms[values.length]? = some form ∧
          middle.eval host form = .ok (.error error, after) ∧
          outcomes = values.map .ok ++ [.error error]) := by
  induction forms generalizing machine outcomes with
  | nil =>
      cases ran
      exact ⟨[], after, rfl, .inl ⟨rfl, rfl, rfl⟩⟩
  | cons form forms ih =>
      rcases evalEach_cons_eq_ok_iff.mp ran with
        ⟨error, failed, rfl⟩ | ⟨value, next, later, succeeded, rest, rfl⟩
      · exact ⟨[], machine, rfl, .inr ⟨form, error, rfl, failed, rfl⟩⟩
      · obtain ⟨values, middle, leading, shape⟩ := ih rest
        have evaluated : machine.evalEach host ((form :: forms).take (value :: values).length) =
            .ok ((value :: values).map .ok, middle) :=
          evalEach_cons_eq_ok_iff.mpr (.inr ⟨value, next, _, succeeded, leading, rfl⟩)
        rcases shape with ⟨length, rfl, last⟩ | ⟨form, error, found, failed, rfl⟩
        · exact ⟨value :: values, middle, evaluated, .inl ⟨by simp [length], rfl, last⟩⟩
        · exact ⟨value :: values, middle, evaluated, .inr ⟨form, error, found, failed, rfl⟩⟩

end Machine

/-! ## Outcomes on one line -/

theorem Lambda.isOneLine_name {settings : Settings} {contents : Lambda}
    (reserved : contents ∈ Lambda.reserved settings) : IsOneLine contents.name := by
  have all : ∀ builtin ∈ [Lambda.quote, Lambda.head, Lambda.tail], IsOneLine builtin.name := by
    decide
  refine all contents ?_
  unfold Lambda.reserved at reserved
  split at reserved
  · exact reserved
  · rw [List.mem_singleton.mp reserved]
    exact List.mem_cons_self

/-- A value whose tree is shown on one line. -/
def Heap.ShowsOneLine (heap : Heap) (value : Value) : Prop :=
  ∃ tree, heap.Unfolds value tree ∧ tree.OneLine

theorem Heap.ShowsOneLine.grow {before after : Heap} (growth : before.GrowsTo after) {value : Value}
    (oneLine : before.ShowsOneLine value) : after.ShowsOneLine value := by
  obtain ⟨tree, unfolds, plain⟩ := oneLine
  exact ⟨tree, unfolds.grow growth, plain⟩

theorem Heap.ShowsOneLine.isOneLine_of_renderValue {heap : Heap} {value : Value}
    (oneLine : heap.ShowsOneLine value) {format : OutputFormat} {text : String}
    (rendered : format.renderValue heap value = .ok text) : IsOneLine text := by
  obtain ⟨tree, unfolds, plain⟩ := oneLine
  cases format with
  | text =>
      simp only [OutputFormat.renderValue, unfolds.display] at rendered
      cases rendered
      exact isOneLine_append.mpr ⟨by decide, plain.text⟩
  | json =>
      simp only [OutputFormat.renderValue, unfolds.toDatum] at rendered
      cases rendered
      exact tree.datum.isOneLine_toJson

namespace Machine

variable {host : Host} {machine after : Machine} {bindings : Bindings} {forms : List Value}
  {trees : List Tree} {outcomes : List (Except Error Value)}

/-- One form: what it comes to fits on a line, and so does everything that is bound afterwards. -/
theorem Unfolds.oneLine_of_eval (unfolds : machine.Unfolds bindings) (bound : bindings.OneLine)
    (limits : machine.heap.WithinLimits) {form : Value} {tree : Tree}
    (formUnfolds : machine.heap.Unfolds form tree) (plain : tree.OneLine)
    {outcome : Except Error Value} (ran : machine.eval host form = .ok (outcome, after)) :
    OneLineOutcome after.heap.ShowsOneLine outcome ∧
      ∀ value, outcome = .ok value → machine.heap.GrowsTo after.heap ∧ after.heap.WithinLimits ∧
        ∃ next, after.Unfolds next ∧ next.OneLine := by
  obtain ⟨_, _, ranAgain, follows⟩ := unfolds.exists_eval host limits formUnfolds
  cases ran.symm.trans ranAgain
  obtain ⟨log, evaluates⟩ := exists_evaluates ran
  have limits := (evaluates.addsCells unfolds.hostFree).withinLimits limits
  have step := plain.evaluate tree bound
  rcases follows.agrees with rfl | ⟨agrees, next⟩
  · exact ⟨.of_quotes (by decide), fun _ failed => by cases failed⟩
  · refine ⟨?_, fun _ _ => ⟨follows.growsTo, limits, _, next, step.bindings⟩⟩
    have oneLine := step.outcome
    generalize (tree.evaluate bindings).1 = expected at agrees oneLine
    cases agrees with
    | ok valueUnfolds =>
        cases oneLine with
        | ok fits => exact .ok ⟨_, valueUnfolds, fits⟩
    | error =>
        cases oneLine with
        | error fits => exact .error fits

theorem Unfolds.oneLine_of_evalEach (unfolds : machine.Unfolds bindings) (bound : bindings.OneLine)
    (limits : machine.heap.WithinLimits) (each : List.Forall₂ machine.heap.Unfolds forms trees)
    (plain : ∀ tree ∈ trees, tree.OneLine)
    (ran : machine.evalEach host forms = .ok (outcomes, after)) :
    ∀ outcome ∈ outcomes, OneLineOutcome after.heap.ShowsOneLine outcome := by
  induction forms generalizing machine bindings trees outcomes with
  | nil =>
      cases ran
      simp
  | cons form forms ih =>
      cases each with
      | cons formUnfolds each =>
          obtain ⟨first, others⟩ := List.forall_mem_cons.mp plain
          rcases evalEach_cons_eq_ok_iff.mp ran with
            ⟨error, failed, rfl⟩ | ⟨value, middle, later, succeeded, rest, rfl⟩
          · have oneLine := unfolds.oneLine_of_eval bound limits formUnfolds first failed
            exact List.forall_mem_singleton.mpr oneLine.1
          · obtain ⟨oneLine, kept⟩ :=
              unfolds.oneLine_of_eval bound limits formUnfolds first succeeded
            obtain ⟨growth, limits, next, nextUnfolds, nextBound⟩ := kept value rfl
            obtain ⟨log, evaluates⟩ := exists_evaluatesEach rest
            refine List.forall_mem_cons.mpr ⟨?_, ih nextUnfolds nextBound limits
              (Heap.unfoldsEach_grow growth each) others rest⟩
            cases oneLine with
            | ok fits => exact .ok (fits.grow evaluates.growsTo)

/-- What is bound in a machine that was only given sources is shown on one line. -/
theorem Sound.exists_oneLine_unfolds {settings : Settings} {parsed : Set Nat} {results : List Value}
    (sound : machine.Sound settings parsed results) :
    ∃ bindings, machine.Unfolds bindings ∧ bindings.OneLine := by
  obtain ⟨bindings, unfolds⟩ := sound.exists_unfolds
  refine ⟨bindings, unfolds, fun name tree isBound => ?_⟩
  obtain ⟨symbol, value, -, found, valueUnfolds⟩ := (unfolds.environment.bound name tree).mp isBound
  cases (sound.holds symbol value found).2 with
  | @lambda record contents recorded =>
      cases valueUnfolds.unique (.lambda recorded)
      rw [sound.lambdas, List.getElem?_toArray] at recorded
      exact .lambda (Lambda.isOneLine_name (List.mem_of_getElem? recorded))
  | sourced sourced =>
      obtain ⟨other, otherUnfolds, readable⟩ := sourced.exists_unfolds
      cases valueUnfolds.unique otherUnfolds
      exact tree.oneLine_of_isReadable readable

end Machine

/-! ## The lines of a report -/

namespace Emission

theorem textOn_append (channel : Channel) (emissions others : List Emission) :
    textOn channel (emissions ++ others) = textOn channel emissions ++ textOn channel others := by
  simp [textOn]

theorem textOn_output_lines (lines : List String) :
    textOn .output (lines.map line) = String.join (lines.map (· ++ "\n")) := by
  simp [textOn, line, Function.comp_def, List.filter_map]

theorem textOn_error_lines (lines : List String) : textOn .error (lines.map line) = "" := by
  simp [textOn, line, Function.comp_def, List.filter_map]

theorem textOn_output_failure (error : Error) : textOn .output [failure error] = "" := rfl

theorem textOn_error_failure (error : Error) :
    textOn .error [failure error] = "error: " ++ error.message ++ "\n" := by
  simp [textOn, failure, complaint]

end Emission

namespace Report

open Emission

/-- What the report of a source tells. -/
inductive Tells (format : OutputFormat) (machine : Machine) (source : String) (report : Report) :
    Prop where
  | unreadable {error : Error} {heap : Heap} :
      machine.heap.readForms source = (.error error, heap) → IsOneLine error.message →
      textOn .output report.emissions = "" →
      textOn .error report.emissions = "error: " ++ error.message ++ "\n" →
      report.succeeded = false → report.machine = { machine with heap } →
      Tells format machine source report
  | completed {forms values : List Value} {lines : List String} {heap : Heap} :
      machine.heap.readForms source = (.ok forms, heap) →
      Machine.evalEach .none { machine with heap } forms = .ok (values.map .ok, report.machine) →
      values.length = forms.length →
      List.Forall₂ (fun value line => format.renderValue report.machine.heap value = .ok line ∧
        IsOneLine line) values lines →
      textOn .output report.emissions = String.join (lines.map (· ++ "\n")) →
      textOn .error report.emissions = "" → report.succeeded = true →
      Tells format machine source report
  | stopped {forms values : List Value} {lines : List String} {heap : Heap} {middle : Machine}
      {form : Value} {error : Error} :
      machine.heap.readForms source = (.ok forms, heap) →
      Machine.evalEach .none { machine with heap } (forms.take values.length) =
        .ok (values.map .ok, middle) →
      forms[values.length]? = some form →
      middle.eval .none form = .ok (.error error, report.machine) → IsOneLine error.message →
      List.Forall₂ (fun value line => format.renderValue report.machine.heap value = .ok line ∧
        IsOneLine line) values lines →
      textOn .output report.emissions = String.join (lines.map (· ++ "\n")) →
      textOn .error report.emissions = "error: " ++ error.message ++ "\n" →
      report.succeeded = false → Tells format machine source report

variable {format : OutputFormat} {heap : Heap} {machine : Machine} {source : String}

theorem exists_lines_of_entries {values : List Value} {others : List (Except Error Value)}
    {entries : List Entry}
    (shown : List.Forall₂ (Entry.Shows format false heap) (values.map .ok ++ others) entries)
    (oneLine : ∀ value ∈ values, heap.ShowsOneLine value) :
    ∃ lines rest, entries.flatMap Entry.emissions =
        lines.map line ++ rest.flatMap Entry.emissions ∧
      List.Forall₂ (fun value line => format.renderValue heap value = .ok line ∧ IsOneLine line)
        values lines ∧
      List.Forall₂ (Entry.Shows format false heap) others rest := by
  induction values generalizing entries with
  | nil => exact ⟨[], entries, rfl, .nil, shown⟩
  | cons value values ih =>
      obtain ⟨first, later⟩ := List.forall_mem_cons.mp oneLine
      cases shown with
      | cons entry shown =>
          obtain ⟨lines, rest, emissions, rendered, remaining⟩ := ih shown later
          cases entry with
          | @result _ text _ renders =>
              refine ⟨text :: lines, rest, ?_,
                .cons ⟨renders, first.isOneLine_of_renderValue renders⟩ rendered, remaining⟩
              rw [List.flatMap_cons, emissions]
              rfl
          | dumped dumping => cases dumping

theorem exists_tells_of_unreadable (format : OutputFormat) (keywords : machine.heap.KeywordsNamed)
    {error : Error} (unread : machine.heap.readForms source = (.error error, heap)) :
    ∃ report, Report.ofSource .none format false source machine = .ok report ∧
      report.Tells format machine source := by
  have evaluated : machine.evalForms .none source = .ok (.error error, { machine with heap }) :=
    Machine.evalForms_eq_ok_iff.mpr (.inl ⟨error, heap, unread, rfl, rfl⟩)
  refine ⟨⟨[.failure error], false, { machine with heap }⟩, Report.ofSource_eq_ok_iff.mpr
    ⟨_, [⟨.failure error, []⟩], evaluated, .cons .failure .nil, rfl, rfl⟩, ?_⟩
  exact .unreadable unread (Heap.isOneLine_of_readForms keywords unread)
    (textOn_output_failure error) (textOn_error_failure error) rfl rfl

/-- A report with nothing but lines of results tells that evaluation came to the end. -/
theorem tells_of_lines {report : Report} {forms values : List Value} {lines : List String}
    (read : machine.heap.readForms source = (.ok forms, heap))
    (ran : Machine.evalEach .none { machine with heap } forms =
      .ok (values.map .ok, report.machine))
    (length : values.length = forms.length)
    (rendered : List.Forall₂ (fun value line =>
      format.renderValue report.machine.heap value = .ok line ∧ IsOneLine line) values lines)
    (emissions : report.emissions = lines.map line) (succeeded : report.succeeded = true) :
    report.Tells format machine source := by
  have output : textOn .output report.emissions = String.join (lines.map (· ++ "\n")) := by
    rw [emissions, textOn_output_lines]
  have error : textOn .error report.emissions = "" := by
    rw [emissions, textOn_error_lines]
  exact .completed read ran length rendered output error succeeded

/-- A report with a failure after the lines of results tells that evaluation stopped there. -/
theorem tells_of_lines_and_failure {report : Report} {forms values : List Value}
    {lines : List String} {middle : Machine} {form : Value} {error : Error}
    (read : machine.heap.readForms source = (.ok forms, heap))
    (leading : Machine.evalEach .none { machine with heap } (forms.take values.length) =
      .ok (values.map .ok, middle))
    (found : forms[values.length]? = some form)
    (failed : middle.eval .none form = .ok (.error error, report.machine))
    (message : IsOneLine error.message)
    (rendered : List.Forall₂ (fun value line =>
      format.renderValue report.machine.heap value = .ok line ∧ IsOneLine line) values lines)
    (emissions : report.emissions = lines.map line ++ [.failure error])
    (succeeded : report.succeeded = false) : report.Tells format machine source := by
  have output : textOn .output report.emissions = String.join (lines.map (· ++ "\n")) := by
    rw [emissions, textOn_append, textOn_output_lines, textOn_output_failure, String.append_empty]
  have complaint :
      textOn .error report.emissions = "error: " ++ error.message ++ "\n" := by
    rw [emissions, textOn_append, textOn_error_lines, textOn_error_failure, String.empty_append]
  exact .stopped read leading found failed message rendered output complaint succeeded

/-- What is reported of forms that were evaluated, each of which came to something on one line. -/
theorem tells_of_shows {report : Report} {forms : List Value}
    {outcomes : List (Except Error Value)} {entries : List Entry}
    (read : machine.heap.readForms source = (.ok forms, heap))
    (ran : Machine.evalEach .none { machine with heap } forms = .ok (outcomes, report.machine))
    (oneLine : ∀ outcome ∈ outcomes, OneLineOutcome report.machine.heap.ShowsOneLine outcome)
    (each : List.Forall₂ (Entry.Shows format false report.machine.heap) outcomes entries)
    (emissions : report.emissions = entries.flatMap Entry.emissions)
    (succeeded : report.succeeded = outcomes.all isSuccess) :
    report.Tells format machine source := by
  obtain ⟨values, middle, leading, shape⟩ := Machine.exists_leading_of_evalEach ran
  have fits : ∀ value, .ok value ∈ outcomes → report.machine.heap.ShowsOneLine value := by
    intro value member
    cases oneLine _ member with
    | ok fits => exact fits
  rcases shape with ⟨length, rfl, rfl⟩ | ⟨form, error, found, failed, rfl⟩
  · rw [← List.append_nil (values.map Except.ok)] at each
    obtain ⟨lines, rest, printed, rendered, remaining⟩ := exists_lines_of_entries each
      fun value member => fits value (List.mem_map_of_mem member)
    cases remaining
    rw [List.flatMap_nil, List.append_nil] at printed
    apply tells_of_lines read ran length rendered (emissions.trans printed)
    rw [succeeded]
    simp [isSuccess]
  · obtain ⟨lines, rest, printed, rendered, remaining⟩ := exists_lines_of_entries each
      fun value member => fits value (List.mem_append_left _ (List.mem_map_of_mem member))
    have message : IsOneLine error.message := by
      cases oneLine (.error error) (by simp) with
      | error plain => exact plain
    obtain ⟨last, rfl, shown⟩ : ∃ last, rest = [last] ∧
        Entry.Shows format false report.machine.heap (.error error) last := by
      cases remaining with
      | cons shown none =>
          cases none
          exact ⟨_, rfl, shown⟩
    cases shown
    apply tells_of_lines_and_failure read leading found failed message rendered
      (emissions.trans printed)
    rw [succeeded]
    simp [isSuccess]

theorem exists_tells_of_evalEach (format : OutputFormat) {after : Machine} {forms : List Value}
    {outcomes : List (Except Error Value)}
    (read : machine.heap.readForms source = (.ok forms, heap))
    (ran : Machine.evalEach .none { machine with heap } forms = .ok (outcomes, after))
    (oneLine : ∀ outcome ∈ outcomes, OneLineOutcome after.heap.ShowsOneLine outcome) :
    ∃ report, Report.ofSource .none format false source machine = .ok report ∧
      report.Tells format machine source := by
  have evaluated := Machine.evalForms_of_readForms read ran
  have unfolds : ∀ value, .ok value ∈ outcomes → ∃ tree, after.heap.Unfolds value tree := by
    intro value member
    cases oneLine _ member with
    | ok fits => exact fits.imp fun _ shown => shown.1
  obtain ⟨report, reported, rfl⟩ := Report.exists_ofSource format false evaluated unfolds
  obtain ⟨_, entries, again, each, emissions, succeeded⟩ := Report.ofSource_eq_ok_iff.mp reported
  cases evaluated.symm.trans again
  exact ⟨report, reported, tells_of_shows read ran oneLine each emissions succeeded⟩

/-- In a machine that was only ever given sources, a source can be reported, and the report tells what
was evaluated. -/
theorem exists_tells {settings : Settings} {parsed : Set Nat} {results : List Value}
    (sound : machine.Sound settings parsed results) (format : OutputFormat) (source : String) :
    ∃ report, Report.ofSource .none format false source machine = .ok report ∧
      report.Tells format machine source := by
  rcases read : machine.heap.readForms source with ⟨error | forms, heap⟩
  · exact exists_tells_of_unreadable format sound.keywords read
  · obtain ⟨bindings, unfolds, bound⟩ := sound.exists_oneLine_unfolds
    obtain ⟨trees, exactly⟩ := Heap.exists_readsExactly sound.keywords sound.withinLimits read
    have plain : ∀ tree ∈ trees, tree.OneLine := by
      refine Tree.oneLine_of_isReadableEach trees (exactly.spells.isReadableEach ?_)
      exact fun _ member => Token.isSpelled_of_mem_ofSource member
    have readUnfolds := unfolds.read exactly
    obtain ⟨outcomes, after, ran, -⟩ :=
      readUnfolds.exists_evalEach .none exactly.withinLimits exactly.unfolds
    exact exists_tells_of_evalEach format read ran
      (readUnfolds.oneLine_of_evalEach bound exactly.withinLimits exactly.unfolds plain ran)

end Report

/-! ## The program -/

/-- The command line asks for the evaluation of a source file, and for no session after it. -/
structure Invocation.RunsFile (invocation : Invocation) (files : Files) (settings : Settings)
    (format : OutputFormat) (source : String) : Prop where
  settings : invocation.settings files = .ok settings
  source : invocation.source files = .ok (some source)
  format : invocation.format = format
  notInteractive : invocation.interactive = false

namespace Launch

theorem ofArguments_of_runsFile {arguments : List String} {files : Files} {invocation : Invocation}
    {settings : Settings} {format : OutputFormat} {source : String} {machine : Machine}
    {report : Report} (asked : Invocation.ofArguments arguments = .ok invocation)
    (runsFile : invocation.RunsFile files settings format source)
    (created : Machine.new settings = .ok (.ok machine))
    (reported : Report.ofSource .none format false source machine = .ok report) :
    Launch.ofArguments arguments files =
      .ok ⟨report.emissions, .exit (if report.succeeded then 0 else 2)⟩ := by
  simp only [ofArguments, asked, ofInvocation, runsFile.settings, created, start, runsFile.source,
    runsFile.format, reported, runsFile.notInteractive, bind, Except.bind]
  rfl

/-- The file runner. In a fresh machine every source can be reported. The report tells, a line each, the
values of the forms up to the first failure, and that failure; if the source cannot be read, it tells
why, and nothing was evaluated. The program prints the report and ends with 2 if there was a failure
and with 0 otherwise. -/
theorem report_tells_and_exit_code {settings : Settings} {machine : Machine}
    (created : Machine.new settings = .ok (.ok machine)) (format : OutputFormat) (source : String) :
    ∃ report, Report.ofSource .none format false source machine = .ok report ∧
      report.Tells format machine source ∧
      ∀ (arguments : List String) (files : Files) (invocation : Invocation),
        Invocation.ofArguments arguments = .ok invocation →
        invocation.RunsFile files settings format source →
        ∃ launch, Launch.ofArguments arguments files = .ok launch ∧
          ∀ input, launch.run input =
            .ok (report.emissions, if report.succeeded = true then 0 else 2) := by
  obtain ⟨report, reported, tells⟩ := Report.exists_tells (Machine.sound_new created) format source
  refine ⟨report, reported, tells, fun arguments files invocation asked runsFile => ?_⟩
  exact ⟨_, ofArguments_of_runsFile asked runsFile created reported, fun _ => rfl⟩

/-- The first of two forms has a value, the second has none. -/
theorem report_tells_of_failing_head :
    ∃ machine report, Machine.new {} = .ok (.ok machine) ∧
      Report.ofSource .none .text false "'a (head ())" machine = .ok report ∧
      report.Tells .text machine "'a (head ())" ∧
      report.emissions = [.line "=> a", .failure (.emptyListAccess "head")] ∧
      ∃ launch, Launch.ofArguments ["f"] (fun _ => .ok "'a (head ())") = .ok launch ∧
        ∀ input, launch.run input = .ok (report.emissions, 2) := by
  have checked : ((Machine.new {}).toOption.bind Except.toOption).any (fun machine =>
      (Report.ofSource .none .text false "'a (head ())" machine).toOption.any fun report =>
        report.emissions = [.line "=> a", .failure (.emptyListAccess "head")] ∧
          report.succeeded = false) = true := by
    decide +kernel
  rcases created : Machine.new {} with fault | _ | machine <;> rw [created] at checked
  · cases checked
  · cases checked
  obtain ⟨report, reported, tells, exits⟩ :=
    report_tells_and_exit_code created .text "'a (head ())"
  change Option.any _ (Except.toOption (Report.ofSource _ _ _ _ machine)) = true at checked
  rw [reported] at checked
  obtain ⟨emissions, succeeded⟩ := of_decide_eq_true checked
  have asked : Invocation.ofArguments ["f"] = .ok { file? := some "f" } := by decide +kernel
  obtain ⟨launch, launched, ends⟩ :=
    exits ["f"] (fun _ => .ok "'a (head ())") _ asked ⟨rfl, rfl, rfl, rfl⟩
  rw [succeeded] at ends
  exact ⟨machine, report, rfl, reported, tells, emissions, launch, launched, ends⟩

end Launch

end TaggedLisp
