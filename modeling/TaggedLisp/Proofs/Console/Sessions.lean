import TaggedLisp.Console.Session
import TaggedLisp.Proofs.Console.Reports
import TaggedLisp.Proofs.Evaluation.Language
import TaggedLisp.Proofs.Pieces

/-! Commands of a session never reach the evaluator. Two sessions are run beside each other: one is
given all lines, and the other, in which nothing is dumped, only the lines of source text. They end in
the same machine, and they print the same lines of results and failures. -/

set_option autoImplicit false

namespace TaggedLisp

/-! ## Lines -/

namespace Command

def isSource (line : String) : Bool :=
  (Text.trim line).toList.head? ≠ some '\\'

def isQuit (line : String) : Bool :=
  Text.trim line = "\\q"

/-- Whether a command was given an odd number of times. -/
def isToggledBy (mark : String) (lines : List String) : Bool :=
  lines.countP (fun line => Text.trim line = mark) % 2 = 1

theorem isToggledBy_nil (mark : String) : isToggledBy mark [] = false := rfl

theorem isToggledBy_cons (mark line : String) (lines : List String) :
    isToggledBy mark (line :: lines) =
      (decide (Text.trim line = mark) ^^ isToggledBy mark lines) := by
  unfold isToggledBy
  rw [List.countP_cons]
  by_cases given : Text.trim line = mark
  · simp only [given, decide_true, if_true, Bool.true_xor]
    rcases Nat.mod_two_eq_zero_or_one (lines.countP fun line => Text.trim line = mark) with
      even | odd
    · simp [even, Nat.add_mod]
    · simp [odd, Nat.add_mod]
  · simp [given]

theorem trim_ne_of_isSource {line : String} (source : isSource line = true) (text : String)
    (marked : text.toList.head? = some '\\') : Text.trim line ≠ text := by
  intro same
  rw [← same] at marked
  exact of_decide_eq_true source marked

theorem ofLine_of_isSource {line : String} (source : isSource line = true) :
    ofLine line = .eval line := by
  have unlike := trim_ne_of_isSource source
  unfold ofLine
  simp only [unlike "\\h" rfl, unlike "\\q" rfl, unlike "\\t" rfl, unlike "\\v" rfl,
    unlike "\\e" rfl, unlike "\\s" rfl, of_decide_eq_true source, if_false]

theorem isQuit_of_isSource {line : String} (source : isSource line = true) :
    isQuit line = false :=
  decide_eq_false (trim_ne_of_isSource source "\\q" rfl)

theorem isToggledBy_of_isSource {line : String} (source : isSource line = true) (mark : String)
    (marked : mark.toList.head? = some '\\') (lines : List String) :
    isToggledBy mark (line :: lines) = isToggledBy mark lines := by
  rw [isToggledBy_cons, decide_eq_false (trim_ne_of_isSource source mark marked), Bool.false_xor]

end Command

namespace Machine

/-- The machine after evaluating texts one after the other, whatever they come to. -/
def evalLines (host : Host) (machine : Machine) : List String → Checked Machine
  | [] => return machine
  | line :: lines => do
    let (_, machine) ← machine.evalForms host line
    machine.evalLines host lines

theorem evalLines_cons_eq_ok_iff {host : Host} {machine after : Machine} {line : String}
    {lines : List String} :
    machine.evalLines host (line :: lines) = .ok after ↔
      ∃ outcome middle, machine.evalForms host line = .ok (outcome, middle) ∧
        middle.evalLines host lines = .ok after := by
  rw [evalLines]
  cases machine.evalForms host line with
  | error fault => simp [bind, Except.bind]
  | ok result => simp [bind, Except.bind, Prod.ext_iff]

/-! ## Evaluation without routines of the host comes to an end -/

theorem WellFormed.exists_evalForms {machine : Machine} (wellFormed : machine.WellFormed)
    (hostFree : machine.heap.HostFree) (host : Host) (source : String) :
    ∃ outcome after, machine.evalForms host source = .ok (outcome, after) := by
  obtain ⟨bindings, environment⟩ := wellFormed.environment.exists_unfolds wellFormed.heap
  have unfolds : machine.Unfolds bindings := ⟨wellFormed.heap.keywords, hostFree, environment⟩
  exact unfolds.exists_evalForms wellFormed.heap.withinLimits host source

theorem WellFormed.exists_evalLines {machine : Machine} (wellFormed : machine.WellFormed)
    (hostFree : machine.heap.HostFree) (host : Host) (lines : List String) :
    ∃ after, machine.evalLines host.screened lines = .ok after := by
  induction lines generalizing machine with
  | nil => exact ⟨machine, rfl⟩
  | cons line lines ih =>
      obtain ⟨outcome, middle, ran⟩ := wellFormed.exists_evalForms hostFree host.screened line
      have ends := wellFormed.evalForms_ends host line
      rw [ran] at ends
      have keeps : machine.KeepsEach (outcome.toOption.getD []) middle := ends
      obtain ⟨log, evaluates⟩ := exists_evaluatesForms ran
      obtain ⟨after, ranRest⟩ :=
        ih keeps.wellFormed (hostFree.of_lambdas (evaluates.lambdas_eq hostFree))
      exact ⟨after, evalLines_cons_eq_ok_iff.mpr ⟨outcome, middle, ran, ranRest⟩⟩

end Machine

namespace Session

open Command

/-- The lines that a session hears: those before the first quit command. -/
def heard (lines : List String) : List String :=
  lines.takeWhile fun line => !isQuit line

/-- The session without dumps. -/
def quiet (session : Session) : Session :=
  { session with showTokens := false, showValues := false }

/-- The session after the switches among some commands. -/
def toggled (session : Session) (lines : List String) : Session :=
  { session with
    showTokens := session.showTokens ^^ isToggledBy "\\t" lines
    showValues := session.showValues ^^ isToggledBy "\\v" lines }

variable {session after : Session} {line : String} {lines before later : List String}
  {emissions : List Emission}

theorem toggled_nil (session : Session) : session.toggled [] = session := by
  simp [toggled, isToggledBy_nil]

theorem toggled_cons (session : Session) (line : String) (lines : List String) :
    session.toggled (line :: lines) = (session.toggled [line]).toggled lines := by
  simp [toggled, isToggledBy_cons, isToggledBy_nil]

theorem toggled_of_isSource (source : isSource line = true) (session : Session) :
    session.toggled [line] = session := by
  simp [toggled, isToggledBy_of_isSource source "\\t" rfl,
    isToggledBy_of_isSource source "\\v" rfl, isToggledBy_nil]

/-! ## Steps -/

theorem evaluate_eq_ok_iff :
    session.evaluate line = .ok (emissions, after) ↔
      ∃ report, Report.ofSource session.host session.format session.showValues line
          session.machine = .ok report ∧
        emissions = (if session.showTokens then [.print (session.format.renderTokens line)]
          else []) ++ report.emissions ∧
        after = { session with machine := report.machine } := by
  unfold evaluate
  cases Report.ofSource session.host session.format session.showValues line session.machine with
  | error fault => simp [bind, Except.bind]
  | ok report =>
      simp only [bind, Except.bind, pure, Except.pure, Except.ok.injEq, Prod.mk.injEq]
      constructor
      · rintro ⟨rfl, rfl⟩
        exact ⟨report, rfl, rfl, rfl⟩
      · rintro ⟨_, rfl, rfl, rfl⟩
        exact ⟨rfl, rfl⟩

theorem step_eq_ok_iff_of_isSource (source : isSource line = true) {next : Option Session} :
    session.step (some line) = .ok (emissions, next) ↔
      ∃ after, session.evaluate line = .ok (emissions, after) ∧ next = some after := by
  simp only [step, ofLine_of_isSource source, perform]
  cases session.evaluate line with
  | error fault => simp [bind, Except.bind]
  | ok result => simp [bind, Except.bind, pure, Except.pure, Prod.ext_iff, eq_comm]

theorem step_of_isQuit (quits : isQuit line = true) (session : Session) :
    session.step (some line) = .ok ([], none) := by
  have text := of_decide_eq_true quits
  simp only [step, ofLine, text, perform]
  rfl

/-- A command that does not end the session changes the switches and nothing else. -/
theorem next_of_step_of_command (command : isSource line = false) (stays : isQuit line = false)
    {next : Option Session} (ran : session.step (some line) = .ok (emissions, next)) :
    next = some (session.toggled [line]) := by
  have notQuit := of_decide_eq_false stays
  have isCommand : (Text.trim line).toList.head? = some '\\' := by
    simpa [isSource] using command
  simp only [step, ofLine, isCommand, notQuit, if_true, if_false] at ran
  simp only [toggled, isToggledBy_cons, isToggledBy_nil]
  split at ran
  · next text =>
    cases ran
    simp [text]
  split at ran
  · next text =>
    cases ran
    simp [text]
  split at ran
  · next text =>
    cases ran
    simp [text]
  · next noTokens noValues =>
    simp only [noTokens, noValues, decide_false, Bool.xor_false]
    split at ran
    · obtain ⟨lines, -, ran⟩ := exists_of_bind_eq_ok ran
      cases ran
      rfl
    split at ran <;> cases ran <;> rfl

/-! ## Runs -/

theorem run_cons_eq_ok_iff {input : InputLine} {inputs : List InputLine} :
    session.run (input :: inputs) = .ok (emissions, after) ↔
      (session.step input = .ok (emissions, none) ∧ after = session) ∨
        ∃ first next rest, session.step input = .ok (first, some next) ∧
          next.run inputs = .ok (rest, after) ∧ emissions = first ++ rest := by
  rw [run]
  rcases session.step input with fault | ⟨first, _ | next⟩
  · simp [bind, Except.bind]
  · simp [bind, Except.bind, pure, Except.pure, eq_comm]
  · rcases ran : next.run inputs with fault | ⟨rest, last⟩
    · simp [ran, bind, Except.bind]
    · simp only [ran, bind, Except.bind, pure, Except.pure, Except.ok.injEq, Prod.mk.injEq]
      constructor
      · rintro ⟨rfl, rfl⟩
        exact .inr ⟨first, next, rest, ⟨rfl, rfl⟩, ran, rfl⟩
      · rintro (⟨⟨-, none⟩, -⟩ | ⟨_, _, _, ⟨rfl, same⟩, ranAgain, rfl⟩)
        · cases none
        · cases same
          cases ran.symm.trans ranAgain
          exact ⟨rfl, rfl⟩

theorem run_heard (session : Session) (lines : List String) :
    session.run ((heard lines).map some) = session.run (lines.map some) := by
  induction lines generalizing session with
  | nil => rfl
  | cons line lines ih =>
      cases quits : isQuit line with
      | true =>
          simp only [heard, List.takeWhile_cons, quits, List.map_cons, run,
            step_of_isQuit quits session]
          rfl
      | false =>
          have stays : heard (line :: lines) = line :: heard lines := by
            simp [heard, quits]
          simp only [stays, List.map_cons, run, ih]

theorem isQuit_of_mem_heard (member : line ∈ heard lines) : isQuit line = false := by
  simpa using List.mem_takeWhile_imp member

theorem exists_next_of_step (stays : isQuit line = false) {next : Option Session}
    (ran : session.step (some line) = .ok (emissions, next)) :
    ∃ following, next = some following := by
  cases source : isSource line with
  | true =>
      obtain ⟨following, -, same⟩ := (step_eq_ok_iff_of_isSource source).mp ran
      exact ⟨following, same⟩
  | false => exact ⟨_, next_of_step_of_command source stays ran⟩

theorem run_cons_of_stays (stays : isQuit line = false) {inputs : List InputLine} :
    session.run (some line :: inputs) = .ok (emissions, after) ↔
      ∃ first next rest, session.step (some line) = .ok (first, some next) ∧
        next.run inputs = .ok (rest, after) ∧ emissions = first ++ rest := by
  rw [run_cons_eq_ok_iff]
  refine or_iff_right fun ended => ?_
  obtain ⟨_, same⟩ := exists_next_of_step stays ended.1
  cases same

theorem run_append_eq_ok_iff (stay : ∀ line ∈ before, isQuit line = false) :
    session.run ((before ++ later).map some) = .ok (emissions, after) ↔
      ∃ first middle rest, session.run (before.map some) = .ok (first, middle) ∧
        middle.run (later.map some) = .ok (rest, after) ∧ emissions = first ++ rest := by
  induction before generalizing session emissions with
  | nil => simp [run, pure, Except.pure]
  | cons line before ih =>
      have stays := stay line List.mem_cons_self
      have stayOthers : ∀ line ∈ before, isQuit line = false := fun line member =>
        stay line (List.mem_cons_of_mem _ member)
      simp only [List.cons_append, List.map_cons, run_cons_of_stays stays]
      constructor
      · rintro ⟨first, next, rest, stepped, ran, rfl⟩
        obtain ⟨front, middle, back, ranFront, ranBack, rfl⟩ := (ih stayOthers).mp ran
        exact ⟨first ++ front, middle, back, ⟨first, next, front, stepped, ranFront, rfl⟩, ranBack,
          (List.append_assoc ..).symm⟩
      · rintro ⟨_, middle, back, ⟨first, next, front, stepped, ranFront, rfl⟩, ranBack, rfl⟩
        exact ⟨first, next, front ++ back, stepped,
          (ih stayOthers).mpr ⟨front, middle, back, ranFront, ranBack, rfl⟩, List.append_assoc ..⟩

/-! ## Two runs beside each other -/

/-- What a line of source text does and prints, and that it does and prints the same without dumps. -/
theorem evaluate_beside_quiet (evaluated : session.evaluate line = .ok (emissions, after)) :
    ∃ outcome entries,
      session.machine.evalForms session.host line = .ok (outcome, after.machine) ∧
      after = { session with machine := after.machine } ∧
      List.Forall₂ (Entry.Shows session.format session.showValues after.machine.heap)
        (reportedOutcomes outcome) entries ∧
      emissions = (if session.showTokens then [.print (session.format.renderTokens line)] else []) ++
        entries.flatMap Entry.emissions ∧
      session.quiet.evaluate line = .ok (entries.map Entry.line, after.quiet) := by
  obtain ⟨report, reported, rfl, rfl⟩ := evaluate_eq_ok_iff.mp evaluated
  obtain ⟨outcome, entries, ran, each, printed, succeeded⟩ := Report.ofSource_eq_ok_iff.mp reported
  refine ⟨outcome, entries, ran, rfl, each, by rw [printed], ?_⟩
  have plain : List.Forall₂ (Entry.Shows session.format false report.machine.heap)
      (reportedOutcomes outcome) (entries.map fun entry => ⟨entry.line, []⟩) :=
    List.forall₂_map_right_iff.mpr (each.imp fun _ _ shown => shown.plain)
  refine evaluate_eq_ok_iff.mpr ⟨⟨entries.map Entry.line, report.succeeded, report.machine⟩,
    Report.ofSource_eq_ok_iff.mpr ⟨outcome, _, ran, plain, ?_, succeeded⟩, rfl, rfl⟩
  rw [List.flatMap_map]
  exact List.map_eq_flatMap

theorem run_beside_quiet (stay : ∀ line ∈ lines, isQuit line = false)
    (ran : session.run (lines.map some) = .ok (emissions, after)) :
    session.machine.evalLines session.host (lines.filter isSource) = .ok after.machine ∧
      after = { session.toggled lines with machine := after.machine } ∧
      ∃ plain, session.quiet.run ((lines.filter isSource).map some) = .ok (plain, after.quiet) := by
  induction lines generalizing session emissions with
  | nil =>
      cases ran
      exact ⟨rfl, by rw [toggled_nil], [], rfl⟩
  | cons line lines ih =>
      obtain ⟨first, next, rest, stepped, ranRest, -⟩ :=
        (run_cons_of_stays (stay line List.mem_cons_self)).mp ran
      obtain ⟨evaluates, same, plain, quietRan⟩ :=
        ih (fun line member => stay line (List.mem_cons_of_mem _ member)) ranRest
      rw [toggled_cons]
      cases source : isSource line with
      | true =>
          rw [List.filter_cons_of_pos source, toggled_of_isSource source]
          obtain ⟨_, evaluated, result⟩ := (step_eq_ok_iff_of_isSource source).mp stepped
          cases result
          obtain ⟨outcome, entries, ranLine, kept, -, -, quietEvaluated⟩ :=
            evaluate_beside_quiet evaluated
          rw [kept] at evaluates same
          refine ⟨Machine.evalLines_cons_eq_ok_iff.mpr ⟨outcome, _, ranLine, evaluates⟩, same,
            entries.map Entry.line ++ plain, ?_⟩
          have quietStepped := (step_eq_ok_iff_of_isSource source).mpr ⟨_, quietEvaluated, rfl⟩
          exact run_cons_eq_ok_iff.mpr (.inr ⟨_, _, plain, quietStepped, quietRan, rfl⟩)
      | false =>
          have command : ¬isSource line = true := by simp [source]
          rw [List.filter_cons_of_neg command]
          cases next_of_step_of_command source (stay line List.mem_cons_self) stepped
          exact ⟨evaluates, same, plain, quietRan⟩

/-- A line of source text in the outputs of two sessions. One is given the lines before it and prints
its dumps as the commands among these lines ask for, the other is given the source text among them
and prints no dumps. -/
inductive PrintsLine (session : Session) (before : List String) (line : String)
    (shown plain : List Emission) : Prop where
  | intro {start stop : Machine} {outcome : Except Error (List (Except Error Value))}
      {entries : List Entry} {shownBefore shownAfter plainBefore plainAfter : List Emission}
      {middle quietMiddle : Session} :
      session.run (before.map some) = .ok (shownBefore, middle) →
      session.run ((before.filter isSource).map some) = .ok (plainBefore, quietMiddle) →
      session.machine.evalLines session.host (before.filter isSource) = .ok start →
      start.evalForms session.host line = .ok (outcome, stop) →
      List.Forall₂ (Entry.Shows session.format (isToggledBy "\\v" before) stop.heap)
        (reportedOutcomes outcome) entries →
      shown = shownBefore ++ ((if isToggledBy "\\t" before then
        [.print (session.format.renderTokens line)] else []) ++ entries.flatMap Entry.emissions ++
          shownAfter) →
      plain = plainBefore ++ (entries.map Entry.line ++ plainAfter) →
      PrintsLine session before line shown plain

theorem run_prints_line {shown plain : List Emission} {quietAfter : Session}
    (starts : session.quiet = session)
    (stay : ∀ other ∈ before ++ line :: later, isQuit other = false)
    (ran : session.run ((before ++ line :: later).map some) = .ok (shown, after))
    (quietRan : session.run (((before ++ line :: later).filter isSource).map some) =
      .ok (plain, quietAfter))
    (source : isSource line = true) : session.PrintsLine before line shown plain := by
  have stayBefore := fun other member => stay other (List.mem_append_left _ member)
  have stayLater := fun other member =>
    stay other (List.mem_append_right _ (List.mem_cons_of_mem line member))
  have stayFront : ∀ other ∈ before.filter isSource, isQuit other = false := fun other member =>
    isQuit_of_isSource (List.mem_filter.mp member).2
  obtain ⟨shownBefore, middle, rest, ranBefore, ranRest, rfl⟩ :=
    (run_append_eq_ok_iff stayBefore).mp ran
  obtain ⟨evaluates, reached, plainBefore, quietBefore⟩ := run_beside_quiet stayBefore ranBefore
  obtain ⟨printed, next, shownAfter, stepped, ranLater, rfl⟩ :=
    (run_cons_of_stays (isQuit_of_isSource source)).mp ranRest
  obtain ⟨_, evaluated, same⟩ := (step_eq_ok_iff_of_isSource source).mp stepped
  cases same
  obtain ⟨outcome, entries, ranLine, -, each, rfl, quietLine⟩ := evaluate_beside_quiet evaluated
  obtain ⟨-, -, plainAfter, quietLater⟩ := run_beside_quiet stayLater ranLater
  -- What the quiet session does before the line, at it and after it is all that it does.
  rw [starts] at quietBefore
  have quietStepped := (step_eq_ok_iff_of_isSource source).mpr ⟨_, quietLine, rfl⟩
  have quietRest := run_cons_eq_ok_iff.mpr (.inr ⟨_, _, plainAfter, quietStepped, quietLater, rfl⟩)
  rw [List.filter_append, List.filter_cons_of_pos source] at quietRan
  obtain ⟨_, _, _, front, back, rfl⟩ := (run_append_eq_ok_iff stayFront).mp quietRan
  cases quietBefore.symm.trans front
  cases quietRest.symm.trans back
  have format := congrArg Session.format reached
  have host := congrArg Session.host reached
  have tokens := congrArg Session.showTokens reached
  have values := congrArg Session.showValues reached
  have noTokens := congrArg Session.showTokens starts
  have noValues := congrArg Session.showValues starts
  simp only [toggled, ← noTokens, ← noValues, quiet, Bool.false_xor] at format host tokens values
  rw [host] at ranLine
  rw [format, values] at each
  rw [format, tokens]
  exact .intro ranBefore quietBefore evaluates ranLine each rfl rfl

/-! ## Sessions end -/

theorem exists_bindingLines {machine : Machine} (wellFormed : machine.WellFormed) :
    ∃ lines, bindingLines machine = .ok lines := by
  obtain ⟨bindings, unfolds⟩ := wellFormed.environment.exists_unfolds wellFormed.heap
  exact ⟨_, Machine.bindingLines_eq unfolds⟩

theorem exists_step_of_command (wellFormed : session.machine.WellFormed)
    (command : isSource line = false) :
    ∃ emissions next, session.step (some line) = .ok (emissions, next) := by
  have isCommand : (Text.trim line).toList.head? = some '\\' := by
    simpa [isSource] using command
  obtain ⟨listed, lists⟩ := exists_bindingLines wellFormed
  simp only [step, ofLine, isCommand, if_true]
  repeat' split
  all_goals simp only [perform, lists]
  all_goals exact ⟨_, _, rfl⟩

theorem exists_evaluate {host : Host} (screened : session.host = host.screened)
    (wellFormed : session.machine.WellFormed) {machine : Machine}
    {outcome : Except Error (List (Except Error Value))}
    (ran : session.machine.evalForms session.host line = .ok (outcome, machine)) :
    machine.WellFormed ∧ ∃ emissions,
      session.evaluate line = .ok (emissions, { session with machine }) := by
  have ends := wellFormed.evalForms_ends host line
  rw [← screened, ran] at ends
  have keeps : session.machine.KeepsEach (outcome.toOption.getD []) machine := ends
  have unfolds : ∀ value, .ok value ∈ reportedOutcomes outcome →
      ∃ tree, machine.heap.Unfolds value tree := by
    intro value member
    cases outcome with
    | error error => simp [reportedOutcomes] at member
    | ok outcomes => exact keeps.wellFormed.heap.exists_unfolds (keeps.contained value member)
  obtain ⟨report, reported, same⟩ :=
    Report.exists_ofSource session.format session.showValues ran unfolds
  refine ⟨keeps.wellFormed, _, evaluate_eq_ok_iff.mpr ⟨report, reported, rfl, ?_⟩⟩
  rw [same]

theorem exists_run {host : Host} (screened : session.host = host.screened)
    (wellFormed : session.machine.WellFormed) (stay : ∀ line ∈ lines, isQuit line = false)
    {machine : Machine}
    (evaluates : session.machine.evalLines session.host (lines.filter isSource) = .ok machine) :
    ∃ shown after, session.run (lines.map some) = .ok (shown, after) := by
  induction lines generalizing session with
  | nil => exact ⟨[], session, rfl⟩
  | cons line lines ih =>
      have others := fun line member => stay line (List.mem_cons_of_mem _ member)
      cases source : isSource line with
      | true =>
          rw [List.filter_cons_of_pos source] at evaluates
          obtain ⟨outcome, middle, ranLine, evaluatesRest⟩ :=
            Machine.evalLines_cons_eq_ok_iff.mp evaluates
          obtain ⟨middleWellFormed, printed, evaluated⟩ := exists_evaluate screened wellFormed ranLine
          obtain ⟨rest, after, ran⟩ : ∃ rest after,
              Session.run { session with machine := middle } (lines.map some) = .ok (rest, after) :=
            ih screened middleWellFormed others evaluatesRest
          have stepped := (step_eq_ok_iff_of_isSource source).mpr ⟨_, evaluated, rfl⟩
          exact ⟨_, after, run_cons_eq_ok_iff.mpr (.inr ⟨_, _, rest, stepped, ran, rfl⟩)⟩
      | false =>
          have command : ¬isSource line = true := by simp [source]
          rw [List.filter_cons_of_neg command] at evaluates
          obtain ⟨printed, next, stepped⟩ := exists_step_of_command wellFormed source
          cases next_of_step_of_command source (stay line List.mem_cons_self) stepped
          obtain ⟨rest, after, ran⟩ : ∃ rest after,
              (session.toggled [line]).run (lines.map some) = .ok (rest, after) :=
            ih screened wellFormed others evaluates
          exact ⟨_, after, run_cons_eq_ok_iff.mpr (.inr ⟨_, _, rest, stepped, ran, rfl⟩)⟩

/-- A session that ends leaves its machine as the evaluation of its lines of source text leaves it, one
by one and exactly as they were given. The same lines alone print the same results and failures. What
commands add is the tokens before a line and the dump after a result, where the switch for them was
used an odd number of times before the line. A session in a well-formed machine ends if the evaluation
of its lines does, and that always ends where there are no routines of the host. -/
theorem run_evaluates_source_lines (host : Host) (machine : Machine) (format : OutputFormat)
    (lines : List String) :
    (∀ shown after, Session.run { machine, format, host } (lines.map some) = .ok (shown, after) →
      machine.evalLines host ((heard lines).filter isSource) = .ok after.machine ∧
      ∃ plain quietAfter,
        Session.run { machine, format, host } (((heard lines).filter isSource).map some) =
          .ok (plain, quietAfter) ∧
        quietAfter.machine = after.machine ∧
        ∀ before line later, heard lines = before ++ line :: later → isSource line = true →
          Session.PrintsLine { machine, format, host } before line shown plain) ∧
    (machine.WellFormed →
      (∀ final, machine.evalLines host.screened ((heard lines).filter isSource) = .ok final →
        ∃ shown after, Session.run { machine, format, host := host.screened } (lines.map some) =
          .ok (shown, after)) ∧
      (machine.heap.HostFree →
        ∃ shown after, Session.run { machine, format } (lines.map some) = .ok (shown, after))) := by
  have stay : ∀ line ∈ heard lines, isQuit line = false := fun line => isQuit_of_mem_heard
  constructor
  · intro shown after ran
    rw [← run_heard] at ran
    obtain ⟨evaluates, -, plain, quietRan⟩ := run_beside_quiet stay ran
    refine ⟨evaluates, plain, after.quiet, quietRan, rfl, fun before line later split source => ?_⟩
    rw [split] at stay ran quietRan
    exact run_prints_line rfl stay ran quietRan source
  · intro wellFormed
    have ends (host : Host) {final : Machine}
        (evaluates : machine.evalLines host.screened ((heard lines).filter isSource) = .ok final) :
        ∃ shown after, Session.run { machine, format, host := host.screened } (lines.map some) =
          .ok (shown, after) := by
      rw [← run_heard]
      exact exists_run rfl wellFormed stay evaluates
    refine ⟨fun final evaluates => ends host evaluates, fun hostFree => ?_⟩
    obtain ⟨final, evaluates⟩ := wellFormed.exists_evalLines hostFree Host.none
      ((heard lines).filter isSource)
    exact ends Host.none evaluates

/-- Only the second of four lines is evaluated, and its tokens are shown. -/
theorem run_evaluates_line_after_switch :
    ∃ machine shown after plain, Machine.new {} = .ok (.ok machine) ∧
      Session.run { machine, format := .text } (["\\t", "'a", "\\q", "b"].map some) =
        .ok (shown, after) ∧
      machine.evalLines Host.none ["'a"] = .ok after.machine ∧
      isToggledBy "\\t" ["\\t"] = true ∧ isToggledBy "\\v" ["\\t"] = false ∧
      Session.PrintsLine { machine, format := .text } ["\\t"] "'a" shown plain := by
  have checked : ((Machine.new {}).toOption.bind Except.toOption).any (fun machine =>
      (Session.run { machine, format := .text } (["\\t", "'a", "\\q", "b"].map some)).isOk) =
      true := by
    decide +kernel
  have hears : heard ["\\t", "'a", "\\q", "b"] = ["\\t"] ++ "'a" :: [] := by decide
  have source : isSource "'a" = true := by decide
  rcases created : Machine.new {} with fault | _ | machine <;> rw [created] at checked
  · cases checked
  · cases checked
  rcases ran : Session.run { machine, format := .text } (["\\t", "'a", "\\q", "b"].map some) with
    fault | ⟨shown, after⟩
  · change Except.isOk (Session.run { machine, format := .text } _) = true at checked
    rw [ran] at checked
    cases checked
  obtain ⟨evaluates, plain, quietAfter, -, -, prints⟩ :=
    (run_evaluates_source_lines Host.none machine .text _).1 shown after ran
  rw [hears] at evaluates
  exact ⟨machine, shown, after, plain, rfl, ran, evaluates, by decide, by decide,
    prints _ _ _ hears source⟩

end Session

end TaggedLisp
