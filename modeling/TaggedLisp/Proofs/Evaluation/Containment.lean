import TaggedLisp.Proofs.Environment
import TaggedLisp.Proofs.Evaluation.Contract
import TaggedLisp.Proofs.Heap.Shape

/-! Operations whose operands point inside the stores keep a machine well-formed, answer values that
point inside the stores, and read no store out of range. The evaluator and the routines of the host
call each other, so this is shown for all of them at once, by induction on the nesting that is left.
A routine may do anything with such values; it is stopped only where it is about to hand on a value
that points outside. -/

set_option autoImplicit false

namespace TaggedLisp

/-! ## Operands -/

def Task.isWithin (heap : Heap) : Task → Bool
  | .eval form => heap.contains form
  | .apply record arguments => heap.contains (.lambda record) && heap.contains arguments

def Operation.isWithin (heap : Heap) : Operation → Bool
  | .symbol _ | .addError _ | .addLambda _ | .parse _ => true
  | .cons element list => heap.contains element && heap.contains list
  | .listOf elements => elements.all heap.contains
  | .head value | .tail value | .reverse value | .quote value | .unquote value =>
    heap.contains value
  | .define id value => heap.contains (.symbol id) && heap.contains value
  | .lookup id => heap.contains (.symbol id)
  | .eval form => heap.contains form
  | .apply record arguments => heap.contains (.lambda record) && heap.contains arguments

/-- Whether an operation is a task, which the evaluator carries out. -/
def Operation.isTask : Operation → Bool
  | .eval _ | .apply .. => true
  | _ => false

/-- The script up to the first value that points outside the stores, be it an operand or the result.
There it fails instead. -/
def Script.screened : Script → Script
  | .done (.ok value) => .examine fun heap _ =>
    .done (if heap.contains value then .ok value else .error .undefined)
  | .done (.error error) => .done (.error error)
  | .perform operation next => .examine fun heap _ =>
    if operation.isWithin heap then .perform operation fun outcome => (next outcome).screened
    else .done (.error .undefined)
  | .examine next => .examine fun heap environment => (next heap environment).screened

def Host.screened (host : Host) : Host where
  routine id arguments := (host.routine id arguments).screened

theorem Script.runIn_examine (recur : Task → Evaluation Value)
    (next : Heap → Environment → Script) (machine : Machine) :
    ((Script.examine next).run recur).runIn machine =
      ((next machine.heap machine.environment).run recur).runIn machine :=
  rfl

theorem Script.runIn_perform (recur : Task → Evaluation Value) (operation : Operation)
    (next : Except Error Value → Script) (machine : Machine) :
    ((Script.perform operation next).run recur).runIn machine =
      match (operation.run recur).runIn machine with
      | .ok (outcome, after) => ((next outcome).run recur).runIn after
      | .error fault => .error fault := by
  rw [Script.run, Evaluation.runIn_ofFunction]
  cases (operation.run recur).runIn machine <;> rfl

/-- Run in the machine, the script hands on only values that point inside the stores. -/
inductive Script.RunsWithin (recur : Task → Evaluation Value) : Script → Machine → Prop where
  | done {outcome : Except Error Value} {machine : Machine} :
      (∀ value, outcome = .ok value → machine.heap.contains value = true) →
      RunsWithin recur (.done outcome) machine
  | perform {operation : Operation} {next : Except Error Value → Script} {machine : Machine} :
      operation.isWithin machine.heap = true →
      (∀ outcome after, (operation.run recur).runIn machine = .ok (outcome, after) →
        RunsWithin recur (next outcome) after) →
      RunsWithin recur (.perform operation next) machine
  | examine {next : Heap → Environment → Script} {machine : Machine} :
      RunsWithin recur (next machine.heap machine.environment) machine →
      RunsWithin recur (.examine next) machine

/-- Such a script is not changed by screening. -/
theorem Script.RunsWithin.runIn_screened {recur : Task → Evaluation Value} {script : Script}
    {machine : Machine} (within : script.RunsWithin recur machine) :
    (script.screened.run recur).runIn machine = (script.run recur).runIn machine := by
  induction within with
  | @done outcome machine contained =>
      cases outcome with
      | error error => rfl
      | ok value =>
          rw [Script.screened, runIn_examine, if_pos (contained value rfl)]
  | @perform operation next machine operandsWithin _ ih =>
      rw [Script.screened, runIn_examine, if_pos operandsWithin, runIn_perform, runIn_perform]
      cases ran : (operation.run recur).runIn machine with
      | error fault => rfl
      | ok result =>
          obtain ⟨outcome, after⟩ := result
          exact ih outcome after ran
  | @examine next machine _ ih => exact ih

/-! ## Well-formed machines -/

structure Machine.WellFormed (machine : Machine) : Prop where
  heap : machine.heap.WellFormed
  environment : machine.environment.ContainedIn machine.heap

/-- What a computation in a well-formed machine has to leave, whether it succeeds or fails. -/
structure Machine.Keeps {α : Type} (fits : Heap → α → Prop) (machine : Machine)
    (outcome : Except Error α) (after : Machine) : Prop where
  growsTo : machine.heap.GrowsTo after.heap
  wellFormed : after.WellFormed
  fits : ∀ result, outcome = .ok result → fits after.heap result

abbrev Heap.Has (heap : Heap) (value : Value) : Prop :=
  heap.contains value = true

namespace Machine

variable {α β : Type} {machine : Machine}

theorem WellFormed.keeps_ok {fits : Heap → α → Prop} (wellFormed : machine.WellFormed) {result : α}
    (holds : fits machine.heap result) : machine.Keeps fits (.ok result) machine :=
  ⟨.refl _, wellFormed, fun _ same => by cases same; exact holds⟩

theorem WellFormed.keeps_error {fits : Heap → α → Prop} (wellFormed : machine.WellFormed)
    (error : Error) : machine.Keeps fits (.error error) machine :=
  ⟨.refl _, wellFormed, fun _ failed => by cases failed⟩

theorem WellFormed.keeps_of_agrees (wellFormed : machine.WellFormed)
    {outcome : Except Error Value} {expected : Except Error Tree}
    (agrees : machine.heap.Agrees outcome expected) : machine.Keeps Heap.Has outcome machine :=
  ⟨.refl _, wellFormed, agrees.contained⟩

theorem WellFormed.keeps_of_heap (wellFormed : machine.WellFormed)
    {outcome : Except Error Value} {heap : Heap} (keeps : machine.heap.Keeps outcome heap) :
    machine.Keeps Heap.Has outcome { machine with heap } :=
  ⟨keeps.growsTo, ⟨keeps.wellFormed, wellFormed.environment.grow keeps.growsTo⟩, keeps.contained⟩

theorem Keeps.of_grown {fits : Heap → α → Prop} {middle after : Machine}
    {outcome : Except Error α} (growth : machine.heap.GrowsTo middle.heap)
    (keeps : middle.Keeps fits outcome after) : machine.Keeps fits outcome after :=
  ⟨growth.trans keeps.growsTo, keeps.wellFormed, keeps.fits⟩

theorem meets_keeps_bind {permitted : Fault → Prop} {middle : Heap → α → Prop}
    {fits : Heap → β → Prop} {computation : Evaluation α} {next : α → Evaluation β}
    (first : computation.Meets permitted machine (machine.Keeps middle))
    (rest : ∀ result after, machine.heap.GrowsTo after.heap → after.WellFormed →
      middle after.heap result → (next result).Meets permitted after (after.Keeps fits)) :
    (computation >>= next).Meets permitted machine (machine.Keeps fits) := by
  refine first.bind (fun result after keeps => ?_) fun error after keeps => ?_
  · exact (rest result after keeps.growsTo keeps.wellFormed (keeps.fits result rfl)).imp
      fun _ _ later => .of_grown keeps.growsTo later
  · exact ⟨keeps.growsTo, keeps.wellFormed, fun _ failed => by cases failed⟩

end Machine

/-! ## Operations, scripts and routines -/

/-- Tasks whose values point inside the stores keep a machine well-formed. -/
def SoundTasks (permitted : Fault → Prop) (recur : Task → Evaluation Value) : Prop :=
  ∀ task machine, machine.WellFormed → task.isWithin machine.heap = true →
    (recur task).Meets permitted machine (machine.Keeps Heap.Has)

section Soundness

variable {permitted : Fault → Prop} {recur : Task → Evaluation Value} {machine : Machine}

open Evaluation Machine

theorem meets_lookup (wellFormed : machine.WellFormed) {symbol : Nat}
    (contained : machine.heap.contains (.symbol symbol) = true) :
    (Evaluation.lookup symbol).Meets permitted machine (machine.Keeps Heap.Has) := by
  cases found : machine.environment.find? symbol with
  | some value =>
      exact meets_consult (Environment.lookup_of_find? found _)
        (wellFormed.keeps_ok (wellFormed.environment symbol value found).2)
  | none =>
      obtain ⟨name, named⟩ := Heap.exists_name_of_contains contained
      exact meets_consult (Environment.lookup_of_free found named) (wellFormed.keeps_error _)

theorem meets_define_keeps (wellFormed : machine.WellFormed) {symbol : Nat} {value : Value}
    (symbolContained : machine.heap.contains (.symbol symbol) = true)
    (valueContained : machine.heap.contains value = true) :
    (Evaluation.define symbol value).Meets permitted machine (machine.Keeps Heap.Has) := by
  obtain ⟨name, named⟩ := Heap.exists_name_of_contains symbolContained
  obtain ⟨⟨outcome, environment⟩, defined, defines⟩ :=
    machine.environment.define_defines named value
  refine meets_define defined ⟨.refl _, ⟨wellFormed.heap, ?_⟩, ?_⟩
  · exact defines.containedIn wellFormed.environment symbolContained valueContained
  · intro result succeeded
    subst succeeded
    cases defines
    exact symbolContained

/-- What is read off a value is a value again if the tree of the value decides it. -/
theorem meets_consult_of_unfolds (wellFormed : machine.WellFormed) {value : Value}
    (contained : machine.heap.contains value = true)
    {read : Machine → Checked (Except Error Value)} {answer : Tree → Except Error Tree}
    (reads : ∀ {tree}, machine.heap.Unfolds value tree →
      ∃ outcome, read machine = .ok outcome ∧ machine.heap.Agrees outcome (answer tree)) :
    (Evaluation.consult read).Meets permitted machine (machine.Keeps Heap.Has) := by
  obtain ⟨tree, unfolds⟩ := wellFormed.heap.exists_unfolds contained
  obtain ⟨outcome, found, agrees⟩ := reads unfolds
  exact meets_consult found (wellFormed.keeps_of_agrees agrees)

variable (recur)

private theorem meets_reverse (wellFormed : machine.WellFormed) {value : Value}
    (contained : machine.heap.contains value = true) :
    (Operation.run recur (.reverse value)).Meets permitted machine (machine.Keeps Heap.Has) := by
  rcases wellFormed.heap.exists_toList contained with refused | ⟨values, listed, all⟩
  · refine meets_ofFunction ?_ (wellFormed.keeps_error .notAList)
    simp only [Heap.reverse, refused]
    rfl
  · have allContained : ∀ element ∈ values.reverse, machine.heap.contains element = true :=
      fun element member => all element (List.mem_reverse.mp member)
    refine meets_ofFunction ?_
      (wellFormed.keeps_of_heap (wellFormed.heap.keeps_listOf allContained))
    simp only [Heap.reverse, listed]
    rfl

/-- Operations other than tasks have no fault at all. -/
theorem meets_operation (wellFormed : machine.WellFormed) {operation : Operation}
    (within : operation.isWithin machine.heap = true) (direct : operation.isTask = false) :
    (operation.run recur).Meets permitted machine (machine.Keeps Heap.Has) := by
  unfold Operation.run
  cases operation with
  | symbol name =>
      refine meets_allocate ?_
      exact wellFormed.keeps_of_heap (wellFormed.heap.keeps_symbol name)
  | cons head tail =>
      have contained := Bool.and_eq_true_iff.mp within
      refine meets_allocate ?_
      exact wellFormed.keeps_of_heap (wellFormed.heap.keeps_cons contained.1 contained.2)
  | listOf elements =>
      refine meets_allocate ?_
      exact wellFormed.keeps_of_heap (wellFormed.heap.keeps_listOf (List.all_eq_true.mp within))
  | head value => exact meets_consult_of_unfolds wellFormed within Heap.Unfolds.head
  | tail value => exact meets_consult_of_unfolds wellFormed within Heap.Unfolds.tail
  | reverse value => exact meets_reverse recur wellFormed within
  | quote value =>
      refine meets_allocate ?_
      exact wellFormed.keeps_of_heap (wellFormed.heap.keeps_quote within)
  | unquote value =>
      exact meets_consult_of_unfolds wellFormed within
        (Heap.Unfolds.unquote wellFormed.heap.keywords)
  | addError error =>
      refine meets_allocate ?_
      exact wellFormed.keeps_of_heap (wellFormed.heap.keeps_addError error)
  | addLambda lambda =>
      refine meets_allocate ?_
      exact wellFormed.keeps_of_heap (wellFormed.heap.keeps_addLambda lambda)
  | parse source =>
      refine meets_allocate ?_
      exact wellFormed.keeps_of_heap (wellFormed.heap.keeps_parse source)
  | define symbol value =>
      have contained := Bool.and_eq_true_iff.mp within
      exact meets_define_keeps wellFormed contained.1 contained.2
  | lookup symbol => exact meets_lookup wellFormed within
  | eval | apply => cases direct

variable {recur}

theorem SoundTasks.operation (sound : SoundTasks permitted recur) (wellFormed : machine.WellFormed)
    {operation : Operation} (within : operation.isWithin machine.heap = true) :
    (operation.run recur).Meets permitted machine (machine.Keeps Heap.Has) := by
  cases operation with
  | eval form => exact sound (.eval form) machine wellFormed within
  | apply record arguments => exact sound (.apply record arguments) machine wellFormed within
  | _ => exact meets_operation recur wellFormed within rfl

theorem meets_perform {operation : Operation} {next : Except Error Value → Script}
    {middle condition : Except Error Value → Machine → Prop}
    (first : (operation.run recur).Meets permitted machine middle)
    (rest : ∀ outcome after, middle outcome after →
      ((next outcome).run recur).Meets permitted after condition) :
    ((Script.perform operation next).run recur).Meets permitted machine condition := by
  unfold Meets at first ⊢
  rw [Script.runIn_perform]
  cases ran : (operation.run recur).runIn machine with
  | ok result =>
      rw [ran] at first
      exact rest result.1 result.2 first
  | error fault =>
      rw [ran] at first
      exact first

/-- Whatever a screened routine does, it keeps the machine well-formed. -/
theorem SoundTasks.screened (sound : SoundTasks permitted recur) (script : Script)
    (wellFormed : machine.WellFormed) :
    (script.screened.run recur).Meets permitted machine (machine.Keeps Heap.Has) := by
  induction script generalizing machine with
  | done outcome =>
      cases outcome with
      | error error => exact wellFormed.keeps_error error
      | ok value =>
          change ((Script.done (if machine.heap.contains value then .ok value
            else .error .undefined)).run recur).Meets permitted machine _
          split
          · next contained => exact wellFormed.keeps_ok contained
          · exact wellFormed.keeps_error _
  | perform operation next ih =>
      change ((if operation.isWithin machine.heap then
        Script.perform operation fun outcome => (next outcome).screened
        else .done (.error .undefined)).run recur).Meets permitted machine _
      split
      · next within =>
        refine meets_perform (sound.operation wellFormed within) fun outcome after keeps => ?_
        exact (ih outcome keeps.wellFormed).imp fun _ _ later => .of_grown keeps.growsTo later
      · exact wellFormed.keeps_error _
  | examine next ih => exact ih machine.heap machine.environment wellFormed

private theorem meets_first (wellFormed : machine.WellFormed) {value : Value}
    (contained : machine.heap.contains value = true) :
    (Evaluation.consult (·.heap.head value)).Meets permitted machine (machine.Keeps Heap.Has) :=
  meets_consult_of_unfolds wellFormed contained Heap.Unfolds.head

theorem SoundTasks.routine (sound : SoundTasks permitted recur) (host : Host)
    (wellFormed : machine.WellFormed) {arguments : Value}
    (contained : machine.heap.contains arguments = true) (routine : Routine) :
    (routine.run host.screened recur arguments).Meets permitted machine
      (machine.Keeps Heap.Has) := by
  unfold Routine.run
  cases routine with
  | quote => exact meets_first wellFormed contained
  | head =>
      refine meets_keeps_bind (meets_first wellFormed contained) fun list after _ keeps has => ?_
      exact meets_first keeps has
  | tail =>
      refine meets_keeps_bind (meets_first wellFormed contained) fun list after _ keeps has => ?_
      exact meets_consult_of_unfolds keeps has Heap.Unfolds.tail
  | host id => exact sound.screened (host.routine id arguments) wellFormed

theorem SoundTasks.applyLambda (sound : SoundTasks permitted recur) (host : Host)
    (wellFormed : machine.WellFormed) {record : Nat} {arguments : Value}
    (recordContained : machine.heap.contains (.lambda record) = true)
    (contained : machine.heap.contains arguments = true) :
    (applyLambda host.screened recur record arguments).Meets permitted machine
      (machine.Keeps Heap.Has) := by
  obtain ⟨contents, found⟩ := Heap.exists_lambda_of_contains recordContained
  unfold TaggedLisp.applyLambda
  refine meets_examine_bind (Heap.lambda_of_some found) ?_
  rcases wellFormed.heap.exists_toList contained with refused | ⟨values, listed, -⟩
  · refine meets_consult_bind_of_error ?_ (wellFormed.keeps_error .notAList)
    simp only [Heap.count, refused]
    rfl
  · have counted : machine.heap.count arguments = .ok (.ok values.length) := by
      simp only [Heap.count, listed]
      rfl
    refine meets_consult_bind counted ?_
    split
    · exact sound.routine host wellFormed contained contents.routine
    · exact wellFormed.keeps_error _

/-! ## Forms -/

theorem SoundTasks.mapM (sound : SoundTasks permitted recur) (wellFormed : machine.WellFormed)
    {forms : List Value} (contained : ∀ form ∈ forms, machine.heap.contains form = true) :
    (forms.mapM fun form => recur (.eval form)).Meets permitted machine
      (machine.Keeps fun heap values => ∀ value ∈ values, heap.contains value = true) := by
  induction forms generalizing machine with
  | nil => exact wellFormed.keeps_ok (by simp)
  | cons form forms ih =>
      rw [List.mapM_cons]
      refine meets_keeps_bind (sound (.eval form) machine wellFormed
        (contained form List.mem_cons_self)) fun value after growth keeps has => ?_
      refine meets_keeps_bind (ih keeps fun other member =>
        growth.contains (contained other (List.mem_cons_of_mem _ member)))
        fun values final growth finalKeeps all => ?_
      exact meets_pure (finalKeeps.keeps_ok
        (List.forall_mem_cons.mpr ⟨growth.contains has, all⟩))

theorem SoundTasks.evalApplication (sound : SoundTasks permitted recur)
    (wellFormed : machine.WellFormed) {cell : Nat}
    (contained : machine.heap.contains (.list cell) = true) :
    (evalApplication recur cell).Meets permitted machine (machine.Keeps Heap.Has) := by
  obtain ⟨link, found⟩ := Heap.exists_link_of_contains contained
  have older := wellFormed.heap.links found
  unfold TaggedLisp.evalApplication
  refine meets_examine_bind (Heap.cell_of_some found) ?_
  split
  · next head shape =>
    have headContained := shape ▸ older.head
    -- The arguments are in an older cell, which is how the order of the cells gets used here.
    have tailContained : machine.heap.contains link.tail = true := by
      rcases older.tail with atEnd | ⟨next, more, less⟩
      · rw [atEnd]
        rfl
      · rw [more]
        exact decide_eq_true (Nat.lt_trans less (of_decide_eq_true contained))
    rcases wellFormed.heap.exists_toList tailContained with refused | ⟨forms, listed, all⟩
    · exact meets_consult_bind_of_error refused (wellFormed.keeps_error _)
    refine meets_consult_bind listed ?_
    refine meets_keeps_bind (sound.mapM wellFormed all) fun values evaluated growth keeps has => ?_
    refine meets_keeps_bind (meets_allocate (keeps.keeps_of_heap (keeps.heap.keeps_listOf has)))
      fun arguments allocated allocation keeps argumentsContained => ?_
    have headContained := allocation.contains (growth.contains headContained)
    refine meets_keeps_bind (meets_lookup keeps headContained)
      fun value found growth keeps valueContained => ?_
    split
    · next record =>
      refine sound (.apply record arguments) _ keeps ?_
      exact Bool.and_eq_true_iff.mpr ⟨valueContained, growth.contains argumentsContained⟩
    · obtain ⟨name, named⟩ := Heap.exists_name_of_contains (growth.contains headContained)
      exact meets_examine_bind (Heap.name_of_some named) (keeps.keeps_error _)
  · exact wellFormed.keeps_error _

theorem SoundTasks.evalForm (sound : SoundTasks permitted recur) (wellFormed : machine.WellFormed)
    {form : Value} (contained : machine.heap.contains form = true) :
    (evalForm recur form).Meets permitted machine (machine.Keeps Heap.Has) := by
  unfold TaggedLisp.evalForm
  obtain ⟨tree, unfolds⟩ := wellFormed.heap.exists_unfolds contained
  have keywords := wellFormed.heap.keywords
  cases form with
  | emptyList => exact wellFormed.keeps_ok rfl
  | symbol symbol => exact meets_lookup wellFormed contained
  | internal | error | lambda => exact wellFormed.keeps_error _
  | list cell =>
      refine meets_examine_bind (unfolds.isQuoted keywords) ?_
      split
      · exact meets_consult_of_unfolds wellFormed contained (Heap.Unfolds.unquote keywords)
      · obtain ⟨definition, read, agrees⟩ := unfolds.definition? keywords
        refine meets_examine_bind read ?_
        generalize tree.definition? = shape at agrees
        cases agrees with
        | none => exact sound.evalApplication wellFormed contained
        | some named bodyUnfolds =>
            refine meets_keeps_bind (sound (.eval _) machine wellFormed bodyUnfolds.contains)
              fun value after growth keeps has => ?_
            exact meets_define_keeps keeps
              (growth.contains (decide_eq_true (SymbolTable.lt_size_of_name? named))) has

/-- Tasks of any nesting keep a machine well-formed. The only fault is that the nesting is used up. -/
theorem soundTasks_run (host : Host) (budget : Nat) :
    SoundTasks (· = .exhausted) (Task.run host.screened budget) := by
  induction budget with
  | zero => exact fun task machine wellFormed within => rfl
  | succ budget ih =>
      intro task machine wellFormed within
      cases task with
      | eval form => exact ih.evalForm wellFormed within
      | apply record arguments =>
          have contained := Bool.and_eq_true_iff.mp within
          exact ih.applyLambda host wellFormed contained.1 contained.2

end Soundness

end TaggedLisp
