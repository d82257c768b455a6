import TaggedLisp.Proofs.Evaluation.Containment
import TaggedLisp.Proofs.Evaluation.Lockstep
import TaggedLisp.Proofs.Heap.Spine
import TaggedLisp.Proofs.SymbolTable
import TaggedLisp.StockRoutine

/-! Evaluation goes down. With the routines of the language the evaluator comes back to itself only for
elements of the form that it is at, and these are older than the form, so the index of its cell is the
measure. The evaluator below is held to that: it is defined by recursion on the measure, and whatever
else the evaluator might come back for is a fault. It does the same as the evaluator on its budget.

Lambdas of the host are out of bounds not only as bindings. A quoted list may hold one, a definition
may bind it, and the very next argument may call it. -/

set_option autoImplicit false

namespace TaggedLisp

/-! ## Going down -/

/-- The number of cells that may lie below a value. -/
def Value.rank : Value → Nat
  | .list cell => cell + 1
  | _ => 0

/-- Whether a value is an element of a form and of smaller rank. -/
def Heap.isBelow (heap : Heap) (form inner : Value) : Bool :=
  match heap.elements form with
  | .ok elements => inner ∈ elements && inner.rank < form.rank
  | .error _ => false

theorem Heap.rank_lt_of_isBelow {heap : Heap} {form inner : Value}
    (below : heap.isBelow form inner = true) : inner.rank < form.rank := by
  unfold isBelow at below
  split at below
  · exact of_decide_eq_true (Bool.and_eq_true_iff.mp below).2
  · cases below

theorem Heap.OlderLink.of_rank {heap : Heap} {index : Nat} {link : Cell}
    (contained : heap.contains link.head = true) (headOlder : link.head.rank ≤ index)
    (isList : link.tail.isList = true) (tailOlder : link.tail.rank ≤ index) :
    heap.OlderLink index link := by
  refine ⟨contained, fun cell shape => ?_, ?_⟩
  · rw [shape] at headOlder
    exact headOlder
  · cases shape : link.tail with
    | emptyList => exact .inl rfl
    | list cell =>
        rw [shape] at tailOlder
        exact .inr ⟨cell, rfl, tailOlder⟩
    | _ =>
        rw [shape] at isList
        cases isList

/-- Evaluates a form like `evalForm`, and comes back to itself only for what is below the form at that
time. No routine may come back to it. -/
def evalDown (host : Host) (form : Value) : Evaluation Value :=
  evalForm (fun
    | .eval inner => Evaluation.ofFunction fun machine =>
      if _ : machine.heap.isBelow form inner = true then (evalDown host inner).runIn machine
      else throw .endless
    | .apply record arguments =>
      applyLambda host (fun _ => Evaluation.ofFunction fun _ => throw .endless) record arguments)
    form
termination_by form.rank
decreasing_by exact Heap.rank_lt_of_isBelow ‹_›

open Evaluation in
/-- Where going down comes to an end, the evaluator comes to the same end if calls may be nested as
deep as the rank of the form. -/
theorem inStep_evalDown (host : Host) {form : Value} {budget : Nat} (enough : form.rank + 1 < budget)
    (machine : Machine) :
    InStep Eq (fun _ => False) machine machine (evalDown host form)
      (Task.run host budget (.eval form)) := by
  obtain ⟨budget, rfl⟩ : ∃ rest, budget = rest + 1 := ⟨budget - 1, by omega⟩
  rw [evalDown]
  refine (lockstep_same host).evalForm ?_ rfl form
  rintro task machine _ rfl
  cases task with
  | eval inner =>
      intro outcome after ran included
      rw [runIn_ofFunction] at ran
      split at ran
      · next below =>
        have less := Heap.rank_lt_of_isBelow below
        exact inStep_evalDown host (by omega) machine outcome after ran included
      · cases ran
  | apply record arguments =>
      obtain ⟨budget, rfl⟩ : ∃ rest, budget = rest + 1 := ⟨budget - 1, by omega⟩
      refine (lockstep_same host).applyLambda ?_ rfl record arguments
      intro task machine other holds outcome after ran
      cases ran
termination_by form.rank

/-! ## Values that lead to no lambda of the host -/

/-- All lambdas in the tree run routines of the language. -/
inductive Tree.HostFree : Tree → Prop where
  | internal {cause : InternalError} : HostFree (.internal cause)
  | error {error : Error} : HostFree (.error error)
  | symbol {name : String} : HostFree (.symbol name)
  | lambda {record : Nat} {contents : Lambda} :
      (∀ id, contents.routine ≠ .host id) → HostFree (.lambda record contents)
  | list {elements : List Tree} :
      (∀ element ∈ elements, HostFree element) → HostFree (.list elements)

/-- The value stands for a tree, and all lambdas in it run routines of the language. -/
def Heap.IsHostFree (heap : Heap) (value : Value) : Prop :=
  ∃ tree, heap.Unfolds value tree ∧ tree.HostFree

namespace Heap

variable {heap after : Heap} {value : Value}

theorem IsHostFree.grow (growth : heap.GrowsTo after) (free : heap.IsHostFree value) :
    after.IsHostFree value := by
  obtain ⟨tree, unfolds, free⟩ := free
  exact ⟨tree, unfolds.grow growth, free⟩

theorem IsHostFree.contains (free : heap.IsHostFree value) : heap.contains value = true := by
  obtain ⟨tree, unfolds, -⟩ := free
  exact unfolds.contains

theorem isHostFree_symbol {id : Nat} (contained : heap.contains (.symbol id) = true) :
    heap.IsHostFree (.symbol id) := by
  obtain ⟨name, named⟩ := exists_name_of_contains contained
  exact ⟨_, .symbol named, .symbol⟩

theorem isHostFree_of_unfoldsEach {values : List Value} {trees : List Tree}
    (each : List.Forall₂ heap.Unfolds values trees) (free : ∀ tree ∈ trees, tree.HostFree) :
    ∀ value ∈ values, heap.IsHostFree value := by
  induction each with
  | nil => simp
  | cons unfolds _ ih =>
      obtain ⟨head, others⟩ := List.forall_mem_cons.mp free
      exact List.forall_mem_cons.mpr ⟨⟨_, unfolds, head⟩, ih others⟩

/-- A list of host-free values that was built is host-free. -/
theorem isHostFree_of_listOf {values : List Value} {list : Value}
    (built : heap.listOf values = (.ok list, after))
    (free : ∀ value ∈ values, heap.IsHostFree value) : after.IsHostFree list := by
  have trees : ∃ trees, List.Forall₂ heap.Unfolds values trees ∧ ∀ tree ∈ trees, tree.HostFree := by
    clear built
    induction values with
    | nil => exact ⟨[], .nil, by simp⟩
    | cons value values ih =>
        obtain ⟨⟨tree, unfolds, head⟩, others⟩ := List.forall_mem_cons.mp free
        obtain ⟨trees, each, rest⟩ := ih others
        exact ⟨tree :: trees, .cons unfolds each, List.forall_mem_cons.mpr ⟨head, rest⟩⟩
  obtain ⟨trees, each, free⟩ := trees
  exact ⟨.list trees, .listOf each built, .list free⟩

theorem IsHostFree.of_spine (free : heap.IsHostFree value) {elements : List Value}
    (spine : heap.Spine value elements) : ∀ element ∈ elements, heap.IsHostFree element := by
  obtain ⟨tree, unfolds, free⟩ := free
  cases free with
  | list all =>
      obtain ⟨values, each, found, -⟩ := unfolds.exists_elements
      rw [spine.unique (elements_eq_ok_iff.mp found)]
      exact isHostFree_of_unfoldsEach each all
  | _ =>
      cases unfolds
      cases spine
      simp

theorem IsHostFree.head (free : heap.IsHostFree value) :
    ∃ outcome, heap.head value = .ok outcome ∧
      ∀ element, outcome = .ok element → heap.IsHostFree element := by
  obtain ⟨tree, unfolds, free⟩ := free
  obtain ⟨outcome, read, agrees⟩ := unfolds.head
  refine ⟨outcome, read, ?_⟩
  rintro element rfl
  cases free with
  | @list elements all =>
      cases elements with
      | nil => cases agrees
      | cons first others =>
          cases agrees with
          | ok elementUnfolds => exact ⟨first, elementUnfolds, all first List.mem_cons_self⟩
  | _ => cases agrees

theorem IsHostFree.tail (free : heap.IsHostFree value) :
    ∃ outcome, heap.tail value = .ok outcome ∧
      ∀ rest, outcome = .ok rest → heap.IsHostFree rest := by
  obtain ⟨tree, unfolds, free⟩ := free
  obtain ⟨outcome, read, agrees⟩ := unfolds.tail
  refine ⟨outcome, read, ?_⟩
  rintro rest rfl
  cases free with
  | @list elements all =>
      cases elements with
      | nil => cases agrees
      | cons first others =>
          cases agrees with
          | ok restUnfolds =>
              exact ⟨.list others, restUnfolds,
                .list fun element member => all element (List.mem_cons_of_mem _ member)⟩
  | _ => cases agrees

theorem IsHostFree.unquote (free : heap.IsHostFree value) (keywords : heap.KeywordsNamed) :
    ∃ outcome, heap.unquote value = .ok outcome ∧
      ∀ inner, outcome = .ok inner → heap.IsHostFree inner := by
  obtain ⟨tree, unfolds, free⟩ := free
  obtain ⟨outcome, read, agrees⟩ := unfolds.unquote keywords
  refine ⟨outcome, read, ?_⟩
  rintro inner rfl
  cases quoted : tree.unquoted? with
  | none =>
      rw [quoted] at agrees
      cases agrees
  | some innerTree =>
      rw [quoted] at agrees
      rw [Tree.unquoted?_eq_some_iff] at quoted
      subst quoted
      cases agrees with
      | ok innerUnfolds =>
          cases free with
          | list all => exact ⟨innerTree, innerUnfolds, all innerTree (by simp)⟩

/-- In a well-formed heap the elements of a list are of smaller rank than the list. -/
theorem WellFormed.rank_lt (wellFormed : heap.WellFormed) {elements : List Value}
    (spine : heap.Spine value elements) : ∀ element ∈ elements, element.rank < value.rank := by
  induction spine with
  | stop => simp
  | @link cell link elements found _ ih =>
      have older := wellFormed.links found
      have headBelow : link.head.rank ≤ cell := by
        cases shape : link.head with
        | list inner => exact older.headOlder inner shape
        | _ => exact Nat.zero_le _
      have tailBelow : link.tail.rank ≤ cell := by
        rcases older.tail with atEnd | ⟨next, more, less⟩
        · rw [atEnd]
          exact Nat.zero_le _
        · rw [more]
          exact less
      refine List.forall_mem_cons.mpr ⟨Nat.lt_succ_of_le headBelow, fun element member => ?_⟩
      exact Nat.lt_succ_of_lt (Nat.lt_of_lt_of_le (ih element member) tailBelow)

theorem WellFormed.isBelow (wellFormed : heap.WellFormed) (growth : heap.GrowsTo after)
    {elements : List Value} (spine : heap.Spine value elements) {inner : Value}
    (member : inner ∈ elements) : after.isBelow value inner = true := by
  simp only [Heap.isBelow, elements_eq_ok_iff.mpr (spine.grow growth), member,
    wellFormed.rank_lt spine inner member]
  rfl

end Heap

/-! ## Going down comes to an end -/

/-- A well-formed machine in which no binding leads to a lambda of the host. -/
structure Machine.HostFree (machine : Machine) : Prop where
  heap : machine.heap.WellFormed
  bindings : ∀ symbol value, machine.environment.find? symbol = some value →
    machine.heap.contains (.symbol symbol) = true ∧ machine.heap.IsHostFree value

/-- What a computation in such a machine has to leave, whether it succeeds or fails. -/
structure Machine.KeepsHostFree {α : Type} (fits : Heap → α → Prop) (machine : Machine)
    (outcome : Except Error α) (after : Machine) : Prop where
  growsTo : machine.heap.GrowsTo after.heap
  hostFree : after.HostFree
  fits : ∀ result, outcome = .ok result → fits after.heap result

namespace Machine

variable {α β : Type} {machine : Machine}

theorem HostFree.grow (free : machine.HostFree) {heap : Heap} (wellFormed : heap.WellFormed)
    (growth : machine.heap.GrowsTo heap) : HostFree { machine with heap } :=
  ⟨wellFormed, fun symbol value found =>
    (free.bindings symbol value found).imp (growth.contains ·) (·.grow growth)⟩

theorem HostFree.keeps_ok {fits : Heap → α → Prop} (free : machine.HostFree) {result : α}
    (holds : fits machine.heap result) : machine.KeepsHostFree fits (.ok result) machine :=
  ⟨.refl _, free, fun _ same => by cases same; exact holds⟩

theorem HostFree.keeps_error {fits : Heap → α → Prop} (free : machine.HostFree) (error : Error) :
    machine.KeepsHostFree fits (.error error) machine :=
  ⟨.refl _, free, fun _ failed => by cases failed⟩

theorem meets_keepsHostFree_bind {permitted : Fault → Prop} {middle : Heap → α → Prop}
    {fits : Heap → β → Prop} {computation : Evaluation α} {next : α → Evaluation β}
    (first : computation.Meets permitted machine (machine.KeepsHostFree middle))
    (rest : ∀ result after, machine.heap.GrowsTo after.heap → after.HostFree →
      middle after.heap result → (next result).Meets permitted after (after.KeepsHostFree fits)) :
    (computation >>= next).Meets permitted machine (machine.KeepsHostFree fits) := by
  refine first.bind (fun result after keeps => ?_) fun error after keeps => ?_
  · refine (rest result after keeps.growsTo keeps.hostFree (keeps.fits result rfl)).imp ?_
    exact fun _ _ later => ⟨keeps.growsTo.trans later.growsTo, later.hostFree, later.fits⟩
  · exact ⟨keeps.growsTo, keeps.hostFree, fun _ failed => by cases failed⟩

section HostFree

open Evaluation

variable {host : Host} {recur : Task → Evaluation Value}

theorem HostFree.lookup (free : machine.HostFree) {symbol : Nat}
    (contained : machine.heap.contains (.symbol symbol) = true) :
    (Evaluation.lookup symbol).Meets (fun _ => False) machine
      (machine.KeepsHostFree Heap.IsHostFree) := by
  cases found : machine.environment.find? symbol with
  | some value =>
      exact meets_consult (Environment.lookup_of_find? found _)
        (free.keeps_ok (free.bindings symbol value found).2)
  | none =>
      obtain ⟨name, named⟩ := Heap.exists_name_of_contains contained
      exact meets_consult (Environment.lookup_of_free found named) (free.keeps_error _)

theorem HostFree.define (free : machine.HostFree) {symbol : Nat} {value : Value}
    (contained : machine.heap.contains (.symbol symbol) = true)
    (valueFree : machine.heap.IsHostFree value) :
    (Evaluation.define symbol value).Meets (fun _ => False) machine
      (machine.KeepsHostFree Heap.IsHostFree) := by
  obtain ⟨name, named⟩ := Heap.exists_name_of_contains contained
  obtain ⟨⟨outcome, environment⟩, defined, defines⟩ :=
    machine.environment.define_defines named value
  refine meets_define defined ?_
  cases defines with
  | bound | full => exact free.keeps_error _
  | added =>
      refine ⟨.refl _, ⟨free.heap, fun other bound found => ?_⟩, ?_⟩
      · rw [Environment.find?_bind] at found
        split at found
        · next same =>
          cases found
          exact ⟨same ▸ contained, valueFree⟩
        · exact free.bindings other bound found
      · intro answer same
        cases same
        exact Heap.isHostFree_symbol contained

theorem HostFree.builtin (free : machine.HostFree) {routine : Routine}
    (builtin : ∀ id, routine ≠ .host id) {arguments : Value}
    (argumentsFree : machine.heap.IsHostFree arguments) :
    (routine.run host recur arguments).Meets (fun _ => False) machine
      (machine.KeepsHostFree Heap.IsHostFree) := by
  obtain ⟨outcome, read, firstFree⟩ := argumentsFree.head
  unfold Routine.run
  cases routine with
  | host id => exact absurd rfl (builtin id)
  | quote => exact meets_consult read ⟨.refl _, free, firstFree⟩
  | head =>
      cases outcome with
      | error error => exact meets_consult_bind_of_error read (free.keeps_error _)
      | ok list =>
          obtain ⟨outcome, listRead, elementFree⟩ := (firstFree list rfl).head
          exact meets_consult_bind read (meets_consult listRead ⟨.refl _, free, elementFree⟩)
  | tail =>
      cases outcome with
      | error error => exact meets_consult_bind_of_error read (free.keeps_error _)
      | ok list =>
          obtain ⟨outcome, listRead, restFree⟩ := (firstFree list rfl).tail
          exact meets_consult_bind read (meets_consult listRead ⟨.refl _, free, restFree⟩)

theorem HostFree.applyLambda (free : machine.HostFree) {record : Nat} {arguments : Value}
    (lambdaFree : machine.heap.IsHostFree (.lambda record))
    (argumentsFree : machine.heap.IsHostFree arguments) :
    (applyLambda host recur record arguments).Meets (fun _ => False) machine
      (machine.KeepsHostFree Heap.IsHostFree) := by
  obtain ⟨tree, unfolds, lambdaFree⟩ := lambdaFree
  cases unfolds with
  | lambda found =>
      cases lambdaFree with
      | lambda builtin =>
          unfold TaggedLisp.applyLambda
          refine meets_examine_bind (Heap.lambda_of_some found) ?_
          rcases free.heap.exists_toList argumentsFree.contains with
            refused | ⟨values, listed, -⟩
          · refine meets_consult_bind_of_error ?_ (free.keeps_error .notAList)
            simp only [Heap.count, refused]
            rfl
          · refine meets_consult_bind (Heap.count_eq_ok_iff.mpr ⟨values, listed, rfl⟩) ?_
            split
            · exact free.builtin builtin argumentsFree
            · exact free.keeps_error _

theorem HostFree.mapM (free : machine.HostFree) {forms : List Value}
    (each : ∀ form ∈ forms, ∀ after : Machine, machine.heap.GrowsTo after.heap → after.HostFree →
      (recur (.eval form)).Meets (fun _ => False) after (after.KeepsHostFree Heap.IsHostFree)) :
    (forms.mapM fun form => recur (.eval form)).Meets (fun _ => False) machine
      (machine.KeepsHostFree fun heap values => ∀ value ∈ values, heap.IsHostFree value) := by
  induction forms generalizing machine with
  | nil => exact free.keeps_ok (by simp)
  | cons form forms ih =>
      obtain ⟨first, others⟩ := List.forall_mem_cons.mp each
      rw [List.mapM_cons]
      refine meets_keepsHostFree_bind (first machine (.refl _) free)
        fun value after growth free valueFree => ?_
      refine meets_keepsHostFree_bind (ih free fun other member final later =>
        others other member final (growth.trans later))
        fun values final growth free valuesFree => ?_
      exact meets_pure (free.keeps_ok (List.forall_mem_cons.mpr ⟨valueFree.grow growth, valuesFree⟩))

theorem HostFree.listOf (free : machine.HostFree) {values : List Value}
    (valuesFree : ∀ value ∈ values, machine.heap.IsHostFree value) :
    (Evaluation.allocate (·.listOf values)).Meets (fun _ => False) machine
      (machine.KeepsHostFree Heap.IsHostFree) := by
  have keeps := free.heap.keeps_listOf fun value member => (valuesFree value member).contains
  refine meets_allocate ⟨keeps.growsTo, free.grow keeps.wellFormed keeps.growsTo, ?_⟩
  intro list built
  exact Heap.isHostFree_of_listOf (Prod.ext built rfl) valuesFree

/-- An application of host-free forms keeps the machine as it is required to be, if their evaluation
and the call do. -/
theorem HostFree.evalApplication (free : machine.HostFree) {cell : Nat} {elements : List Value}
    (spine : machine.heap.Spine (.list cell) elements)
    (elementsFree : ∀ element ∈ elements, machine.heap.IsHostFree element)
    (each : ∀ form ∈ elements, ∀ after : Machine, machine.heap.GrowsTo after.heap →
      after.HostFree →
      (recur (.eval form)).Meets (fun _ => False) after (after.KeepsHostFree Heap.IsHostFree))
    (call : ∀ record arguments, ∀ after : Machine, after.HostFree →
      after.heap.IsHostFree (.lambda record) → after.heap.IsHostFree arguments →
      (recur (.apply record arguments)).Meets (fun _ => False) after
        (after.KeepsHostFree Heap.IsHostFree)) :
    (evalApplication recur cell).Meets (fun _ => False) machine
      (machine.KeepsHostFree Heap.IsHostFree) := by
  cases spine with
  | stop outside => cases outside
  | @link _ link forms found rest =>
      obtain ⟨headFree, formsFree⟩ := List.forall_mem_cons.mp elementsFree
      unfold TaggedLisp.evalApplication
      refine meets_examine_bind (Heap.cell_of_some found) ?_
      split
      · next head shape =>
        have headContained := shape ▸ headFree.contains
        have isList : link.tail.isList = true := by
          rcases (free.heap.links found).tail with atEnd | ⟨next, more, -⟩
          · rw [atEnd]
            rfl
          · rw [more]
            rfl
        refine meets_consult_bind (Heap.toList_eq_ok_iff.mpr ⟨isList, rest⟩) ?_
        refine meets_keepsHostFree_bind (free.mapM fun form member =>
          each form (List.mem_cons_of_mem _ member)) fun values _ growth free valuesFree => ?_
        have headContained := growth.contains headContained
        refine meets_keepsHostFree_bind (free.listOf valuesFree)
          fun arguments _ growth free argumentsFree => ?_
        have headContained := growth.contains headContained
        refine meets_keepsHostFree_bind (free.lookup headContained)
          fun value _ growth free valueFree => ?_
        split
        · exact call _ arguments _ free valueFree (argumentsFree.grow growth)
        · obtain ⟨name, named⟩ := Heap.exists_name_of_contains (growth.contains headContained)
          exact meets_examine_bind (Heap.name_of_some named) (free.keeps_error _)
      · exact free.keeps_error _

/-- From a host-free form, going down comes to an end, and to a host-free value if it succeeds. The
heap and the environment grow on the way, but what is below a form stays below it. -/
theorem HostFree.evalDown {form : Value} {machine : Machine} (free : machine.HostFree)
    (formFree : machine.heap.IsHostFree form) :
    (evalDown host form).Meets (fun _ => False) machine
      (machine.KeepsHostFree Heap.IsHostFree) := by
  rw [TaggedLisp.evalDown]
  unfold TaggedLisp.evalForm
  cases form with
  | emptyList => exact free.keeps_ok formFree
  | symbol symbol => exact free.lookup formFree.contains
  | internal | error | lambda => exact free.keeps_error _
  | list cell =>
      have wellFormed := free.heap
      have keywords := wellFormed.keywords
      obtain ⟨trees, unfolds⟩ := wellFormed.exists_unfolds_list formFree.contains rfl
      obtain ⟨elements, -, whole, -⟩ := unfolds.exists_elements
      have spine := Heap.elements_eq_ok_iff.mp whole
      have elementsFree := formFree.of_spine spine
      -- Elements are below the form in every heap that this one grows to.
      have each : ∀ inner ∈ elements, ∀ after : Machine, machine.heap.GrowsTo after.heap →
          after.HostFree → (Evaluation.ofFunction fun machine =>
            if _ : machine.heap.isBelow (.list cell) inner = true then
              (TaggedLisp.evalDown host inner).runIn machine
            else throw .endless).Meets (fun _ => False) after
              (after.KeepsHostFree Heap.IsHostFree) := by
        intro inner member after growth free
        have below := wellFormed.isBelow growth spine member
        have less := Heap.rank_lt_of_isBelow below
        unfold Meets
        rw [runIn_ofFunction, dif_pos below]
        exact HostFree.evalDown free ((elementsFree inner member).grow growth)
      refine meets_examine_bind (unfolds.isQuoted keywords) ?_
      split
      · obtain ⟨outcome, unquoted, innerFree⟩ := formFree.unquote keywords
        exact meets_consult unquoted ⟨.refl _, free, innerFree⟩
      · obtain ⟨definition, read, -⟩ := unfolds.definition? keywords
        refine meets_examine_bind read ?_
        cases definition with
        | none =>
            refine free.evalApplication spine elementsFree each ?_
            intro record arguments after free lambdaFree argumentsFree
            exact free.applyLambda lambdaFree argumentsFree
        | some parts =>
            obtain ⟨symbol, body⟩ := parts
            cases spine.unique (Heap.definition?_eq_some_iff.mp read)
            have symbolContained := (elementsFree (.symbol symbol) (by simp)).contains
            refine meets_keepsHostFree_bind (each body (by simp) machine (.refl _) free)
              fun value after growth free valueFree => ?_
            exact free.define (growth.contains symbolContained) valueFree
termination_by form.rank

end HostFree

end Machine

/-! ## The evaluator goes down -/

namespace Machine

/-- The budget of a machine is more than it takes to go down from any of its forms. -/
theorem rank_lt_budget {machine : Machine} (wellFormed : machine.heap.WellFormed) {form : Value}
    (contained : machine.heap.contains form = true) : form.rank + 1 < machine.budget := by
  have rank : form.rank ≤ machine.heap.maxCells := by
    cases form with
    | list cell => exact Nat.le_trans (of_decide_eq_true contained) wellFormed.cells_size_le
    | _ => exact Nat.zero_le _
  have nesting : 1 < hostNesting := by decide
  rw [Machine.budget]
  omega

/-- Going down from a host-free form comes to an end, and nested calls come to the same, with any
budget that exceeds the rank of the form. -/
theorem HostFree.exists_evalDown (host : Host) {machine : Machine} (free : machine.HostFree)
    {form : Value} (formFree : machine.heap.IsHostFree form) :
    ∃ outcome after, (TaggedLisp.evalDown host form).runIn machine = .ok (outcome, after) ∧
      (∀ budget, form.rank + 1 < budget →
        (Task.run host budget (.eval form)).runIn machine = .ok (outcome, after)) ∧
      machine.KeepsHostFree Heap.IsHostFree outcome after := by
  have meets : (TaggedLisp.evalDown host form).Meets (fun _ => False) machine
      (machine.KeepsHostFree Heap.IsHostFree) := free.evalDown formFree
  obtain ⟨outcome, after, ran, keeps⟩ := meets.exists_runIn
  refine ⟨outcome, after, ran, fun budget enough => ?_, keeps⟩
  obtain ⟨_, nested, rfl⟩ := inStep_evalDown host enough machine outcome after ran (by simp)
  exact nested

/-- In a well-formed machine no binding of which leads to a lambda of the host, a form that leads to
none is evaluated by going down, with any budget that exceeds its rank. The machine that is left is
of the same kind. -/
theorem HostFree.eval_descends (host : Host) {machine : Machine} (free : machine.HostFree)
    {form : Value}
    (formFree : machine.heap.IsHostFree form) :
    ∃ outcome after, (TaggedLisp.evalDown host form).runIn machine = .ok (outcome, after) ∧
      (∀ budget, form.rank + 1 < budget →
        (Task.run host budget (.eval form)).runIn machine = .ok (outcome, after)) ∧
      machine.eval host form = .ok (outcome, after) ∧ after.HostFree := by
  obtain ⟨outcome, after, ran, nested, keeps⟩ := free.exists_evalDown host formFree
  refine ⟨outcome, after, ran, nested, ?_, keeps.hostFree⟩
  rw [Machine.eval, if_pos formFree.contains]
  exact nested _ (rank_lt_budget free.heap formFree.contains)

/-- A machine with the builtins bound, and with the cells of the form
`(f (quote (def y (quote z))) (def f (quote <lambda>)))`, where the lambda is one of the host. -/
def withQuotedLambda : Machine where
  heap :=
    { symbols := (SymbolTable.empty 7).internEach ["def", "quote", "head", "tail", "f", "y", "z"]
      cells := #[⟨.symbol 6, .emptyList⟩, ⟨.symbol 1, .list 0⟩, ⟨.list 1, .emptyList⟩,
        ⟨.symbol 5, .list 2⟩, ⟨.symbol 0, .list 3⟩, ⟨.list 4, .emptyList⟩, ⟨.symbol 1, .list 5⟩,
        ⟨.lambda 3, .emptyList⟩, ⟨.symbol 1, .list 7⟩, ⟨.list 8, .emptyList⟩, ⟨.symbol 4, .list 9⟩,
        ⟨.symbol 0, .list 10⟩, ⟨.list 11, .emptyList⟩, ⟨.list 6, .list 12⟩, ⟨.symbol 4, .list 13⟩]
      lambdas := #[.quote, .head, .tail, ⟨"eval", 2, StockRoutine.eval.routine⟩]
      errors := #[]
      maxCells := 17
      keywords := ⟨0, 1⟩ }
  environment :=
    ((((Environment.empty 6).bind 0 (.symbol 0)).bind 1 (.lambda 0)).bind 2 (.lambda 1)).bind 3
      (.lambda 2)

theorem withQuotedLambda_wellFormed : withQuotedLambda.heap.WellFormed where
  links := by
    intro index link found
    have checked : ∀ index : Fin 15,
        withQuotedLambda.heap.contains withQuotedLambda.heap.cells[index].head = true ∧
          withQuotedLambda.heap.cells[index].head.rank ≤ index ∧
          withQuotedLambda.heap.cells[index].tail.isList = true ∧
          withQuotedLambda.heap.cells[index].tail.rank ≤ index := by
      decide +kernel
    obtain ⟨inside, rfl⟩ := Array.getElem?_eq_some_iff.mp found
    obtain ⟨contained, headRank, isList, tailRank⟩ := checked ⟨index, inside⟩
    exact .of_rank contained headRank isList tailRank
  cells_size_le := by decide
  symbols_size_le := by decide +kernel
  keywords := ⟨by decide +kernel, by decide +kernel⟩

theorem withQuotedLambda_bindings :
    withQuotedLambda.environment.bindings =
      [(0, .symbol 0), (1, .lambda 0), (2, .lambda 1), (3, .lambda 2)] := by
  decide +kernel

theorem withQuotedLambda_hostFree : withQuotedLambda.HostFree := by
  refine ⟨withQuotedLambda_wellFormed, fun symbol value found => ?_⟩
  have member := Environment.mem_bindings_iff.mpr found
  rw [withQuotedLambda_bindings] at member
  simp only [List.mem_cons, Prod.mk.injEq, List.not_mem_nil, or_false] at member
  rcases member with ⟨rfl, rfl⟩ | ⟨rfl, rfl⟩ | ⟨rfl, rfl⟩ | ⟨rfl, rfl⟩
  · exact ⟨by decide +kernel, Heap.isHostFree_symbol (by decide +kernel)⟩
  · have found : withQuotedLambda.heap.lambdas[0]? = some .quote := rfl
    exact ⟨by decide +kernel, _, .lambda found, .lambda (by simp [Lambda.quote])⟩
  · have found : withQuotedLambda.heap.lambdas[1]? = some .head := rfl
    exact ⟨by decide +kernel, _, .lambda found, .lambda (by simp [Lambda.head])⟩
  · have found : withQuotedLambda.heap.lambdas[2]? = some .tail := rfl
    exact ⟨by decide +kernel, _, .lambda found, .lambda (by simp [Lambda.tail])⟩

/-- The definition `(def y (quote z))` leads to no lambda, although the heap has one of the host. -/
theorem eval_descends_in_definition :
    ∃ outcome after, (TaggedLisp.evalDown Host.stock (.list 4)).runIn withQuotedLambda =
        .ok (outcome, after) ∧
      withQuotedLambda.eval Host.stock (.list 4) = .ok (outcome, after) := by
  have quoted : withQuotedLambda.heap.IsHostFree (.list 1) :=
    ⟨.list [.symbol "quote", .symbol "z"],
      .list rfl (.symbol (by decide +kernel)) (.list rfl (.symbol (by decide +kernel)) .emptyList),
      .list (by simp [Tree.HostFree.symbol])⟩
  obtain ⟨body, bodyUnfolds, bodyFree⟩ := quoted
  have form : withQuotedLambda.heap.IsHostFree (.list 4) :=
    ⟨.list [.symbol "def", .symbol "y", body],
      .list rfl (.symbol (by decide +kernel)) (.list rfl (.symbol (by decide +kernel))
        (.list rfl bodyUnfolds .emptyList)),
      .list (by simp [Tree.HostFree.symbol, bodyFree])⟩
  obtain ⟨outcome, after, descends, -, ran, -⟩ :=
    HostFree.eval_descends Host.stock withQuotedLambda_hostFree form
  exact ⟨outcome, after, descends, ran⟩

/-- A host whose routines apply the lambda again that they are called for. -/
def selfCalling : Host where
  routine _ arguments := .finish (.apply 3 arguments)

open Evaluation in
private theorem selfCalling_exhausts {machine : Machine} {contents : Lambda} {id : Nat}
    {arguments : Value} (found : machine.heap.lambdas[3]? = some contents)
    (provided : contents.routine = .host id)
    (counted : machine.heap.count arguments = .ok (.ok contents.arity)) (budget : Nat) :
    (Task.run selfCalling budget (.apply 3 arguments)).Meets (· = .exhausted) machine
      fun _ _ => False := by
  induction budget with
  | zero => exact rfl
  | succ budget ih =>
      refine meets_examine_bind (Heap.lambda_of_some found) (meets_consult_bind counted ?_)
      rw [if_pos rfl, provided]
      exact meets_perform ih fun _ _ never => never.elim

/-- The bindings of a well-formed machine are builtins of the language, and yet a contained form brings
the evaluator back to the result of an evaluation, which binds `y`, or for good. -/
theorem withQuotedLambda_comes_back :
    withQuotedLambda.heap.WellFormed ∧
      (∀ symbol record, withQuotedLambda.environment.find? symbol = some (.lambda record) →
        ∃ contents ∈ [Lambda.quote, Lambda.head, Lambda.tail],
          withQuotedLambda.heap.lambdas[record]? = some contents) ∧
      withQuotedLambda.heap.contains (.list 14) = true ∧
      (∃ outcome after, (Task.run Host.stock 6 (.eval (.list 14))).runIn withQuotedLambda =
        .ok (outcome, after) ∧ after.environment.isBound 5 = true) ∧
      ∀ budget outcome after, (Task.run selfCalling budget (.eval (.list 14))).runIn
        withQuotedLambda ≠ .ok (outcome, after) := by
  refine ⟨withQuotedLambda_wellFormed, ?_, by decide, ?_, ?_⟩
  · intro symbol record found
    have member := Environment.mem_bindings_iff.mpr found
    rw [withQuotedLambda_bindings] at member
    simp only [List.mem_cons, Prod.mk.injEq, Value.lambda.injEq, reduceCtorEq, and_false,
      List.not_mem_nil, or_false, false_or] at member
    rcases member with ⟨-, rfl⟩ | ⟨-, rfl⟩ | ⟨-, rfl⟩
    · exact ⟨.quote, by simp, rfl⟩
    · exact ⟨.head, by simp, rfl⟩
    · exact ⟨.tail, by simp, rfl⟩
  · have bound : ((Task.run Host.stock 6 (.eval (.list 14))).runIn withQuotedLambda).toOption.map
        (·.2.environment.isBound 5) = some true := by
      decide +kernel
    cases ran : (Task.run Host.stock 6 (.eval (.list 14))).runIn withQuotedLambda with
    | error fault =>
        rw [ran] at bound
        cases bound
    | ok result =>
        rw [ran] at bound
        exact ⟨result.1, result.2, rfl, Option.some.inj bound⟩
  · intro budget outcome after ran
    let heap := { withQuotedLambda.heap with
      cells := (withQuotedLambda.heap.cells.push ⟨.symbol 4, .emptyList⟩).push ⟨.list 4, .list 15⟩ }
    let later : Machine := ⟨heap, withQuotedLambda.environment.bind 4 (.lambda 3)⟩
    have called : (Task.run selfCalling (budget + 4) (.eval (.list 14))).runIn withQuotedLambda =
        (Task.run selfCalling (budget + 3) (.apply 3 (.list 16))).runIn later :=
      rfl
    have found : later.heap.lambdas[3]? = some ⟨"eval", 2, StockRoutine.eval.routine⟩ := rfl
    have counted : later.heap.count (.list 16) = .ok (.ok 2) := rfl
    have exhausts := selfCalling_exhausts found rfl counted (budget + 3)
    have ended := called.symm.trans (Task.run_of_le (Nat.le_add_right budget 4) ran)
    simp only [Evaluation.Meets, ended] at exhausts

end Machine

end TaggedLisp
