import TaggedLisp.Proofs.Evaluation.Derivation
import TaggedLisp.Proofs.Heap.Spine
import TaggedLisp.Proofs.Machine

/-! A value is screened by itself: whether it points inside the stores is all that is asked, and the
cells that it leads to are not looked at. That is enough in a heap that was built of its own values
only. The operations that build values do not look at their operands, though, so a value of another
heap gets into a cell unnoticed, and the next cell that is built may be one that breaks the screen. Of
a single cell it can be said exactly when it does. -/

set_option autoImplicit false

namespace TaggedLisp

/-- The operations that build values in a heap. -/
def Operation.isConstructor : Operation → Bool
  | .symbol _ | .cons .. | .listOf _ | .reverse _ | .quote _ | .addError _ | .addLambda _ => true
  | _ => false

namespace Heap

/-! ## What a screen is for -/

/-- What is met on the way down from a value through the cells of the heap. -/
inductive LeadsTo (heap : Heap) (value : Value) : Value → Prop where
  | refl : LeadsTo heap value value
  | head {cell : Nat} {link : Cell} :
      LeadsTo heap value (.list cell) → heap.cells[cell]? = some link → LeadsTo heap value link.head
  | tail {cell : Nat} {link : Cell} :
      LeadsTo heap value (.list cell) → heap.cells[cell]? = some link → LeadsTo heap value link.tail

/-- Whoever has seen that a value points inside the stores needs to look no further. -/
structure Screens (heap : Heap) : Prop where
  contained : ∀ {value other : Value}, heap.contains value = true → heap.LeadsTo value other →
    heap.contains other = true
  ends : ∀ {value : Value}, heap.contains value = true → ∃ elements, heap.Spine value elements

variable {heap after : Heap}

/-- To follow links it is enough to know every single one. -/
theorem screens_of_links
    (links : ∀ {cell : Nat} {link : Cell}, heap.cells[cell]? = some link →
      heap.contains link.head = true ∧ heap.contains link.tail = true)
    (ends : ∀ {value : Value}, heap.contains value = true → ∃ elements, heap.Spine value elements) :
    heap.Screens where
  contained {value other} contained leads := by
    induction leads with
    | refl => exact contained
    | head _ found => exact (links found).1
    | tail _ found => exact (links found).2
  ends := ends

theorem Screens.links (screens : heap.Screens) {cell : Nat} {link : Cell}
    (found : heap.cells[cell]? = some link) :
    heap.contains link.head = true ∧ heap.contains link.tail = true := by
  have inside : heap.contains (.list cell) = true :=
    decide_eq_true (Array.getElem?_eq_some_iff.mp found).1
  exact ⟨screens.contained inside (.head .refl found), screens.contained inside (.tail .refl found)⟩

theorem WellFormed.screens (wellFormed : heap.WellFormed) : heap.Screens := by
  refine screens_of_links (fun {cell link} found => ?_) fun {value} contained => ?_
  · have older := wellFormed.links found
    refine ⟨older.head, ?_⟩
    rcases older.tail with atEnd | ⟨next, more, less⟩
    · rw [atEnd]
      rfl
    · rw [more]
      exact decide_eq_true (Nat.lt_trans less (Array.getElem?_eq_some_iff.mp found).1)
  · cases isList : value.isList with
    | true =>
        obtain ⟨trees, unfolds⟩ := wellFormed.exists_unfolds_list contained isList
        obtain ⟨elements, -, found, -⟩ := unfolds.exists_elements
        exact ⟨elements, elements_eq_ok_iff.mp found⟩
    | false =>
        refine ⟨[], .stop ?_⟩
        cases value with
        | emptyList | list => cases isList
        | _ => rfl

/-! ## One more cell -/

/-- A new cell leaves the screen sufficient exactly if its tail pointed inside the stores before it was
built, and its head does so afterwards. So the one foreign value that does no harm is a head that
happens to be the new cell itself. -/
theorem Screens.cons_iff (screens : heap.Screens) {head tail list : Value}
    (consed : heap.cons head tail = (.ok list, after)) :
    after.Screens ↔ after.contains head = true ∧ heap.contains tail = true := by
  have growth := heap.cons_growsTo head tail
  have conses := heap.cons_conses head tail
  rw [consed] at growth conses
  cases conses with
  | added isList =>
      have newest : (heap.cells.push ⟨head, tail⟩)[heap.cells.size]? = some ⟨head, tail⟩ :=
        Array.getElem?_push_size ..
      constructor
      · intro later
        refine ⟨(later.links newest).1, ?_⟩
        obtain ⟨elements, spine⟩ := later.ends (later.links newest).2
        cases tail with
        | emptyList => rfl
        | list cell =>
            -- A tail that is inside now and was not before is the new cell, whose tails never end.
            refine decide_eq_true (Nat.lt_of_not_le fun outside => ?_)
            have inside := of_decide_eq_true (later.links newest).2
            rw [Array.size_push] at inside
            have same : cell = heap.cells.size := by omega
            subst same
            cases spine with
            | stop notCell => cases notCell
            | link found rest =>
                cases newest.symm.trans found
                have longer := rest.unique (.link newest rest)
                exact absurd (congrArg List.length longer) (by simp)
        | _ => cases isList
      · rintro ⟨headContained, tailContained⟩
        refine screens_of_links (fun {cell link} found => ?_) fun {value} contained => ?_
        · rw [Array.getElem?_push] at found
          split at found
          · cases found
            exact ⟨headContained, growth.contains tailContained⟩
          · exact (screens.links found).imp growth.contains growth.contains
        · by_cases before : heap.contains value = true
          · obtain ⟨elements, spine⟩ := screens.ends before
            exact ⟨elements, spine.grow growth⟩
          · obtain ⟨elements, spine⟩ := screens.ends tailContained
            cases value with
            | list cell =>
                have outside : heap.cells.size ≤ cell :=
                  Nat.le_of_not_lt fun less => before (decide_eq_true less)
                have inside := of_decide_eq_true contained
                rw [Array.size_push] at inside
                have same : cell = heap.cells.size := by omega
                subst same
                exact ⟨head :: elements, .link newest (spine.grow growth)⟩
            | _ => exact absurd contained before

/-! ## Heaps that are built of their own values -/

/-- A heap that was built from a fresh one by such operations, always of values that it contained. -/
inductive BuiltOfItsOwn (settings : Settings) : Heap → Prop where
  | new {heap : Heap} : Heap.new settings = .ok heap → BuiltOfItsOwn settings heap
  | perform {heap : Heap} {operation : Operation} {outcome : Except Error Value}
      {after : Machine} : BuiltOfItsOwn settings heap →
      operation.isConstructor = true → operation.isWithin heap = true →
      (operation.run noTask).runIn ⟨heap, .empty 0⟩ = .ok (outcome, after) →
      BuiltOfItsOwn settings after.heap

theorem BuiltOfItsOwn.wellFormed {settings : Settings} (built : BuiltOfItsOwn settings heap) :
    heap.WellFormed := by
  induction built with
  | new created => exact wellFormed_new created
  | @perform heap operation outcome after _ constructs within ran ih =>
      have machine : Machine.WellFormed ⟨heap, .empty 0⟩ :=
        ⟨ih, Environment.containedIn_empty _ _⟩
      have direct : operation.isTask = false := by
        cases operation with
        | eval | apply => cases constructs
        | _ => rfl
      obtain ⟨_, _, performed, keeps⟩ := Evaluation.Meets.exists_runIn
        (meets_operation noTask machine within direct)
      cases ran.symm.trans performed
      exact keeps.wellFormed.heap

/-- In a heap that was built of its own values the screen is sufficient, so the evaluation of any
value whatever ends with a value of the heap or with an error. One more cell, of any two values, keeps
it so exactly if the tail was contained and the head is contained now. -/
theorem BuiltOfItsOwn.screens_and_eval_ends {settings : Settings}
    (built : BuiltOfItsOwn settings heap) :
    heap.Screens ∧
      (∀ (host : Host) (environment : Environment) (value : Value), environment.ContainedIn heap →
        Checked.Ends (fun result => ∀ answer, result.1 = .ok answer →
            result.2.heap.contains answer = true)
          (Machine.eval host.screened value ⟨heap, environment⟩)) ∧
      ∀ (head tail list : Value) (after : Heap), heap.cons head tail = (.ok list, after) →
        (after.Screens ↔ after.contains head = true ∧ heap.contains tail = true) := by
  have screens := built.wellFormed.screens
  refine ⟨screens, fun host environment value contained => ?_, fun _ _ _ _ consed =>
    screens.cons_iff consed⟩
  have machine : Machine.WellFormed ⟨heap, environment⟩ := ⟨built.wellFormed, contained⟩
  exact (machine.eval_ends host value).imp fun _ keeps => keeps.fits

/-- A fresh heap takes a cell with one of its keywords, and still needs no more than the screen. -/
theorem screens_of_keyword_list :
    ∃ heap list after, Heap.new {} = .ok heap ∧ heap.Screens ∧
      heap.cons (.symbol 0) .emptyList = (.ok list, after) ∧ after.Screens := by
  have made : (Heap.new {}).toOption.map (fun heap =>
      ((heap.cons (.symbol 0) .emptyList).1,
        (heap.cons (.symbol 0) .emptyList).2.contains (.symbol 0))) =
      some (.ok (.list 0), true) := by
    decide +kernel
  cases created : Heap.new {} with
  | error error =>
      rw [created] at made
      cases made
  | ok heap =>
      rw [created] at made
      obtain ⟨consed, contained⟩ := Prod.mk.inj (Option.some.inj made)
      obtain ⟨screens, -, more⟩ := (BuiltOfItsOwn.new created).screens_and_eval_ends
      exact ⟨heap, .list 0, _, rfl, screens, Prod.ext consed rfl,
        (more _ _ _ _ (Prod.ext consed rfl)).mpr ⟨contained, rfl⟩⟩

private theorem eq_error_of_map {α β : Type} {computation : Checked α} {read : α → β} {fault : Fault}
    (failed : computation.map read = .error fault) : computation = .error fault := by
  cases computation with
  | error other =>
      cases failed
      rfl
  | ok result => cases failed

/-- The symbol that another heap gave to `z` is none of a fresh machine, but a list of it passes the
screen, and its evaluation reads a name that is not there. -/
theorem screen_passes_foreign_head :
    ∃ machine heap, Machine.new {} = .ok (.ok machine) ∧
      machine.heap.contains (.symbol 4) = false ∧
      machine.heap.cons (.symbol 4) .emptyList = (.ok (.list 0), heap) ∧
      heap.contains (.list 0) = true ∧ heap.LeadsTo (.list 0) (.symbol 4) ∧
      heap.contains (.symbol 4) = false ∧
      Machine.eval Host.none (.list 0) { machine with heap } = .error .dangling := by
  have checked : ((Machine.new {}).toOption.bind Except.toOption).any (fun machine =>
      let result := machine.heap.cons (.symbol 4) .emptyList
      machine.heap.contains (.symbol 4) = false ∧ result.1 = .ok (.list 0) ∧
        result.2.cells[0]? = some ⟨.symbol 4, .emptyList⟩ ∧
        result.2.contains (.symbol 4) = false ∧
        (Machine.eval Host.none (.list 0) { machine with heap := result.2 }).map Prod.fst =
          .error .dangling) = true := by
    decide +kernel
  rcases created : Machine.new {} with fault | _ | machine <;> rw [created] at checked
  · cases checked
  · cases checked
  obtain ⟨before, consed, link, after, evaluated⟩ := of_decide_eq_true checked
  have contained := decide_eq_true (Array.getElem?_eq_some_iff.mp link).1
  exact ⟨machine, _, rfl, before, Prod.ext consed rfl, contained, .head .refl link, after,
    eq_error_of_map evaluated⟩

/-- A cell with the next free index as its tail becomes its own tail. It passes the screen too, and
the walk down its tails never ends. -/
theorem screen_passes_next_free_tail :
    ∃ machine heap, Machine.new {} = .ok (.ok machine) ∧
      machine.heap.contains (.list 0) = false ∧
      machine.heap.cons (.symbol 0) (.list 0) = (.ok (.list 0), heap) ∧
      heap.contains (.list 0) = true ∧ heap.elements (.list 0) = .error .endless ∧
      Machine.eval Host.none (.list 0) { machine with heap } = .error .endless := by
  have checked : ((Machine.new {}).toOption.bind Except.toOption).any (fun machine =>
      let result := machine.heap.cons (.symbol 0) (.list 0)
      machine.heap.contains (.list 0) = false ∧ result.1 = .ok (.list 0) ∧
        result.2.contains (.list 0) = true ∧ result.2.elements (.list 0) = .error .endless ∧
        (Machine.eval Host.none (.list 0) { machine with heap := result.2 }).map Prod.fst =
          .error .endless) = true := by
    decide +kernel
  rcases created : Machine.new {} with fault | _ | machine <;> rw [created] at checked
  · cases checked
  · cases checked
  obtain ⟨before, consed, contained, endless, evaluated⟩ := of_decide_eq_true checked
  exact ⟨machine, _, rfl, before, Prod.ext consed rfl, contained, endless,
    eq_error_of_map evaluated⟩

end Heap

end TaggedLisp
