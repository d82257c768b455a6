import TaggedLisp.Proofs.Evaluation.Language
import TaggedLisp.Proofs.Evaluation.Lockstep

/-! Machines with more room. The ceilings of the settings are looked at in three places only: where a
name is added, where a cell is added and where a symbol is bound. Each of them fails if its ceiling is
hit, so as long as there is no such failure, a machine with more room and the same contents does the
same, step for step, from its construction on. -/

set_option autoImplicit false

namespace TaggedLisp

/-- Whether an error says that one of the ceilings was hit. -/
def Error.isCeiling : Error → Bool
  | .outOfMemory | .symbolLimitExceeded _ | .environmentFull _ => true
  | _ => false

/-- An outcome that does not say so. -/
def IsUnhindered {α : Type} (outcome : Except Error α) : Prop :=
  ∀ error, outcome = .error error → ¬ error.isCeiling = true

theorem isUnhindered_ok {α : Type} (result : α) : IsUnhindered (.ok result) :=
  fun _ failed => by cases failed

theorem IsUnhindered.of_error {α β : Type} {error : Error}
    (unhindered : IsUnhindered (.error error : Except Error α)) :
    IsUnhindered (.error error : Except Error β) := by
  rintro _ ⟨⟩
  exact unhindered error rfl

theorem isUnhindered_map_iff {α β : Type} {outcome : Except Error α} {change : α → β} :
    IsUnhindered (outcome.map change) ↔ IsUnhindered outcome := by
  cases outcome <;> simp [IsUnhindered, Except.map]

/-! ## More room for the same contents -/

structure SymbolTable.Roomier (table other : SymbolTable) : Prop where
  names : other.names = table.names
  capacity : table.capacity ≤ other.capacity

structure Heap.Roomier (heap other : Heap) : Prop where
  symbols : heap.symbols.Roomier other.symbols
  cells : other.cells = heap.cells
  lambdas : other.lambdas = heap.lambdas
  errors : other.errors = heap.errors
  keywords : other.keywords = heap.keywords
  maxCells : heap.maxCells ≤ other.maxCells

structure Environment.Roomier (environment other : Environment) : Prop where
  table : other.table = environment.table
  capacity : environment.capacity ≤ other.capacity

structure Machine.Roomier (machine other : Machine) : Prop where
  heap : machine.heap.Roomier other.heap
  environment : machine.environment.Roomier other.environment

namespace SymbolTable.Roomier

variable {table other : SymbolTable}

theorem size (roomier : table.Roomier other) : other.size = table.size :=
  congrArg Array.size roomier.names

theorem find? (roomier : table.Roomier other) (name : String) :
    other.find? name = table.find? name := by
  refine Option.ext fun id => ?_
  rw [← name?_eq_some_iff_find?, ← name?_eq_some_iff_find?, name?, name?, roomier.names]

theorem empty {capacity larger : Nat} (enough : capacity ≤ larger) :
    (SymbolTable.empty capacity).Roomier (SymbolTable.empty larger) :=
  ⟨rfl, Nat.le_min_of_le_of_le (Nat.le_trans (Nat.min_le_left ..) enough) (Nat.min_le_right ..)⟩

theorem intern (roomier : table.Roomier other) (name : String)
    (unhindered : IsUnhindered (table.intern name).1) :
    (other.intern name).1 = (table.intern name).1 ∧
      (table.intern name).2.Roomier (other.intern name).2 := by
  cases valid : isName name with
  | false =>
      rw [intern_of_not_isName table valid, intern_of_not_isName other valid]
      exact ⟨rfl, roomier⟩
  | true =>
      have goodLength : ¬ (name.isEmpty = true ∨ maxSymbolLength < name.utf8ByteSize) := by
        rw [← isName_eq_false_iff, valid]
        exact Bool.noConfusion
      have first := table.intern_interned name
      have second := other.intern_interned name
      generalize table.intern name = result at first unhindered ⊢
      generalize other.intern name = otherResult at second ⊢
      cases first with
      | refused badLength => exact absurd badLength goodLength
      | full => exact absurd rfl (unhindered _ rfl)
      | present found =>
          rw [← roomier.find?] at found
          cases second with
          | refused badLength => exact absurd badLength goodLength
          | present otherFound =>
              cases found.symm.trans otherFound
              exact ⟨rfl, roomier⟩
          | full absent | added absent => cases found.symm.trans absent
      | added absent room =>
          rw [← roomier.find?] at absent
          cases second with
          | refused badLength => exact absurd badLength goodLength
          | present found => cases absent.symm.trans found
          | full _ noRoom =>
              have size := roomier.size
              have capacity := roomier.capacity
              omega
          | added =>
              refine ⟨by rw [roomier.size], ?_, roomier.capacity⟩
              simp only [push, roomier.names]

theorem intern_of_ok (roomier : table.Roomier other) {name : String} {id : Nat}
    {after : SymbolTable} (interned : table.intern name = (.ok id, after)) :
    ∃ final, other.intern name = (.ok id, final) ∧ after.Roomier final := by
  have keepsUp := roomier.intern name
  rw [interned] at keepsUp
  obtain ⟨same, later⟩ := keepsUp (isUnhindered_ok id)
  exact ⟨(other.intern name).2, Prod.ext same rfl, later⟩

end SymbolTable.Roomier

/-! ## Heaps -/

namespace Heap

/-- Unless the first result hits a ceiling, the second is the same, with more room left. -/
def KeepsUp {α : Type} (first second : Except Error α × Heap) : Prop :=
  IsUnhindered first.1 → second.1 = first.1 ∧ first.2.Roomier second.2

theorem KeepsUp.exists_eq {α : Type} {first second : Except Error α × Heap}
    (keepsUp : KeepsUp first second) {outcome : Except Error α} {after : Heap}
    (result : first = (outcome, after)) (unhindered : IsUnhindered outcome) :
    ∃ final, second = (outcome, final) ∧ after.Roomier final := by
  subst result
  obtain ⟨same, later⟩ := keepsUp unhindered
  exact ⟨second.2, Prod.ext same rfl, later⟩

namespace Roomier

variable {heap other : Heap} (roomier : heap.Roomier other)

include roomier

theorem readsLike : heap.ReadsLike other :=
  ⟨roomier.cells, roomier.lambdas, roomier.keywords, roomier.symbols.names⟩

theorem stats : other.stats = heap.stats := by
  simp only [Heap.stats, roomier.symbols.size, roomier.cells, roomier.lambdas, roomier.errors]

theorem contains (value : Value) : other.contains value = heap.contains value := by
  cases value <;>
    simp only [Heap.contains, roomier.symbols.size, roomier.cells, roomier.lambdas, roomier.errors]

theorem intern (name : String) : KeepsUp (heap.intern name) (other.intern name) := by
  intro unhindered
  obtain ⟨same, symbols⟩ := roomier.symbols.intern name unhindered
  exact ⟨same, { roomier with symbols }⟩

theorem symbol (name : String) : KeepsUp (heap.symbol name) (other.symbol name) := by
  intro unhindered
  obtain ⟨same, after⟩ := roomier.intern name (isUnhindered_map_iff.mp unhindered)
  refine ⟨?_, after⟩
  simp only [Heap.symbol, same]

theorem cons (head tail : Value) : KeepsUp (heap.cons head tail) (other.cons head tail) := by
  intro unhindered
  have conses := heap.cons_conses head tail
  generalize heap.cons head tail = result at conses unhindered ⊢
  cases conses with
  | refused notList =>
      simp only [Heap.cons, notList, Bool.not_false, ↓reduceIte, roomier, and_self]
  | full => exact absurd rfl (unhindered _ rfl)
  | added isList room =>
      have more : ¬ other.maxCells ≤ heap.cells.size :=
        Nat.not_le_of_lt (Nat.lt_of_lt_of_le room roomier.maxCells)
      simp only [Heap.cons, isList, roomier.cells, more, Bool.not_true, Bool.false_eq_true,
        ↓reduceIte, true_and]
      exact { roomier with cells := rfl }

theorem listOf (values : List Value) : KeepsUp (heap.listOf values) (other.listOf values) := by
  induction values with
  | nil => exact fun _ => ⟨rfl, roomier⟩
  | cons value values ih =>
      rw [listOf_cons, listOf_cons]
      unfold KeepsUp at ih
      generalize heap.listOf values = result at ih ⊢
      generalize other.listOf values = otherResult at ih ⊢
      obtain ⟨outcome, after⟩ := result
      obtain ⟨otherOutcome, otherAfter⟩ := otherResult
      cases outcome with
      | error error =>
          intro unhindered
          obtain ⟨rfl, later⟩ := ih unhindered
          exact ⟨rfl, later⟩
      | ok tail =>
          obtain ⟨rfl, later⟩ := ih (isUnhindered_ok tail)
          exact later.cons value tail

theorem quote (value : Value) : KeepsUp (heap.quote value) (other.quote value) := by
  rw [Heap.quote, Heap.quote, roomier.keywords]
  exact roomier.listOf _

theorem addLambda (lambda : Lambda) :
    KeepsUp (heap.addLambda lambda) (other.addLambda lambda) := by
  intro unhindered
  unfold Heap.addLambda at unhindered ⊢
  rw [roomier.lambdas]
  by_cases full : indexLimit < heap.lambdas.size
  · rw [if_pos full] at unhindered
    exact absurd rfl (unhindered _ rfl)
  · rw [if_neg full, if_neg full]
    exact ⟨rfl, { roomier with lambdas := rfl }⟩

theorem addError (error : Error) :
    (other.addError error).1 = (heap.addError error).1 ∧
      (heap.addError error).2.Roomier (other.addError error).2 := by
  by_cases room : heap.errors.size ≤ indexLimit
  · have pushed : Roomier { heap with errors := heap.errors.push error }
        { other with errors := heap.errors.push error } :=
      { roomier with errors := rfl }
    cases error <;> simp [Heap.addError, roomier.errors, room, roomier, pushed]
  · cases error <;> simp [Heap.addError, roomier.errors, room, roomier]

theorem reify (outcomes : List (Except Error Value)) :
    (Machine.reify other outcomes).1 = (Machine.reify heap outcomes).1 ∧
      (Machine.reify heap outcomes).2.Roomier (Machine.reify other outcomes).2 := by
  induction outcomes generalizing heap other with
  | nil => exact ⟨rfl, roomier⟩
  | cons outcome outcomes ih =>
      cases outcome with
      | ok value =>
          obtain ⟨same, after⟩ := ih roomier
          exact ⟨congrArg (value :: ·) same, after⟩
      | error error =>
          obtain ⟨sameValue, added⟩ := roomier.addError error
          obtain ⟨same, after⟩ := ih added
          exact ⟨congrArg₂ List.cons sameValue same, after⟩

end Roomier

end Heap

/-! ## Environments -/

namespace Environment.Roomier

variable {environment other : Environment} (roomier : environment.Roomier other)

include roomier

theorem find? (symbol : Nat) : other.find? symbol = environment.find? symbol := by
  simp only [Environment.find?, roomier.table]

theorem define {heap otherHeap : Heap} (alike : heap.ReadsLike otherHeap) {symbol : Nat}
    {value : Value} {outcome : Except Error Value} {after : Environment}
    (defined : environment.define heap symbol value = .ok (outcome, after))
    (unhindered : IsUnhindered outcome) :
    ∃ final, other.define otherHeap symbol value = .ok (outcome, final) ∧ after.Roomier final := by
  unfold Environment.define isBound at defined ⊢
  rw [roomier.find?, alike.name]
  split at defined
  · next bound =>
    rw [if_pos bound]
    obtain ⟨name, named, defined⟩ := exists_of_bind_eq_ok defined
    cases defined
    exact ⟨other, by rw [named]; rfl, roomier⟩
  · next free =>
    rw [if_neg free]
    split at defined
    · cases defined
      exact absurd rfl (unhindered _ rfl)
    · next room =>
      have more : ¬ other.capacity ≤ other.size := by
        have capacity := roomier.capacity
        simp only [Environment.size, roomier.table] at room ⊢
        omega
      cases defined
      rw [if_neg more]
      exact ⟨_, rfl, by rw [roomier.table], roomier.capacity⟩

end Environment.Roomier

/-! ## Reading -/

namespace Reader

/-- Two readers that have come equally far with the same result, the second with more room left. -/
structure Alongside {α : Type} (outcome : Except Error α) (after : Reader)
    (otherOutcome : Except Error α) (final : Reader) : Prop where
  outcome : otherOutcome = outcome
  tokens : final.tokens = after.tokens
  depth : final.depth = after.depth
  heap : after.heap.Roomier final.heap

theorem Reads.alongside {goal : Goal} {heap other : Heap} {depth : Nat} {tokens : List Token}
    {outcome otherOutcome : Except Error Value} {after final : Reader}
    (reads : Reads goal heap depth tokens outcome after) (unhindered : IsUnhindered outcome)
    (roomier : heap.Roomier other)
    (otherReads : Reads goal other depth tokens otherOutcome final) :
    Alongside outcome after otherOutcome final := by
  induction reads generalizing other otherOutcome final with
  | symbol kind =>
      obtain ⟨rfl, rfl⟩ := otherReads.of_symbol kind
      obtain ⟨same, later⟩ := roomier.symbol _ unhindered
      exact ⟨same, rfl, rfl, later⟩
  | unexpectedEnd | invalid | quoteAtEnd | quoteBeforeListEnd | unterminated =>
      -- The tokens alone decide these cases, so the heap is left as it was in both readings.
      cases otherReads <;> first
        | exact ⟨rfl, rfl, rfl, roomier⟩
        | simp_all
  | list kind _ ih => exact ih unhindered roomier (otherReads.of_listStart kind)
  | quoteFailed kind opens _ ih =>
      rcases otherReads.of_quote kind opens with ⟨error, rfl, inner⟩ | ⟨value, middle, inner, -⟩
      · exact ih unhindered roomier inner
      · cases (ih unhindered roomier inner).outcome
  | quote kind opens _ ih =>
      rcases otherReads.of_quote kind opens with ⟨error, -, inner⟩ | ⟨value, middle, inner, rest⟩
      · cases (ih (isUnhindered_ok _) roomier inner).outcome
      · obtain ⟨same, tokens, depth, heap⟩ := ih (isUnhindered_ok _) roomier inner
        cases same
        obtain ⟨rfl, rfl⟩ := rest
        obtain ⟨same, later⟩ := heap.quote _ unhindered
        exact ⟨same, tokens, depth, later⟩
  | close kind =>
      obtain ⟨rfl, rfl⟩ := otherReads.of_listEnd kind
      obtain ⟨same, later⟩ := roomier.listOf _ unhindered
      exact ⟨same, rfl, rfl, later⟩
  | elementFailed opens _ ih =>
      rcases otherReads.of_ne_listEnd opens with ⟨error, rfl, first⟩ | ⟨value, middle, first, -⟩
      · exact ih unhindered roomier first
      · cases (ih unhindered roomier first).outcome
  | element opens _ _ firstIH othersIH =>
      rcases otherReads.of_ne_listEnd opens with ⟨error, -, first⟩ | ⟨value, middle, first, others⟩
      · cases (firstIH (isUnhindered_ok _) roomier first).outcome
      · obtain ⟨same, tokens, depth, heap⟩ := firstIH (isUnhindered_ok _) roomier first
        cases same
        rw [tokens, depth] at others
        exact othersIH unhindered heap others

theorem ReadsForms.alongside {heap other : Heap} {depth : Nat} {tokens : List Token}
    {outcome otherOutcome : Except Error (List Value)} {after final : Reader}
    (reads : ReadsForms heap depth tokens outcome after) (unhindered : IsUnhindered outcome)
    (roomier : heap.Roomier other)
    (otherReads : ReadsForms other depth tokens otherOutcome final) :
    Alongside outcome after otherOutcome final := by
  induction reads generalizing other otherOutcome final with
  | done =>
      cases otherReads with
      | done => exact ⟨rfl, rfl, rfl, roomier⟩
  | failed first =>
      cases otherReads with
      | failed otherFirst =>
          obtain ⟨same, tokens, depth, heap⟩ :=
            first.alongside unhindered.of_error roomier otherFirst
          cases same
          exact ⟨rfl, tokens, depth, heap⟩
      | more otherFirst =>
          cases (first.alongside unhindered.of_error roomier otherFirst).outcome
  | more first _ ih =>
      cases otherReads with
      | failed otherFirst =>
          cases (first.alongside (isUnhindered_ok _) roomier otherFirst).outcome
      | more otherFirst others =>
          obtain ⟨same, tokens, depth, heap⟩ :=
            first.alongside (isUnhindered_ok _) roomier otherFirst
          cases same
          rw [tokens, depth] at others
          obtain ⟨rfl, tokens, depth, heap⟩ :=
            ih (isUnhindered_map_iff.mp unhindered) heap others
          exact ⟨rfl, tokens, depth, heap⟩

end Reader

theorem Heap.Roomier.readForms {heap other : Heap} (roomier : heap.Roomier other)
    (source : String) : KeepsUp (heap.readForms source) (other.readForms source) := by
  intro unhindered
  have reads := Reader.forms_reads (Reader.ofSource heap source)
  have otherReads := Reader.forms_reads (Reader.ofSource other source)
  obtain ⟨same, -, -, later⟩ := reads.alongside unhindered roomier otherReads
  exact ⟨same, later⟩

/-! ## Evaluation -/

section Steps

open Evaluation

variable {machine other : Machine}

theorem inStep_allocate {α : Type} (roomier : machine.Roomier other)
    {build : Heap → Except Error α × Heap}
    (keepsUp : Heap.KeepsUp (build machine.heap) (build other.heap)) :
    InStep Machine.Roomier (·.isCeiling = true) machine other (allocate build) (allocate build) := by
  intro outcome after ran unhindered
  cases ran
  obtain ⟨same, heap⟩ := keepsUp unhindered
  exact ⟨{ other with heap := (build other.heap).2 }, by rw [← same]; rfl, heap,
    roomier.environment⟩

theorem inStep_define (roomier : machine.Roomier other) (symbol : Nat) (value : Value) :
    InStep Machine.Roomier (·.isCeiling = true) machine other (define symbol value)
      (define symbol value) := by
  intro outcome after ran unhindered
  obtain ⟨environment, defined, rfl⟩ := runIn_define ran
  obtain ⟨final, otherDefined, later⟩ :=
    roomier.environment.define roomier.heap.readsLike defined unhindered
  refine ⟨{ other with environment := final }, ?_, roomier.heap, later⟩
  rw [define, runIn_ofFunction, otherDefined]
  rfl

/-- The routines of the language only read, so lists and bindings are all that needs room. -/
theorem lockstep_roomier (host : Host) :
    Lockstep host (fun machine other => machine.Roomier other ∧ machine.heap.HostFree)
      (·.isCeiling = true) where
  heap holds := holds.1.heap.readsLike
  bindings holds symbol := holds.1.environment.find? symbol
  listOf := by
    rintro machine other ⟨roomier, hostFree⟩ values outcome after ran unhindered
    obtain ⟨final, otherRan, later⟩ :=
      inStep_allocate roomier (roomier.heap.listOf values) outcome after ran unhindered
    cases ran
    exact ⟨final, otherRan, later, hostFree.of_addsCells (Heap.listOf_addsCells _ _)⟩
  define := by
    rintro machine other ⟨roomier, hostFree⟩ symbol value outcome after ran unhindered
    obtain ⟨final, otherRan, later⟩ :=
      inStep_define roomier symbol value outcome after ran unhindered
    obtain ⟨environment, -, rfl⟩ := runIn_define ran
    exact ⟨final, otherRan, later, hostFree⟩
  routine := by
    rintro first second tasks machine other record id contents ⟨-, hostFree⟩ found provided
    exact absurd provided (hostFree record contents found id)

end Steps

namespace Machine.Roomier

variable {host : Host} {machine other after : Machine} (roomier : machine.Roomier other)
  (hostFree : machine.heap.HostFree)

include roomier hostFree

theorem eval {form : Value} {outcome : Except Error Value}
    (ran : machine.eval host form = .ok (outcome, after)) (unhindered : IsUnhindered outcome) :
    ∃ final, other.eval host form = .ok (outcome, final) ∧ after.Roomier final ∧
      after.heap.HostFree := by
  unfold Machine.eval at ran ⊢
  rw [roomier.heap.contains]
  split at ran
  · next contained =>
    have budget : machine.budget ≤ other.budget :=
      Nat.add_le_add_right roomier.heap.maxCells hostNesting
    rw [if_pos contained]
    exact (lockstep_roomier host).run budget (.eval form) machine other ⟨roomier, hostFree⟩
      outcome after ran unhindered
  · next foreign =>
    cases ran
    rw [if_neg foreign]
    exact ⟨other, rfl, roomier, hostFree⟩

theorem evalEach {forms : List Value} {outcomes : List (Except Error Value)}
    (ran : machine.evalEach host forms = .ok (outcomes, after))
    (unhindered : ∀ outcome ∈ outcomes, IsUnhindered outcome) :
    ∃ final, other.evalEach host forms = .ok (outcomes, final) ∧ after.Roomier final := by
  induction forms generalizing machine other outcomes with
  | nil =>
      cases ran
      exact ⟨other, rfl, roomier⟩
  | cons form forms ih =>
      rcases evalEach_cons_eq_ok_iff.mp ran with
        ⟨error, first, rfl⟩ | ⟨value, middle, later, first, others, rfl⟩
      · obtain ⟨final, otherFirst, roomier, -⟩ :=
          roomier.eval hostFree first (unhindered _ List.mem_cons_self)
        exact ⟨final, evalEach_cons_eq_ok_iff.mpr (.inl ⟨error, otherFirst, rfl⟩), roomier⟩
      · obtain ⟨otherMiddle, otherFirst, roomier, hostFree⟩ :=
          roomier.eval hostFree first (isUnhindered_ok value)
        obtain ⟨final, otherOthers, roomier⟩ :=
          ih roomier hostFree others fun outcome member =>
            unhindered outcome (List.mem_cons_of_mem _ member)
        exact ⟨final, evalEach_cons_eq_ok_iff.mpr
          (.inr ⟨value, otherMiddle, later, otherFirst, otherOthers, rfl⟩), roomier⟩

theorem evalForms {source : String} {outcome : Except Error (List (Except Error Value))}
    (ran : machine.evalForms host source = .ok (outcome, after)) (unhindered : IsUnhindered outcome)
    (unhinderedEach : ∀ outcomes, outcome = .ok outcomes →
      ∀ result ∈ outcomes, IsUnhindered result) :
    ∃ final, other.evalForms host source = .ok (outcome, final) ∧ after.Roomier final := by
  have keepsUp := roomier.heap.readForms source
  have lambdas : (machine.heap.readForms source).2.lambdas = machine.heap.lambdas :=
    (Reader.forms_reads (Reader.ofSource machine.heap source)).records_eq.1
  rcases evalForms_eq_ok_iff.mp ran with
    ⟨error, heap, unread, rfl, rfl⟩ | ⟨forms, heap, outcomes, read, each, rfl⟩
  · obtain ⟨otherHeap, otherUnread, later⟩ := keepsUp.exists_eq unread unhindered.of_error
    exact ⟨_, evalForms_eq_ok_iff.mpr (.inl ⟨error, otherHeap, otherUnread, rfl, rfl⟩), later,
      roomier.environment⟩
  · obtain ⟨otherHeap, otherRead, later⟩ := keepsUp.exists_eq read (isUnhindered_ok forms)
    have readRoomier : Machine.Roomier { machine with heap } { other with heap := otherHeap } :=
      ⟨later, roomier.environment⟩
    rw [read] at lambdas
    obtain ⟨final, otherEach, later⟩ :=
      readRoomier.evalEach (hostFree.of_lambdas lambdas) each (unhinderedEach _ rfl)
    exact ⟨final, evalForms_of_readForms otherRead otherEach, later⟩

end Machine.Roomier

/-! ## Construction -/

section Construction

open Evaluation

variable {machine other : Machine} {lower upper : Settings}

theorem inStep_seed (builtins : upper.listBuiltins = lower.listBuiltins)
    (roomier : machine.Roomier other) :
    InStep Machine.Roomier (·.isCeiling = true) machine other (Environment.seed lower)
      (Environment.seed upper) := by
  unfold Environment.seed
  have reserved : Lambda.reserved upper = Lambda.reserved lower := by
    rw [Lambda.reserved, Lambda.reserved, builtins]
  rw [reserved]
  refine inStep_examine_bind (congrArg _ roomier.heap.keywords) fun keywords _ => ?_
  refine (inStep_define roomier _ _).bind fun _ _ _ roomier => ?_
  refine InStep.forM roomier fun lambda machine other roomier => ?_
  refine (inStep_allocate roomier (roomier.heap.intern _)).bind fun symbol _ _ roomier => ?_
  refine (inStep_allocate roomier (roomier.heap.addLambda lambda)).bind fun value _ _ roomier => ?_
  exact (inStep_define roomier symbol value).bind fun _ _ _ roomier => inStep_pure roomier ()

theorem Heap.Roomier.new {heap : Heap} (symbols : lower.maxSymbols ≤ upper.maxSymbols)
    (cells : lower.maxCells ≤ upper.maxCells) (created : Heap.new lower = .ok heap) :
    ∃ other, Heap.new upper = .ok other ∧ heap.Roomier other := by
  have start := SymbolTable.Roomier.empty symbols
  unfold Heap.new at created ⊢
  split at created
  · cases created
  · next definition _ interned =>
    obtain ⟨_, otherInterned, roomier⟩ := start.intern_of_ok interned
    split at created
    · cases created
    · next quote _ interned =>
      cases created
      obtain ⟨_, otherNext, roomier⟩ := roomier.intern_of_ok interned
      simp only [otherInterned, otherNext]
      refine ⟨_, rfl, roomier, rfl, rfl, rfl, rfl, ?_⟩
      exact Nat.le_min_of_le_of_le (Nat.le_trans (Nat.min_le_left ..) cells) (Nat.min_le_right ..)

theorem Machine.Roomier.new (builtins : upper.listBuiltins = lower.listBuiltins)
    (symbols : lower.maxSymbols ≤ upper.maxSymbols) (cells : lower.maxCells ≤ upper.maxCells)
    (capacity : lower.environmentCapacity ≤ upper.environmentCapacity)
    (created : Machine.new lower = .ok (.ok machine)) :
    ∃ other, Machine.new upper = .ok (.ok other) ∧ machine.Roomier other := by
  unfold Machine.new at created ⊢
  cases fresh : Heap.new lower with
  | error error =>
      rw [fresh] at created
      cases created
  | ok heap =>
      obtain ⟨otherHeap, otherFresh, roomier⟩ := Heap.Roomier.new symbols cells fresh
      rw [otherFresh]
      simp only [fresh, Environment.new] at created ⊢
      have start : Machine.Roomier ⟨heap, .empty lower.environmentCapacity⟩
          ⟨otherHeap, .empty upper.environmentCapacity⟩ := ⟨roomier, rfl, capacity⟩
      cases seeded : (Environment.seed lower).runIn ⟨heap, .empty lower.environmentCapacity⟩ with
      | error fault =>
          rw [seeded] at created
          cases created
      | ok result =>
          obtain ⟨outcome, after⟩ := result
          rw [seeded] at created
          cases outcome with
          | error error => cases created
          | ok =>
              cases created
              obtain ⟨final, otherSeeded, later⟩ :=
                inStep_seed builtins start _ _ seeded (isUnhindered_ok ())
              refine ⟨final, ?_, later⟩
              rw [otherSeeded]
              rfl

end Construction

end TaggedLisp
