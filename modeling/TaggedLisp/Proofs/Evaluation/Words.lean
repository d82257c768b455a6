import TaggedLisp.Proofs.Evaluation.Sources
import TaggedLisp.Proofs.QuoteLayers
import TaggedLisp.Proofs.Reader.Effects
import TaggedLisp.Proofs.Word

/-! Every value fits in a word. Each store stops growing before its indices take up the bits of the
tags, although each asks for it in its own way, so a new value always fits. All other values that an
operation answers or stores were given to it or found in a cell or a binding. Nothing is assumed of
operands but that they are words: they may come from anywhere. -/

set_option autoImplicit false

namespace TaggedLisp

open Evaluation

/-! ## Heaps -/

namespace Heap

/-- Every index of an entry leaves room for the tags, and all values in cells fit. -/
structure HoldsWords (heap : Heap) : Prop where
  limits : heap.WithinLimits
  capacity_le : heap.symbols.capacity ≤ indexLimit
  maxCells_le : heap.maxCells ≤ indexLimit
  lambdas_size_le : heap.lambdas.size ≤ indexLimit + 1
  errors_size_le : heap.errors.size ≤ indexLimit + 1
  keywords : heap.KeywordsNamed
  links : ∀ {index : Nat} {link : Cell}, heap.cells[index]? = some link →
    link.head.Fits ∧ link.tail.Fits

/-- What an operation leaves and answers. -/
structure AnswersWord (outcome : Except Error Value) (after : Heap) : Prop where
  holds : after.HoldsWords
  fits : ∀ value, outcome = .ok value → value.Fits

variable {heap : Heap} {value head tail : Value}

theorem HoldsWords.fits (holds : heap.HoldsWords) (contained : heap.contains value = true) :
    value.Fits := by
  intro index same
  have symbols := holds.limits.symbols
  have cells := holds.limits.cells
  have capacity := holds.capacity_le
  have maxCells := holds.maxCells_le
  have lambdas := holds.lambdas_size_le
  have errors := holds.errors_size_le
  cases value <;> cases same <;> have inside := of_decide_eq_true contained <;> omega

theorem HoldsWords.keyword (holds : heap.HoldsWords) :
    (Value.symbol heap.keywords.definition).Fits ∧ (Value.symbol heap.keywords.quote).Fits :=
  ⟨holds.fits (decide_eq_true (SymbolTable.lt_size_of_name? holds.keywords.definition)),
    holds.fits (decide_eq_true (SymbolTable.lt_size_of_name? holds.keywords.quote))⟩

theorem HoldsWords.answers (holds : heap.HoldsWords) (fits : value.Fits) :
    AnswersWord (.ok value) heap :=
  ⟨holds, fun _ same => by cases same; exact fits⟩

theorem HoldsWords.answers_error (holds : heap.HoldsWords) (error : Error) :
    AnswersWord (.error error) heap :=
  ⟨holds, fun _ failed => by cases failed⟩

theorem holdsWords_new {settings : Settings} (created : Heap.new settings = .ok heap) :
    heap.HoldsWords := by
  have wellFormed := wellFormed_new created
  cases fresh_new created with
  | intro first second =>
      have capacity := second.growsTo.capacity.trans first.growsTo.capacity
      exact
        { limits := wellFormed.withinLimits
          capacity_le := capacity ▸ Nat.min_le_right _ _
          maxCells_le := Nat.min_le_right _ _
          lambdas_size_le := Nat.zero_le _
          errors_size_le := Nat.zero_le _
          keywords := wellFormed.keywords
          links := fun found => by simp at found }

/-! ### Allocation -/

theorem HoldsWords.intern (holds : heap.HoldsWords) {name : String} {outcome : Except Error Nat}
    {after : Heap} (interned : heap.intern name = (outcome, after)) :
    after.HoldsWords ∧ ∀ id, outcome = .ok id → (Value.symbol id).Fits := by
  have growth := heap.intern_growsTo name
  have table := heap.symbols.intern_interned name
  rw [interned] at growth
  unfold Heap.intern at interned
  generalize heap.symbols.intern name = result at interned table
  obtain ⟨found, symbols⟩ := result
  cases interned
  have after : HoldsWords { heap with symbols } :=
    { holds with
      limits := ⟨holds.limits.cells, table.size_le_capacity holds.limits.symbols⟩
      capacity_le := table.growsTo.capacity ▸ holds.capacity_le
      keywords := holds.keywords.grow growth }
  refine ⟨after, fun id same => ?_⟩
  cases same
  exact after.fits (decide_eq_true (SymbolTable.lt_size_of_name? table.name?))

theorem HoldsWords.symbol (holds : heap.HoldsWords) (name : String) :
    AnswersWord (heap.symbol name).1 (heap.symbol name).2 := by
  rw [Heap.symbol]
  generalize interned : heap.intern name = result
  obtain ⟨outcome, after⟩ := result
  obtain ⟨kept, fits⟩ := holds.intern interned
  cases outcome with
  | error error => exact kept.answers_error error
  | ok id => exact kept.answers (fits id rfl)

theorem HoldsWords.addLambda (holds : heap.HoldsWords) (lambda : Lambda) :
    AnswersWord (heap.addLambda lambda).1 (heap.addLambda lambda).2 := by
  have growth := heap.addLambda_growsTo lambda
  unfold Heap.addLambda at growth ⊢
  split
  · exact holds.answers_error _
  · next room =>
    rw [if_neg room] at growth
    have after : HoldsWords { heap with lambdas := heap.lambdas.push lambda } :=
      { holds with
        limits := ⟨holds.limits.cells, holds.limits.symbols⟩
        lambdas_size_le := by
          rw [Array.size_push]
          omega
        keywords := holds.keywords.grow growth }
    exact after.answers (after.fits (by simp [Heap.contains]))

theorem HoldsWords.addError (holds : heap.HoldsWords) (error : Error) :
    AnswersWord (.ok (heap.addError error).1) (heap.addError error).2 := by
  have growth := heap.addError_growsTo error
  unfold Heap.addError at growth ⊢
  split
  · exact holds.answers (holds.fits rfl)
  · exact holds.answers (holds.fits rfl)
  · split
    · next room =>
      have after : HoldsWords { heap with errors := heap.errors.push error } :=
        { holds with
          limits := ⟨holds.limits.cells, holds.limits.symbols⟩
          errors_size_le := by
            rw [Array.size_push]
            omega
          keywords := by simpa only [if_pos room] using holds.keywords.grow growth }
      exact after.answers (after.fits (by simp [Heap.contains]))
    · exact holds.answers (holds.fits rfl)

theorem HoldsWords.cons (holds : heap.HoldsWords) (headFits : head.Fits) (tailFits : tail.Fits) :
    AnswersWord (heap.cons head tail).1 (heap.cons head tail).2 := by
  have growth := heap.cons_growsTo head tail
  have consed := heap.cons_conses head tail
  generalize heap.cons head tail = result at growth consed ⊢
  cases consed with
  | refused | full => exact holds.answers_error _
  | added _ room =>
      have after : HoldsWords { heap with cells := heap.cells.push ⟨head, tail⟩ } :=
        { holds with
          limits := ⟨(Array.size_push _).trans_le room, holds.limits.symbols⟩
          keywords := holds.keywords.grow growth
          links := fun found => by
            rw [Array.getElem?_push] at found
            split at found
            · cases found
              exact ⟨headFits, tailFits⟩
            · exact holds.links found }
      exact after.answers (after.fits (by simp [Heap.contains]))

theorem HoldsWords.listOf (holds : heap.HoldsWords) {values : List Value}
    (fits : ∀ value ∈ values, value.Fits) :
    AnswersWord (heap.listOf values).1 (heap.listOf values).2 := by
  induction values with
  | nil => exact holds.answers (holds.fits rfl)
  | cons value values ih =>
      obtain ⟨first, others⟩ := List.forall_mem_cons.mp fits
      have rest := ih others
      rw [listOf_cons]
      split
      · next tail middle built =>
        rw [built] at rest
        exact rest.holds.cons first (rest.fits tail rfl)
      · next error middle built =>
        rw [built] at rest
        exact rest.holds.answers_error error

theorem HoldsWords.quote (holds : heap.HoldsWords) (fits : value.Fits) :
    AnswersWord (heap.quote value).1 (heap.quote value).2 :=
  holds.listOf (List.forall_mem_cons.mpr ⟨holds.keyword.2, List.forall_mem_singleton.mpr fits⟩)

end Heap

theorem Reader.Reads.answersWord {goal : Goal} {heap : Heap} {depth : Nat} {tokens : List Token}
    {outcome : Except Error Value} {after : Reader}
    (reads : Reads goal heap depth tokens outcome after) (holds : heap.HoldsWords)
    (readSoFar : ∀ elements, goal = .elements elements → ∀ element ∈ elements, element.Fits) :
    Heap.AnswersWord outcome after.heap := by
  induction reads with
  | symbol => exact holds.symbol _
  | unexpectedEnd | invalid | quoteAtEnd | quoteBeforeListEnd | unterminated =>
      exact holds.answers_error _
  | list _ _ ih => exact ih holds fun _ same => by cases same; simp
  | quoteFailed _ _ _ ih | elementFailed _ _ ih => exact ih holds fun _ other => by cases other
  | quote _ _ _ ih =>
      have inner := ih holds fun _ other => by cases other
      exact inner.holds.quote (inner.fits _ rfl)
  | close =>
      exact holds.listOf fun value member => readSoFar _ rfl value (List.mem_reverse.mp member)
  | element _ _ _ firstIH othersIH =>
      have first := firstIH holds fun _ other => by cases other
      refine othersIH first.holds fun elements same => ?_
      cases same
      exact List.forall_mem_cons.mpr ⟨first.fits _ rfl, readSoFar _ rfl⟩

theorem Reader.ReadsForms.holdsWords {heap : Heap} {depth : Nat} {tokens : List Token}
    {outcome : Except Error (List Value)} {after : Reader}
    (reads : ReadsForms heap depth tokens outcome after) (holds : heap.HoldsWords) :
    after.heap.HoldsWords ∧ ∀ forms, outcome = .ok forms → ∀ form ∈ forms, form.Fits := by
  induction reads with
  | done => exact ⟨holds, fun _ same => by cases same; simp⟩
  | failed first =>
      exact ⟨(first.answersWord holds fun _ other => by cases other).holds,
        fun _ other => by cases other⟩
  | @more _ _ _ _ _ _ outcome _ first _ ih =>
      have first := first.answersWord holds fun _ other => by cases other
      obtain ⟨after, fits⟩ := ih first.holds
      refine ⟨after, fun forms same => ?_⟩
      cases outcome with
      | error => cases same
      | ok later =>
          cases same
          exact List.forall_mem_cons.mpr ⟨first.fits _ rfl, fits later rfl⟩

namespace Heap

variable {heap : Heap} {value : Value}

theorem HoldsWords.readForms (holds : heap.HoldsWords) (source : String) :
    (heap.readForms source).2.HoldsWords ∧
      ∀ forms, (heap.readForms source).1 = .ok forms → ∀ form ∈ forms, form.Fits :=
  (Reader.forms_reads (Reader.ofSource heap source)).holdsWords holds

theorem HoldsWords.parse (holds : heap.HoldsWords) (source : String) :
    AnswersWord (heap.parse source).1 (heap.parse source).2 := by
  obtain ⟨middle, fits⟩ := holds.readForms source
  unfold Heap.parse
  split
  · next forms after read =>
    rw [read] at middle fits
    exact middle.listOf (fits forms rfl)
  · next error after read =>
    rw [read] at middle
    exact middle.answers_error error

/-! ### Taking apart -/

theorem HoldsWords.head (holds : heap.HoldsWords) {element : Value}
    (read : heap.head value = .ok (.ok element)) : element.Fits := by
  cases value with
  | list cell =>
      cases found : heap.cells[cell]? with
      | none =>
          simp only [Heap.head, Heap.cell, found] at read
          cases read
      | some link =>
          rw [Heap.head, cell_of_some found] at read
          cases read
          exact (holds.links found).1
  | _ => cases read

theorem HoldsWords.tail (holds : heap.HoldsWords) {rest : Value}
    (read : heap.tail value = .ok (.ok rest)) : rest.Fits := by
  cases value with
  | list cell =>
      cases found : heap.cells[cell]? with
      | none =>
          simp only [Heap.tail, Heap.cell, found] at read
          cases read
      | some link =>
          rw [Heap.tail, cell_of_some found] at read
          cases read
          exact (holds.links found).2
  | _ => cases read

theorem HoldsWords.spine (holds : heap.HoldsWords) {elements : List Value}
    (spine : heap.Spine value elements) : ∀ element ∈ elements, element.Fits := by
  induction spine with
  | stop => simp
  | link found _ ih => exact List.forall_mem_cons.mpr ⟨(holds.links found).1, ih⟩

theorem HoldsWords.unquote (holds : heap.HoldsWords) {inner : Value}
    (unquoted : heap.unquote value = .ok (.ok inner)) : inner.Fits :=
  holds.spine (unquote_eq_ok_iff.mp unquoted) inner (by simp)

theorem HoldsWords.reverse (holds : heap.HoldsWords) {outcome : Except Error Value} {after : Heap}
    (reversed : heap.reverse value = .ok (outcome, after)) : AnswersWord outcome after := by
  obtain ⟨found, listed, reversed⟩ := exists_of_bind_eq_ok reversed
  cases found with
  | error error =>
      cases reversed
      exact holds.answers_error error
  | ok elements =>
      have fits := holds.spine (toList_eq_ok_iff.mp listed).2
      have reversedFits : ∀ element ∈ elements.reverse, element.Fits := by
        intro element member
        exact fits element (List.mem_reverse.mp member)
      have built := holds.listOf reversedFits
      rwa [Except.ok.inj reversed] at built

end Heap

/-! ## Machines -/

structure Machine.HoldsWords (machine : Machine) : Prop where
  heap : machine.heap.HoldsWords
  bindings : ∀ symbol value, machine.environment.find? symbol = some value → value.Fits

structure Machine.AnswersWord (outcome : Except Error Value) (after : Machine) : Prop where
  holds : after.HoldsWords
  fits : ∀ value, outcome = .ok value → value.Fits

namespace Machine

variable {machine : Machine} {heap : Heap} {symbol : Nat} {value : Value}
  {outcome : Except Error Value}

theorem HoldsWords.answers (holds : machine.HoldsWords) (fits : value.Fits) :
    AnswersWord (.ok value) machine :=
  ⟨holds, fun _ same => by cases same; exact fits⟩

theorem HoldsWords.answers_error (holds : machine.HoldsWords) (error : Error) :
    AnswersWord (.error error) machine :=
  ⟨holds, fun _ failed => by cases failed⟩

theorem HoldsWords.with_heap (holds : machine.HoldsWords) (answers : Heap.AnswersWord outcome heap) :
    AnswersWord outcome { machine with heap } :=
  ⟨⟨answers.holds, holds.bindings⟩, answers.fits⟩

theorem HoldsWords.lookup (holds : machine.HoldsWords)
    (found : machine.environment.lookup heap symbol = .ok outcome) :
    AnswersWord outcome machine := by
  rcases Environment.lookup_cases found with ⟨value, bound, rfl⟩ | ⟨name, -, -, rfl⟩
  · exact holds.answers (holds.bindings _ _ bound)
  · exact holds.answers_error _

theorem HoldsWords.define (holds : machine.HoldsWords) (symbolFits : (Value.symbol symbol).Fits)
    (fits : value.Fits) {environment : Environment}
    (defined : machine.environment.define heap symbol value = .ok (outcome, environment)) :
    AnswersWord outcome { machine with environment } := by
  obtain ⟨name, defines⟩ := Environment.defines_of_define defined
  cases defines with
  | bound | full => exact holds.answers_error _
  | added =>
      refine HoldsWords.answers ⟨holds.heap, fun other bound found => ?_⟩ symbolFits
      rw [Environment.find?_bind] at found
      split at found
      · cases found
        exact fits
      · exact holds.bindings other bound found

end Machine

/-! ## What is handed to operations -/

/-- The values among the operands. Symbols and lambdas are given by their numbers. -/
def Operation.operands : Operation → List Value
  | .symbol _ | .addError _ | .addLambda _ | .parse _ => []
  | .cons element list => [element, list]
  | .listOf elements => elements
  | .head list | .tail list | .reverse list => [list]
  | .quote value | .unquote value => [value]
  | .define id value => [Value.symbol id, value]
  | .lookup id => [Value.symbol id]
  | .eval form => [form]
  | .apply record list => [Value.lambda record, list]

/-- The script hands on only values that fit, as long as it is given no others. -/
inductive Script.HandsWords : Script → Prop where
  | done {outcome : Except Error Value} : (∀ value, outcome = .ok value → value.Fits) →
      HandsWords (.done outcome)
  | perform {operation : Operation} {next : Except Error Value → Script} :
      (∀ operand ∈ operation.operands, operand.Fits) →
      (∀ outcome : Except Error Value, (∀ value, outcome = .ok value → value.Fits) →
        HandsWords (next outcome)) →
      HandsWords (.perform operation next)
  | examine {next : Heap → Environment → Script} :
      (∀ heap environment, Machine.HoldsWords ⟨heap, environment⟩ →
        HandsWords (next heap environment)) →
      HandsWords (.examine next)

def Host.HandsWords (host : Host) : Prop :=
  ∀ id arguments, arguments.Fits → (host.routine id arguments).HandsWords

def Activity.GivenWords : Activity → Prop
  | .task (.eval _) => True
  | .task (.apply _ list) => list.Fits
  | .arguments _ evaluated _ => ∀ value ∈ evaluated, value.Fits
  | .operation performed => ∀ operand ∈ performed.operands, operand.Fits
  | .script steps => steps.HandsWords

/-! ## Evaluation -/

section Evaluating

variable {host : Host} {machine after : Machine} {log : List Definition}
  {outcome : Except Error Value}

theorem Machine.HoldsWords.direct (holds : machine.HoldsWords) {operation : Operation}
    (direct : operation.isDirect = true) (given : ∀ operand ∈ operation.operands, operand.Fits)
    (ran : (operation.run noTask).runIn machine = .ok (outcome, after)) :
    AnswersWord outcome after := by
  have allocates : ∀ {build : Heap → Except Error Value × Heap},
      Heap.AnswersWord (build machine.heap).1 (build machine.heap).2 →
      (Evaluation.allocate build).runIn machine = .ok (outcome, after) →
      AnswersWord outcome after := by
    intro build answers ran
    obtain ⟨rfl, rfl⟩ := runIn_allocate ran
    exact holds.with_heap answers
  have reads : ∀ {read : Machine → Checked (Except Error Value)},
      (∀ value, read machine = .ok (.ok value) → value.Fits) →
      (Evaluation.consult read).runIn machine = .ok (outcome, after) →
      AnswersWord outcome after := by
    intro read fits ran
    obtain ⟨found, rfl⟩ := runIn_consult ran
    exact ⟨holds, fun value same => fits value (same ▸ found)⟩
  unfold Operation.run at ran
  cases operation with
  | symbol name => exact allocates (holds.heap.symbol name) ran
  | cons element list =>
      obtain ⟨elementFits, listFits⟩ := List.forall_mem_cons.mp given
      exact allocates (holds.heap.cons elementFits (List.forall_mem_singleton.mp listFits)) ran
  | listOf elements => exact allocates (holds.heap.listOf given) ran
  | quote value => exact allocates (holds.heap.quote (List.forall_mem_singleton.mp given)) ran
  | addError error => exact allocates (holds.heap.addError error) ran
  | addLambda lambda => exact allocates (holds.heap.addLambda lambda) ran
  | parse source => exact allocates (holds.heap.parse source) ran
  | head => exact reads (fun _ => holds.heap.head) ran
  | tail => exact reads (fun _ => holds.heap.tail) ran
  | unquote => exact reads (fun _ => holds.heap.unquote) ran
  | lookup symbol =>
      obtain ⟨found, rfl⟩ := runIn_consult ran
      exact holds.lookup found
  | reverse list =>
      rw [runIn_ofFunction] at ran
      obtain ⟨⟨outcome, heap⟩, reversed, ran⟩ := exists_of_bind_eq_ok ran
      cases ran
      exact holds.with_heap (holds.heap.reverse reversed)
  | define | eval | apply => cases direct

theorem Machine.HoldsWords.routine (holds : machine.HoldsWords) {routine : Routine}
    (builtin : ∀ id, routine ≠ .host id) {recur : Task → Evaluation Value} {arguments : Value}
    (ran : (routine.run host recur arguments).runIn machine = .ok (outcome, after)) :
    AnswersWord outcome after := by
  obtain ⟨rfl, read⟩ := Routine.run_cases builtin ran
  refine ⟨holds, fun value answered => ?_⟩
  subst answered
  rcases read with read | ⟨first, -, read | read⟩
  · exact holds.heap.head read
  · exact holds.heap.head read
  · exact holds.heap.tail read

theorem Machine.HoldsWords.gathered (holds : machine.HoldsWords) {evaluated : List Value}
    (fits : ∀ value ∈ evaluated, value.Fits) {heap : Heap}
    (listed : machine.heap.listOf evaluated.reverse = (outcome, heap)) :
    AnswersWord outcome { machine with heap } := by
  have reversedFits : ∀ value ∈ evaluated.reverse, value.Fits := by
    intro value member
    exact fits value (List.mem_reverse.mp member)
  have built := holds.heap.listOf reversedFits
  rw [listed] at built
  exact holds.with_heap built

theorem Performs.answersWord {activity : Activity}
    (performs : Performs host activity machine log outcome after) (hands : host.HandsWords)
    (given : activity.GivenWords) (holds : machine.HoldsWords) :
    Machine.AnswersWord outcome after := by
  induction performs with
  | emptyList => exact holds.answers (holds.heap.fits rfl)
  | symbol found => exact holds.lookup found
  | meaningless | headless | improper | notAList | arityMismatch => exact holds.answers_error _
  | quoted _ unquoted => exact ⟨holds, fun value same => holds.heap.unquote (same ▸ unquoted)⟩
  | bodyFailed _ _ _ ih => exact ih trivial holds
  | application _ _ _ _ _ ih => exact ih (by simp [Activity.GivenWords]) holds
  | definition _ read _ defined ih =>
      have body := ih trivial holds
      have fits := holds.heap.spine (Heap.definition?_eq_some_iff.mp read)
      exact body.holds.define (fits _ (by simp)) (body.fits _ rfl) defined
  | argumentFailed _ ih => exact ih trivial holds
  | argument _ _ firstIH othersIH =>
      have first := firstIH trivial holds
      exact othersIH (List.forall_mem_cons.mpr ⟨first.fits _ rfl, given⟩) first.holds
  | noRoom listed => exact holds.gathered given listed
  | unbound listed | notCallable listed =>
      exact (holds.gathered given listed).holds.answers_error _
  | call listed _ _ ih =>
      have gathered := holds.gathered given listed
      exact ih (gathered.fits _ rfl) gathered.holds
  | builtin _ _ language ran => exact holds.routine language ran
  | routine _ _ _ _ ih => exact ih (hands _ _ given) holds
  | direct direct ran => exact holds.direct direct given ran
  | define defined =>
      obtain ⟨symbolFits, valueFits⟩ := List.forall_mem_cons.mp given
      exact holds.define symbolFits (List.forall_mem_singleton.mp valueFits) defined
  | eval _ ih => exact ih trivial holds
  | apply _ ih =>
      have argumentsFit := (List.forall_mem_cons.mp given).2
      exact ih (argumentsFit _ List.mem_cons_self) holds
  | done =>
      cases given with
      | done fits => exact ⟨holds, fits⟩
  | perform _ _ firstIH nextIH =>
      cases given with
      | perform operands next =>
          have first := firstIH operands holds
          exact nextIH (next _ first.fits) first.holds
  | examine _ ih =>
      cases given with
      | examine next => exact ih (next _ _ holds) holds

end Evaluating

/-! ## Sources -/

namespace Machine

variable {host : Host} {machine after : Machine} {log : List Definition}

theorem Evaluates.answersWord {form : Value} {outcome : Except Error Value}
    (evaluates : Evaluates host machine form log outcome after) (hands : host.HandsWords)
    (holds : machine.HoldsWords) : AnswersWord outcome after := by
  cases evaluates with
  | foreign => exact holds.answers_error _
  | performed _ performs => exact performs.answersWord hands trivial holds

theorem EvaluatesEach.holdsWords {forms : List Value} {outcomes : List (Except Error Value)}
    (evaluates : EvaluatesEach host machine forms log outcomes after) (hands : host.HandsWords)
    (holds : machine.HoldsWords) :
    after.HoldsWords ∧ ∀ value, .ok value ∈ outcomes → value.Fits := by
  induction evaluates with
  | done => exact ⟨holds, by simp⟩
  | failed first => exact ⟨(first.answersWord hands holds).holds, by simp⟩
  | more first _ ih =>
      have first := first.answersWord hands holds
      obtain ⟨others, fits⟩ := ih first.holds
      refine ⟨others, fun value member => ?_⟩
      rcases List.mem_cons.mp member with same | later
      · exact first.fits value same.symm
      · exact fits value later

theorem EvaluatesForms.holdsWords {source : String}
    {outcome : Except Error (List (Except Error Value))}
    (evaluates : EvaluatesForms host source machine log outcome after) (hands : host.HandsWords)
    (holds : machine.HoldsWords) :
    after.HoldsWords ∧ ∀ outcomes, outcome = .ok outcomes →
      ∀ value, .ok value ∈ outcomes → value.Fits := by
  have read := (holds.heap.readForms source).1
  cases evaluates with
  | unreadable unread =>
      rw [unread] at read
      exact ⟨⟨read, holds.bindings⟩, fun _ other => by cases other⟩
  | evaluated forms each =>
      rw [forms] at read
      obtain ⟨evaluated, fits⟩ := each.holdsWords hands ⟨read, holds.bindings⟩
      exact ⟨evaluated, fun _ same => by cases same; exact fits⟩

theorem reify_holdsWords {heap : Heap} (holds : heap.HoldsWords)
    {outcomes : List (Except Error Value)} (fits : ∀ value, .ok value ∈ outcomes → value.Fits) :
    (reify heap outcomes).2.HoldsWords ∧ ∀ value ∈ (reify heap outcomes).1, value.Fits := by
  induction outcomes generalizing heap with
  | nil => exact ⟨holds, by simp [reify]⟩
  | cons outcome outcomes ih =>
      have later : ∀ value, .ok value ∈ outcomes → value.Fits := fun value member =>
        fits value (List.mem_cons_of_mem _ member)
      cases outcome with
      | ok value =>
          obtain ⟨after, others⟩ := ih holds later
          exact ⟨after, List.forall_mem_cons.mpr ⟨fits value List.mem_cons_self, others⟩⟩
      | error error =>
          have added := holds.addError error
          obtain ⟨after, others⟩ := ih added.holds later
          exact ⟨after, List.forall_mem_cons.mpr ⟨added.fits _ rfl, others⟩⟩

theorem EvaluatesSource.answersWord {source : String} {outcome : Except Error Value}
    (evaluates : EvaluatesSource host source machine log outcome after) (hands : host.HandsWords)
    (holds : machine.HoldsWords) : AnswersWord outcome after := by
  cases evaluates with
  | unreadable forms => exact (forms.holdsWords hands holds).1.answers_error _
  | listed forms reified built =>
      obtain ⟨evaluated, fits⟩ := forms.holdsWords hands holds
      obtain ⟨added, each⟩ := reify_holdsWords evaluated.heap (fits _ rfl)
      rw [reified] at added each
      have list := added.listOf each
      rw [built] at list
      exact ⟨⟨list.holds, evaluated.bindings⟩, list.fits⟩

end Machine

namespace Environment

theorem Seeds.holdsWords {lambdas : List Lambda} {machine after : Machine} {log : List Definition}
    {outcome : Except Error Unit} (seeds : Seeds lambdas machine log outcome after)
    (holds : machine.HoldsWords) : after.HoldsWords := by
  have recorded : ∀ {heap : Heap} {lambda : Lambda} {added : Except Error Value} {after : Heap},
      heap.HoldsWords → heap.addLambda lambda = (added, after) →
      Heap.AnswersWord added after := by
    intro heap lambda added after holds same
    have answers := holds.addLambda lambda
    rwa [same] at answers
  induction seeds with
  | done => exact holds
  | unnamed interned => exact ⟨(holds.heap.intern interned).1, holds.bindings⟩
  | unrecorded interned added =>
      exact ⟨(recorded (holds.heap.intern interned).1 added).holds, holds.bindings⟩
  | refused interned added defined =>
      obtain ⟨middle, symbolFits⟩ := holds.heap.intern interned
      have record := recorded middle added
      have machine : Machine.HoldsWords ⟨_, _⟩ := ⟨record.holds, holds.bindings⟩
      exact (machine.define (symbolFits _ rfl) (record.fits _ rfl) defined).holds
  | bound interned added defined _ ih =>
      obtain ⟨middle, symbolFits⟩ := holds.heap.intern interned
      have record := recorded middle added
      have machine : Machine.HoldsWords ⟨_, _⟩ := ⟨record.holds, holds.bindings⟩
      exact ih (machine.define (symbolFits _ rfl) (record.fits _ rfl) defined).holds

theorem Makes.holdsWords {heap after : Heap} {settings : Settings} {log : List Definition}
    {outcome : Except Error Environment} (makes : Makes heap settings log outcome after)
    (holds : heap.HoldsWords) :
    after.HoldsWords ∧ ∀ environment, outcome = .ok environment →
      ∀ symbol value, environment.find? symbol = some value → value.Fits := by
  have fresh : Machine.HoldsWords ⟨heap, .empty settings.environmentCapacity⟩ :=
    ⟨holds, fun _ _ found => by simp at found⟩
  have keyword := holds.keyword.1
  cases makes with
  | refused => exact ⟨holds, fun _ other => by cases other⟩
  | @seeded _ _ _ outcome _ defined seeds =>
      have seeded := seeds.holdsWords (fresh.define keyword keyword defined).holds
      refine ⟨seeded.heap, fun environment same => ?_⟩
      cases outcome with
      | error => cases same
      | ok =>
          cases same
          exact seeded.bindings

end Environment

end TaggedLisp
