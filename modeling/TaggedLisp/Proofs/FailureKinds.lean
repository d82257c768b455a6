import TaggedLisp.Proofs.Ceilings
import TaggedLisp.Proofs.QuoteLayers
import TaggedLisp.Proofs.Reader.Agreement

/-! Which failures belong to which phase. Reading fails on malformed text or for lack of room, and then
nothing was evaluated. Evaluation has failures of its own, and of those that it could report none is
about text, as forms of a source are made of proper lists and symbols only. What such a form can still
lack is a symbol to head it, and only then is it undefined. -/

set_option autoImplicit false

namespace TaggedLisp

open Evaluation

def ErrorKind.isOfReading : ErrorKind → Bool
  | .malformed | .symbolLimitExceeded | .outOfMemory => true
  | _ => false

def ErrorKind.isOfEvaluation : ErrorKind → Bool
  | .undefined | .outOfMemory | .emptyListAccess | .notAList | .unbound | .arityMismatch
  | .redefinition | .notCallable | .environmentFull => true
  | _ => false

/-- An error of evaluation that tells more than that a form is undefined. -/
def Error.isDefinite (error : Error) : Bool :=
  error.kind.isOfEvaluation && error.kind ≠ .undefined

/-! ## Reading -/

/-- Wherever the automaton is stuck, the text is malformed. -/
theorem Pushdown.kind_of_run {state : Pushdown} {tokens : List Token} {error : Error}
    (stuck : state.run tokens = .error error) : error.kind = .malformed := by
  induction tokens generalizing state with
  | nil =>
      simp only [run, finish] at stuck
      split at stuck <;> cases stuck <;> rfl
  | cons token tokens ih =>
      rw [run] at stuck
      split at stuck
      · exact ih stuck
      · next failed =>
        cases stuck
        unfold step at failed
        split at failed <;> cases failed <;> rfl

theorem Error.isOfReading_of_isLimit {error : Error} (limit : error.isLimit = true) :
    error.kind.isOfReading = true := by
  cases error with
  | outOfMemory | symbolLimitExceeded => rfl
  | _ => cases limit

theorem Heap.isOfReading_of_readForms {heap after : Heap} (keywords : heap.KeywordsNamed)
    {source : String} {error : Error} (unread : heap.readForms source = (.error error, after)) :
    error.kind.isOfReading = true := by
  rcases keywords.stuck_of_unread unread with limit | stuck
  · exact Error.isOfReading_of_isLimit limit
  · rw [Pushdown.kind_of_run stuck]
    rfl

theorem Token.utf8ByteSize_of_mem_ofSource {source : String} {token : Token}
    (member : token ∈ ofSource source) (kind : token.kind = .symbol) :
    1 ≤ token.text.utf8ByteSize ∧ token.text.utf8ByteSize ≤ 255 := by
  obtain ⟨notEmpty, short⟩ :=
    utf8ByteSize_of_isSymbolText (isSpelled_of_mem_ofSource member kind)
  refine ⟨Nat.pos_of_ne_zero fun none => ?_, short⟩
  simp [String.utf8ByteSize_eq_zero_iff.mp none] at notEmpty

/-! ## Forms that evaluation comes to -/

/-- An activity comes to evaluate a form in a machine: the form that it is given, the body of a
definition, or an argument after those before it had values. -/
inductive Reaches (host : Host) : Activity → Machine → Value → Machine → Prop where
  | self {machine form} : Reaches host (.task (.eval form)) machine form machine
  | body {machine cell symbol body inner inside} :
      machine.heap.isQuoted (.list cell) = .ok false →
      machine.heap.definition? (.list cell) = .ok (some (symbol, body)) →
      Reaches host (.task (.eval body)) machine inner inside →
      Reaches host (.task (.eval (.list cell))) machine inner inside
  | application {machine cell head tail forms inner inside} :
      machine.heap.isQuoted (.list cell) = .ok false →
      machine.heap.definition? (.list cell) = .ok none →
      machine.heap.cell cell = .ok ⟨.symbol head, tail⟩ →
      machine.heap.toList tail = .ok (.ok forms) →
      Reaches host (.arguments head [] forms) machine inner inside →
      Reaches host (.task (.eval (.list cell))) machine inner inside
  | argument {machine head evaluated form forms inner inside} :
      Reaches host (.task (.eval form)) machine inner inside →
      Reaches host (.arguments head evaluated (form :: forms)) machine inner inside
  | laterArgument {machine head evaluated form forms log value middle inner inside} :
      Performs host (.task (.eval form)) machine log (.ok value) middle →
      Reaches host (.arguments head (value :: evaluated) forms) middle inner inside →
      Reaches host (.arguments head evaluated (form :: forms)) machine inner inside

/-- The same for forms in order. -/
inductive ReachesEach (host : Host) : List Value → Machine → Value → Machine → Prop where
  | first {machine form forms inner inside} :
      Reaches host (.task (.eval form)) machine inner inside →
      ReachesEach host (form :: forms) machine inner inside
  | later {machine form forms log value middle inner inside} :
      Machine.Evaluates host machine form log (.ok value) middle →
      ReachesEach host forms middle inner inside →
      ReachesEach host (form :: forms) machine inner inside

/-- The value is a nonempty list whose head is no symbol. -/
def Heap.IsHeadless (heap : Heap) (value : Value) : Prop :=
  ∃ cell link, value = .list cell ∧ heap.cell cell = .ok link ∧ link.head.symbol? = none

/-- An error that evaluation may end with, if these are the forms that it comes to. -/
structure Error.Explained (error : Error) (reached : Value → Machine → Prop) : Prop where
  kind : error.kind.isOfEvaluation = true
  headless : error.kind = .undefined → ∃ inner inside, reached inner inside ∧
    inside.heap.IsHeadless inner

theorem Error.Explained.of_isDefinite {error : Error} {reached : Value → Machine → Prop}
    (definite : error.isDefinite = true) : error.Explained reached := by
  obtain ⟨kind, defined⟩ : error.kind.isOfEvaluation = true ∧ error.kind ≠ .undefined := by
    simpa [Error.isDefinite] using definite
  exact ⟨kind, fun undefined => absurd undefined defined⟩

theorem Error.Explained.imp {error : Error} {reached more : Value → Machine → Prop}
    (explained : error.Explained reached)
    (implies : ∀ inner inside, reached inner inside → more inner inside) :
    error.Explained more where
  kind := explained.kind
  headless undefined := by
    obtain ⟨inner, inside, came, headless⟩ := explained.headless undefined
    exact ⟨inner, inside, implies inner inside came, headless⟩

/-! ## Failures of the parts -/

section Parts

variable {error : Error}

theorem Environment.isDefinite_of_lookup {environment : Environment} {heap : Heap} {symbol : Nat}
    (failed : environment.lookup heap symbol = .ok (.error error)) : error.isDefinite = true := by
  rcases lookup_cases failed with ⟨value, -, same⟩ | ⟨name, -, -, same⟩
  · cases same
  · cases same
    rfl

theorem Environment.isDefinite_of_define {environment after : Environment} {heap : Heap}
    {symbol : Nat} {value : Value}
    (failed : environment.define heap symbol value = .ok (.error error, after)) :
    error.isDefinite = true := by
  obtain ⟨name, defines⟩ := defines_of_define failed
  cases defines with
  | bound | full => rfl

theorem Heap.isDefinite_of_listOf {heap after : Heap} {values : List Value}
    (failed : heap.listOf values = (.error error, after)) : error.isDefinite = true := by
  have lists := heap.listOf_lists values
  rw [failed] at lists
  cases lists with
  | full => rfl

theorem Heap.isDefinite_of_head {heap : Heap} {list : Value}
    (failed : heap.head list = .ok (.error error)) : error.isDefinite = true := by
  cases list with
  | list cell =>
      cases found : heap.cell cell <;> simp only [Heap.head, found] at failed <;> cases failed
  | _ =>
      cases failed
      rfl

theorem Heap.isDefinite_of_tail {heap : Heap} {list : Value}
    (failed : heap.tail list = .ok (.error error)) : error.isDefinite = true := by
  cases list with
  | list cell =>
      cases found : heap.cell cell <;> simp only [Heap.tail, found] at failed <;> cases failed
  | _ =>
      cases failed
      rfl

theorem Heap.isDefinite_of_toList {heap : Heap} {list : Value}
    (failed : heap.toList list = .ok (.error error)) : error.isDefinite = true := by
  cases isList : list.isList with
  | true =>
      cases found : heap.elements list <;>
        simp only [toList, isList, found, ↓reduceIte] at failed <;> cases failed
  | false =>
      rw [toList_of_not_isList isList] at failed
      cases failed
      rfl

theorem Heap.isDefinite_of_count {heap : Heap} {list : Value}
    (failed : heap.count list = .ok (.error error)) : error.isDefinite = true := by
  rw [count] at failed
  cases listed : heap.toList list with
  | error fault =>
      rw [listed] at failed
      cases failed
  | ok outcome =>
      rw [listed] at failed
      cases outcome with
      | ok => cases failed
      | error =>
          cases failed
          exact isDefinite_of_toList listed

theorem Routine.isDefinite_of_run {routine : Routine} (builtin : ∀ id, routine ≠ .host id)
    {host : Host} {recur : Task → Evaluation Value} {machine after : Machine} {arguments : Value}
    (failed : (routine.run host recur arguments).runIn machine = .ok (.error error, after)) :
    error.isDefinite = true := by
  obtain ⟨-, read⟩ := Routine.run_cases builtin failed
  rcases read with read | ⟨first, -, read | read⟩
  · exact Heap.isDefinite_of_head read
  · exact Heap.isDefinite_of_head read
  · exact Heap.isDefinite_of_tail read

end Parts

/-! ## Evaluation -/

/-- The forms that an activity is given are sourced. What it has evaluated already does not matter
for how it can fail. -/
def Activity.HasSourcedForms (heap : Heap) (parsed : Set Nat) : Activity → Prop
  | .task (.eval form) => heap.Sourced parsed form
  | .task (.apply ..) => True
  | .arguments _ _ forms => ∀ form ∈ forms, heap.Sourced parsed form
  | .operation _ | .script _ => False

theorem Performs.explained {host : Host} {activity : Activity} {machine after : Machine}
    {log : List Definition} {outcome : Except Error Value}
    (performs : Performs host activity machine log outcome after)
    (hostFree : machine.heap.HostFree) {parsed : Set Nat}
    (sourced : activity.HasSourcedForms machine.heap parsed) {error : Error}
    (failed : outcome = .error error) : error.Explained (Reaches host activity machine) := by
  induction performs with
  | emptyList => cases failed
  | symbol found =>
      subst failed
      exact .of_isDefinite (Environment.isDefinite_of_lookup found)
  | meaningless notList notSymbol =>
      cases sourced with
      | emptyList | list => cases notList
      | symbol => cases notSymbol
  | quoted isQuoted unquoted =>
      -- What is quoted can be unquoted, in whatever heap.
      obtain ⟨inner, spine⟩ := Heap.isQuoted_iff_spine.mp isQuoted
      subst failed
      cases unquoted.symm.trans (Heap.unquote_of_spine spine)
  | bodyFailed notQuoted read _ ih =>
      have inner := ih hostFree (Heap.Sourced.definition? sourced read).2 failed
      exact inner.imp fun _ _ => .body notQuoted read
  | definition _ _ _ defined =>
      subst failed
      exact .of_isDefinite (Environment.isDefinite_of_define defined)
  | @headless _ cell link _ _ found noSymbol =>
      cases failed
      exact ⟨rfl, fun _ => ⟨_, _, .self, cell, link, rfl, found, noSymbol⟩⟩
  | improper _ _ _ unlisted =>
      cases failed
      exact .of_isDefinite (Heap.isDefinite_of_toList unlisted)
  | application notQuoted read found listed _ ih =>
      have inner := ih hostFree (Heap.Sourced.arguments sourced found listed) failed
      exact inner.imp fun _ _ => .application notQuoted read found listed
  | argumentFailed _ ih =>
      have inner := ih hostFree (List.forall_mem_cons.mp sourced).1 failed
      exact inner.imp fun _ _ => .argument
  | argument first _ _ ih =>
      have free := hostFree.of_addsCells (first.addsCells rfl hostFree)
      have later := ih free
        (fun form member => ((List.forall_mem_cons.mp sourced).2 form member).grow first.growsTo)
        failed
      exact later.imp fun _ _ => .laterArgument first
  | noRoom built =>
      cases failed
      exact .of_isDefinite (Heap.isDefinite_of_listOf built)
  | unbound _ looked =>
      cases failed
      exact .of_isDefinite (Environment.isDefinite_of_lookup looked)
  | call built _ _ ih =>
      have free := hostFree.of_addsCells (Heap.addsCells_of_listOf built)
      exact (ih free trivial failed).imp fun _ _ reached => by cases reached
  | notAList _ uncounted =>
      cases failed
      exact .of_isDefinite (Heap.isDefinite_of_count uncounted)
  | notCallable | arityMismatch =>
      cases failed
      exact .of_isDefinite rfl
  | builtin _ _ builtin ran =>
      subst failed
      exact .of_isDefinite (Routine.isDefinite_of_run builtin ran)
  | routine found _ provided => exact absurd provided (hostFree.of_lambda found _)
  | direct | define | eval | apply | done | perform | examine => exact sourced.elim

namespace Machine

variable {host : Host} {machine after : Machine} {parsed : Set Nat} {error : Error}

theorem Evaluates.explained {form : Value} {log : List Definition}
    (evaluates : Evaluates host machine form log (.error error) after)
    (hostFree : machine.heap.HostFree) (sourced : machine.heap.Sourced parsed form) :
    error.Explained (Reaches host (.task (.eval form)) machine) := by
  cases evaluates with
  | foreign outside =>
      obtain ⟨tree, unfolds, -⟩ := sourced.exists_unfolds
      cases unfolds.contains.symm.trans outside
  | performed _ performs => exact performs.explained hostFree sourced rfl

theorem EvaluatesEach.explained {forms : List Value} {log : List Definition}
    {outcomes : List (Except Error Value)}
    (evaluates : EvaluatesEach host machine forms log outcomes after)
    (hostFree : machine.heap.HostFree) (sourced : ∀ form ∈ forms, machine.heap.Sourced parsed form)
    (failed : .error error ∈ outcomes) : error.Explained (ReachesEach host forms machine) := by
  induction evaluates with
  | done => cases failed
  | failed first =>
      cases List.mem_singleton.mp failed
      have explained := first.explained hostFree (List.forall_mem_cons.mp sourced).1
      exact explained.imp fun _ _ => .first
  | more first _ ih =>
      rcases List.mem_cons.mp failed with same | failed
      · cases same
      · have free := hostFree.of_addsCells (first.addsCells hostFree)
        have later := ih free
          (fun form member => ((List.forall_mem_cons.mp sourced).2 form member).grow first.growsTo)
          failed
        exact later.imp fun _ _ => .later first

end Machine

/-- After a run of sources, a source either cannot be read, and then it is malformed or there is no room
for it, and nothing is bound or recorded, or it is evaluated, and then its forms can fail in the ways of
evaluation only. All names in it have a length that can be interned. A form is undefined only if
evaluation comes to a nonempty list that no symbol heads. -/
theorem SourceRun.failure_kinds {host : Host} {settings : Settings} {machine : Machine}
    {parsed : Set Nat} {results : List Value} (run : SourceRun host settings machine parsed results)
    (source : String) :
    (∀ token ∈ Token.ofSource source, token.kind = .symbol →
      1 ≤ token.text.utf8ByteSize ∧ token.text.utf8ByteSize ≤ 255) ∧
    ∃ outcome after, machine.evalForms host source = .ok (outcome, after) ∧
      (∀ error, outcome = .error error → error.kind.isOfReading = true ∧
        after.environment = machine.environment ∧
        after.heap.lambdas = machine.heap.lambdas ∧ after.heap.errors = machine.heap.errors) ∧
      ∀ outcomes, outcome = .ok outcomes → ∃ forms heap,
        machine.heap.readForms source = (.ok forms, heap) ∧
        ∀ error, .error error ∈ outcomes → error.kind.isOfEvaluation = true ∧
          (error.kind = .undefined → ∃ inner inside,
            ReachesEach host forms { machine with heap } inner inside ∧
            inside.heap.IsHeadless inner) := by
  have sound := run.sound
  refine ⟨fun _ => Token.utf8ByteSize_of_mem_ofSource, ?_⟩
  obtain ⟨outcome, after, ran⟩ := sound.exists_evalForms host source
  have records : (machine.heap.readForms source).2.lambdas = machine.heap.lambdas ∧
      (machine.heap.readForms source).2.errors = machine.heap.errors :=
    (Reader.forms_reads (Reader.ofSource machine.heap source)).records_eq
  have hostFree := (sound.read source).hostFree
  refine ⟨outcome, after, ran, ?_, ?_⟩
  · rintro error rfl
    rcases Machine.evalForms_eq_ok_iff.mp ran with
      ⟨_, heap, unread, same, rfl⟩ | ⟨_, _, _, -, -, same⟩
    · cases same
      rw [unread] at records
      exact ⟨Heap.isOfReading_of_readForms sound.keywords unread, rfl, records⟩
    · cases same
  · rintro outcomes rfl
    rcases Machine.evalForms_eq_ok_iff.mp ran with
      ⟨_, _, -, same, -⟩ | ⟨forms, heap, _, read, each, same⟩
    · cases same
    · cases same
      rw [read] at hostFree
      refine ⟨forms, heap, read, fun error failed => ?_⟩
      obtain ⟨log, evaluates⟩ := Machine.exists_evaluatesEach each
      have explained := evaluates.explained hostFree (sound.keywords.sourced_of_readForms read) failed
      exact ⟨explained.kind, explained.headless⟩

/-- In `(head (()))` the argument is a list that the empty list heads. Behind `)` nothing is read. -/
theorem SourceRun.failure_kinds_of_headless_argument :
    ∃ machine after final forms heap inner inside,
      SourceRun Host.none { maxCells := 8 } machine ∅ [] ∧
      machine.evalForms Host.none "(head (()))" = .ok (.ok [.error .undefined], after) ∧
      machine.heap.readForms "(head (()))" = (.ok forms, heap) ∧
      ReachesEach Host.none forms { machine with heap } inner inside ∧
      inside.heap.IsHeadless inner ∧
      machine.evalForms Host.none ")" = .ok (.error (.malformed .unexpectedListEnd), final) ∧
      final.environment = machine.environment := by
  have checked : (Machine.new { maxCells := 8 }).toOption.any (fun created =>
      created.toOption.any fun machine =>
        ((machine.evalForms Host.none "(head (()))").toOption.any fun result =>
          result.1 = .ok [.error .undefined]) &&
        (machine.evalForms Host.none ")").toOption.any fun result =>
          result.1 = .error (.malformed .unexpectedListEnd)) = true := by
    decide +kernel
  obtain ⟨_, created, made⟩ := exists_ok_of_any checked
  obtain ⟨machine, rfl, answers⟩ := exists_ok_of_any made
  obtain ⟨evaluated, unread⟩ := Bool.and_eq_true_iff.mp answers
  obtain ⟨⟨_, after⟩, ran, same⟩ := exists_ok_of_any evaluated
  obtain rfl := of_decide_eq_true same
  obtain ⟨⟨_, final⟩, failed, same⟩ := exists_ok_of_any unread
  obtain rfl := of_decide_eq_true same
  have start : SourceRun Host.none { maxCells := 8 } machine ∅ [] := .new created
  obtain ⟨-, _, _, sameRan, -, evaluated⟩ := start.failure_kinds "(head (()))"
  obtain ⟨-, _, _, sameFailed, unevaluated, -⟩ := start.failure_kinds ")"
  cases ran.symm.trans sameRan
  cases failed.symm.trans sameFailed
  obtain ⟨forms, heap, read, explained⟩ := evaluated _ rfl
  obtain ⟨inner, inside, reaches, headless⟩ := (explained _ List.mem_cons_self).2 rfl
  exact ⟨machine, _, _, forms, heap, inner, inside, start, ran, read, reaches, headless, failed,
    (unevaluated _ rfl).2.1⟩

end TaggedLisp
