import TaggedLisp.Proofs.Evaluation.Rationed
import TaggedLisp.Proofs.Reader.Planting
import TaggedLisp.Proofs.Reader.RoundTrip

/-! How many cells a source and a form use is written in them. Reading uses a cell for each element of a
list, two for a quote mark and one for each top-level form. Evaluating uses a cell for each argument
of an application, wherever it stands outside of quotes; what is bound does not matter. A heap with
less room fills up, and one with as much room never does. -/

set_option autoImplicit false

namespace TaggedLisp

/-! ## Reading -/

mutual

/-- The cells of a form of these tokens: the sum, over all its lists, of the number of their elements,
and two for each quote mark. -/
inductive Measures : List Token → Nat → Prop where
  | symbol {token : Token} : token.kind = .symbol → Measures [token] 0
  | list {opening closing : Token} {tokens : List Token} {count total : Nat} :
      opening.kind = .listStart → MeasuresEach tokens count total → closing.kind = .listEnd →
      Measures (opening :: (tokens ++ [closing])) (count + total)
  | quote {mark : Token} {tokens : List Token} {total : Nat} :
      mark.kind = .quote → Measures tokens total → Measures (mark :: tokens) (2 + total)

/-- The number of some forms of these tokens, and the sum of their cells. -/
inductive MeasuresEach : List Token → Nat → Nat → Prop where
  | nil : MeasuresEach [] 0 0
  | cons {front back : List Token} {cells count total : Nat} :
      Measures front cells → MeasuresEach back count total →
      MeasuresEach (front ++ back) (count + 1) (cells + total)

end

mutual

theorem Spells.measures {tokens : List Token} {tree : Tree} (spells : Spells tokens tree) :
    Measures tokens tree.cellCount := by
  cases spells with
  | symbol kind =>
      rw [Tree.cellCount_symbol]
      exact .symbol kind
  | list opens each closes =>
      rw [Tree.cellCount_list, Tree.cellCountEach_eq, Nat.add_comm]
      exact .list opens each.measuresEach closes
  | quote marks inner =>
      rw [Tree.cellCount_quoted, Nat.add_comm]
      exact .quote marks inner.measures

theorem SpellsEach.measuresEach {tokens : List Token} {trees : List Tree}
    (spells : SpellsEach tokens trees) :
    MeasuresEach tokens trees.length (Tree.cellSum trees) := by
  cases spells with
  | nil => exact .nil
  | cons first others => exact .cons first.measures others.measuresEach

end

mutual

theorem Measures.exists_spells {tokens : List Token} {total : Nat} (measures : Measures tokens total) :
    ∃ tree, Spells tokens tree ∧ tree.cellCount = total := by
  match measures with
  | .symbol kind => exact ⟨_, .symbol kind, Tree.cellCount_symbol _⟩
  | .list opens each closes =>
      obtain ⟨trees, spells, length, sum⟩ := each.exists_spellsEach
      refine ⟨_, .list opens spells closes, ?_⟩
      rw [Tree.cellCount_list, Tree.cellCountEach_eq, length, sum, Nat.add_comm]
  | .quote marks inner =>
      obtain ⟨tree, spells, cells⟩ := inner.exists_spells
      refine ⟨_, .quote marks spells, ?_⟩
      rw [Tree.cellCount_quoted, cells, Nat.add_comm]

theorem MeasuresEach.exists_spellsEach {tokens : List Token} {count total : Nat}
    (measures : MeasuresEach tokens count total) :
    ∃ trees, SpellsEach tokens trees ∧ trees.length = count ∧ Tree.cellSum trees = total := by
  match measures with
  | .nil => exact ⟨[], .nil, rfl, rfl⟩
  | .cons first others =>
      obtain ⟨tree, spells, cells⟩ := first.exists_spells
      obtain ⟨trees, spellsEach, length, sum⟩ := others.exists_spellsEach
      refine ⟨tree :: trees, .cons spells spellsEach, congrArg (· + 1) length, ?_⟩
      rw [Tree.cellSum_cons, cells, sum]

end

namespace Heap

/-- What building in so many new cells can come to, in a heap that keeps to its limit: a result in
exactly these cells, a heap without room, or no room for a symbol. -/
inductive Fills {α : Type} (heap : Heap) (cells : Nat) (fits : α → Prop) :
    Except Error α × Heap → Prop where
  | built {result : α} {after : Heap} : fits result → after.maxCells = heap.maxCells →
      after.cells.size = heap.cells.size + cells → after.cells.size ≤ heap.maxCells →
      Fills heap cells fits (.ok result, after)
  | full {after : Heap} : heap.maxCells < heap.cells.size + cells →
      after.cells.size = heap.maxCells → Fills heap cells fits (.error .outOfMemory, after)
  | nameless {limit : Nat} {after : Heap} :
      Fills heap cells fits (.error (.symbolLimitExceeded limit), after)

theorem fills_symbol (heap : Heap) (bounded : heap.cells.size ≤ heap.maxCells) {name : String}
    (isSymbol : Token.isSymbolText name.toList = true) :
    heap.Fills 0 (fun _ => True) (heap.symbol name) := by
  have length := Token.utf8ByteSize_of_isSymbolText isSymbol
  have interned := heap.symbols.intern_interned name
  simp only [symbol, Heap.intern]
  generalize heap.symbols.intern name = result at interned ⊢
  cases interned with
  | refused badLength =>
      rcases badLength with empty | tooLong
      · rw [length.1] at empty
        cases empty
      · exact absurd tooLong (Nat.not_lt_of_le length.2)
  | full => exact .nameless
  | present | added => exact .built trivial rfl rfl bounded

theorem fills_listOf (heap : Heap) (bounded : heap.cells.size ≤ heap.maxCells)
    (values : List Value) : heap.Fills values.length (fun _ => True) (heap.listOf values) := by
  have lists := heap.listOf_lists values
  generalize heap.listOf values = result at lists ⊢
  cases lists with
  | built _ size room =>
      refine .built trivial rfl size ?_
      rcases room with rfl | room
      · simpa [size] using bounded
      · exact size ▸ room
  | full noRoom filled keeps => exact .full noRoom (Nat.le_antisymm (keeps bounded) filled)

theorem Fills.bundled {heap : Heap} {cells count : Nat} {built : Except Error (List Value) × Heap}
    (fills : heap.Fills cells (fun values => values.length = count) built) :
    heap.Fills (cells + count) (fun _ => True) (bundled [] built) := by
  cases fills with
  | @built values middle length maxCells size bounded =>
      have fills := middle.fills_listOf (maxCells ▸ bounded) values
      rw [Heap.bundled, List.nil_append]
      generalize middle.listOf values = result at fills ⊢
      cases fills with
      | built _ sameMax finalSize finalBounded =>
          exact .built trivial (sameMax.trans maxCells) (by omega) (maxCells ▸ finalBounded)
      | full noRoom finalSize => exact .full (by omega) (maxCells ▸ finalSize)
      | nameless => exact .nameless
  | full noRoom size => exact .full (by omega) size
  | nameless => exact .nameless

mutual

theorem fills_plant (heap : Heap) (bounded : heap.cells.size ≤ heap.maxCells) (tree : Tree)
    (readable : tree.isReadable = true) :
    heap.Fills tree.cellCount (fun _ => True) (heap.plant tree) := by
  cases tree with
  | symbol name =>
      rw [plant_symbol, Tree.cellCount_symbol]
      exact heap.fills_symbol bounded readable
  | list trees =>
      rw [plant_list, Tree.cellCount_list, Tree.cellCountEach_eq]
      exact (fills_plantEach heap bounded trees readable).bundled
  | _ => cases readable

theorem fills_plantEach (heap : Heap) (bounded : heap.cells.size ≤ heap.maxCells)
    (trees : List Tree) (readable : Tree.isReadableEach trees = true) :
    heap.Fills (Tree.cellSum trees) (fun values => values.length = trees.length)
      (heap.plantEach trees) := by
  cases trees with
  | nil =>
      rw [plantEach_nil]
      exact .built rfl rfl rfl bounded
  | cons tree trees =>
      rw [Tree.isReadableEach, Bool.and_eq_true] at readable
      have first := fills_plant heap bounded tree readable.1
      rw [Tree.cellSum_cons]
      generalize planted : heap.plant tree = result at first
      cases first with
      | @built value middle _ maxCells size middleBounded =>
          have others := fills_plantEach middle (maxCells ▸ middleBounded) trees readable.2
          rw [plantEach_cons_of_ok planted]
          generalize middle.plantEach trees = built at others ⊢
          cases others with
          | built length sameMax finalSize finalBounded =>
              refine .built (congrArg (· + 1) length) (sameMax.trans maxCells) ?_
                (maxCells ▸ finalBounded)
              dsimp only
              omega
          | full noRoom finalSize => exact .full (by omega) (maxCells ▸ finalSize)
          | nameless => exact .nameless
      | full noRoom size =>
          rw [plantEach_cons_of_error planted]
          exact .full (by omega) size
      | nameless =>
          rw [plantEach_cons_of_error planted]
          exact .nameless

end

/-- What is read from a source fills as many cells as its tokens measure, and the heap if there are
fewer. -/
theorem KeywordsNamed.fills_parse {heap : Heap} (keywords : heap.KeywordsNamed)
    (bounded : heap.cells.size ≤ heap.maxCells) {source : String} {count total : Nat}
    (measures : MeasuresEach (Token.ofSource source) count total) :
    heap.Fills (total + count) (fun _ => True) (heap.parse source) := by
  obtain ⟨trees, spells, rfl, rfl⟩ := measures.exists_spellsEach
  have readable := spells.isReadableEach fun _ => Token.isSpelled_of_mem_ofSource
  rw [keywords.parse_eq_plant spells, plant_list]
  exact (fills_plantEach heap bounded trees readable).bundled

end Heap

/-! ## Evaluating -/

namespace Tree

mutual

/-- The cells for evaluating a form, if it has a value: one for each argument of every application that
is not quoted. -/
def expense : Tree → Nat
  | .list [.symbol "quote", _] => 0
  | .list [.symbol "def", .symbol _, body] => body.expense
  | .list (.symbol _ :: arguments) => arguments.length + expenseEach arguments
  | _ => 0

def expenseEach : List Tree → Nat
  | [] => 0
  | form :: forms => form.expense + expenseEach forms

end

end Tree

namespace Allotment

/-- A step takes no more cells than this, exactly as many if it succeeds, and runs out of them only if
there are fewer. -/
structure Spends {α : Type} (cells : Nat) (allotment : Allotment)
    (result : Except Error α × Allotment) : Prop where
  bounded : allotment.cells ≤ result.2.cells + cells
  exact : ∀ value, result.1 = .ok value → allotment.cells = result.2.cells + cells
  short : result.1 = .error .outOfMemory → allotment.cells < cells

variable {allotment : Allotment}

theorem spends_nothing {α : Type} {outcome : Except Error α} (inMemory : outcome ≠ .error .outOfMemory)
    {after : Allotment} (same : after.cells = allotment.cells) :
    Spends 0 allotment (outcome, after) :=
  ⟨Nat.le_of_eq same.symm, fun _ _ => same.symm, fun short => absurd short inMemory⟩

theorem Spends.andThen {α β : Type} {cells more : Nat} {first : Except Error α × Allotment}
    {next : α → Allotment → Except Error β × Allotment} (spends : Spends cells allotment first)
    (rest : ∀ value after, first = (.ok value, after) → Spends more after (next value after)) :
    Spends (cells + more) allotment (Allotment.andThen first next) := by
  obtain ⟨outcome, after⟩ := first
  obtain ⟨bounded, exact, short⟩ := spends
  simp only at bounded exact short
  cases outcome with
  | error error =>
      refine ⟨?_, fun _ failed => (by cases failed), fun same => ?_⟩
      · exact Nat.le_trans bounded (Nat.add_le_add_left (Nat.le_add_right _ _) _)
      · exact Nat.lt_add_right more (short (by cases same; rfl))
  | ok value =>
      obtain ⟨laterBounded, laterExact, laterShort⟩ := rest value after rfl
      have spent := exact value rfl
      simp only [Allotment.andThen]
      refine ⟨by omega, fun result same => ?_, fun same => ?_⟩
      · have := laterExact result same
        omega
      · have := laterShort same
        omega

theorem exists_of_andThen_eq_ok {α β : Type} {first : Except Error α × Allotment}
    {next : α → Allotment → Except Error β × Allotment} {result : β} {after : Allotment}
    (succeeded : Allotment.andThen first next = (.ok result, after)) :
    ∃ value middle, first = (.ok value, middle) ∧ next value middle = (.ok result, after) := by
  obtain ⟨outcome, middle⟩ := first
  cases outcome with
  | error => cases succeeded
  | ok value => exact ⟨value, middle, rfl, succeeded⟩

theorem lookup_ne_outOfMemory (bindings : Bindings) (name : String) :
    bindings.lookup name ≠ .error .outOfMemory := by
  unfold Bindings.lookup
  split <;> simp

theorem spends_define (name : String) (tree : Tree) :
    Spends 0 allotment (allotment.define name tree) := by
  refine spends_nothing ?_ rfl
  rcases allotment.bindings.define_cases name tree with ⟨error, refused, inMemory⟩ | bound
  · rw [refused]
    simpa using inMemory
  · rw [bound]
    simp

end Allotment

namespace Tree

theorem head_ne_outOfMemory (tree : Tree) : tree.head ≠ .error .outOfMemory := by
  unfold Tree.head
  split <;> simp

theorem tail_ne_outOfMemory (tree : Tree) : tree.tail ≠ .error .outOfMemory := by
  unfold Tree.tail
  split <;> simp

private theorem bind_ne_outOfMemory {first : Except Error Tree} {next : Tree → Except Error Tree}
    (inMemory : first ≠ .error .outOfMemory) (nextInMemory : ∀ tree, next tree ≠ .error .outOfMemory) :
    first >>= next ≠ .error .outOfMemory := by
  cases first with
  | error error => simpa [bind, Except.bind] using inMemory
  | ok tree => exact nextInMemory tree

theorem answer_ne_outOfMemory (routine : Routine) (arguments : List Tree) :
    routine.answer arguments ≠ .error .outOfMemory := by
  have first := (Tree.list arguments).head_ne_outOfMemory
  cases routine with
  | quote => exact first
  | head => exact bind_ne_outOfMemory first head_ne_outOfMemory
  | tail => exact bind_ne_outOfMemory first tail_ne_outOfMemory
  | host id => simp [Routine.answer]

theorem call_ne_outOfMemory (callee : Tree) (name : String) (arguments : List Tree) :
    callee.call name arguments ≠ .error .outOfMemory := by
  unfold Tree.call Lambda.answer
  split
  · split
    · exact answer_ne_outOfMemory _ arguments
    · simp
  · simp

end Tree

namespace Allotment

variable {allotment : Allotment}

theorem spends_apply (allotment : Allotment) (name : String) (arguments : List Tree) :
    Spends arguments.length allotment (allotment.apply name arguments) := by
  unfold Allotment.apply
  split
  · next short => exact ⟨by simp only; omega, fun _ failed => (by cases failed), fun _ => short⟩
  · next enough =>
    refine ⟨by simp only; omega, fun _ _ => by simp only; omega, fun outOfMemory => ?_⟩
    have inMemory : allotment.bindings.apply name arguments ≠ .error .outOfMemory := by
      exact Tree.bind_ne_outOfMemory (lookup_ne_outOfMemory _ name)
        (Tree.call_ne_outOfMemory · name arguments)
    exact absurd outOfMemory inMemory

end Allotment

namespace Tree

open Allotment

theorem length_of_evaluateEachWithin {forms values : List Tree} {allotment after : Allotment}
    (evaluated : evaluateEachWithin forms allotment = (.ok values, after)) :
    values.length = forms.length := by
  induction forms generalizing values allotment after with
  | nil =>
      rw [evaluateEachWithin] at evaluated
      cases evaluated
      rfl
  | cons form forms ih =>
      rw [evaluateEachWithin] at evaluated
      obtain ⟨value, middle, -, evaluated⟩ := exists_of_andThen_eq_ok evaluated
      obtain ⟨others, last, later, evaluated⟩ := exists_of_andThen_eq_ok evaluated
      cases evaluated
      exact congrArg (· + 1) (ih later)

mutual

/-- A form that has a value takes the cells of its expense, and no more wherever it fails. -/
theorem spends_expense (tree : Tree) (allotment : Allotment) :
    Spends tree.expense allotment (tree.evaluateWithin allotment) := by
  unfold Tree.evaluateWithin
  split
  · rw [expense]
    · exact spends_nothing (by simp) rfl
    all_goals simp
  · rw [expense]
    · exact spends_nothing (lookup_ne_outOfMemory _ _) rfl
    all_goals simp
  · rw [expense]
    exact spends_nothing (by simp) rfl
  · next name body =>
    rw [expense]
    exact (spends_expense body allotment).andThen fun tree after _ => spends_define name tree
  · next name arguments notQuoted notDefinition =>
    rw [expense, Nat.add_comm]
    · refine (spends_expenseEach arguments allotment).andThen fun trees after evaluated => ?_
      rw [← length_of_evaluateEachWithin evaluated]
      exact after.spends_apply name trees
    · assumption
    · assumption
  · rw [expense]
    · exact spends_nothing (by simp) rfl
    all_goals simp_all

theorem spends_expenseEach (trees : List Tree) (allotment : Allotment) :
    Spends (expenseEach trees) allotment (evaluateEachWithin trees allotment) := by
  cases trees with
  | nil =>
      rw [evaluateEachWithin, expenseEach]
      exact spends_nothing (by simp) rfl
  | cons tree trees =>
      rw [evaluateEachWithin, expenseEach]
      refine (spends_expense tree allotment).andThen fun value after _ => ?_
      exact (spends_expenseEach trees after).andThen fun _ _ _ => spends_nothing (by simp) rfl

end

end Tree

namespace Machine

variable {machine : Machine}

/-- What evaluating a form leaves of the cells: its expense is taken exactly if it succeeds, and memory
runs out only for want of that. -/
theorem HostFree.exists_expense (host : Host) (free : machine.HostFree) {form : Value}
    (formFree : machine.heap.IsHostFree form) :
    ∃ tree outcome after, machine.heap.Unfolds form tree ∧
      machine.eval host form = .ok (outcome, after) ∧ machine.heap.AddsCells after.heap ∧
      after.heap.cells.size ≤ machine.heap.maxCells ∧
      after.heap.cells.size ≤ machine.heap.cells.size + tree.expense ∧
      (∀ value, outcome = .ok value →
        after.heap.cells.size = machine.heap.cells.size + tree.expense) ∧
      (outcome = .error .outOfMemory →
        machine.heap.maxCells < machine.heap.cells.size + tree.expense) := by
  obtain ⟨tree, unfolds, treeFree⟩ := formFree
  obtain ⟨allotment, allots, bindingsFree⟩ := free.exists_allots
  obtain ⟨outcome, after, ran, growth, adds, agrees, left⟩ :=
    allots.exists_eval host free bindingsFree unfolds treeFree
  obtain ⟨bounded, exact, short⟩ := tree.spends_expense allotment
  have before := allots.cells
  have afterwards := left.cells
  rw [growth.maxCells] at afterwards
  generalize tree.evaluateWithin allotment = result at bounded exact short agrees afterwards
  obtain ⟨expected, final⟩ := result
  refine ⟨tree, outcome, after, unfolds, ran, adds, ?_, ?_, ?_, ?_⟩
  · omega
  · simp only at bounded afterwards
    omega
  · rintro value rfl
    cases agrees
    have spent := exact _ rfl
    simp only at spent afterwards
    omega
  · rintro rfl
    cases agrees
    have missing := short rfl
    omega

end Machine

/-- Reading a source without syntax errors uses the cells that its tokens measure, and evaluating a
form the cells of its expense, as long as no lambda of the host is involved. With less room both fail:
reading with the heap full, evaluating with no more than the expense used. -/
theorem cells_used_exactly :
    (∀ heap : Heap, heap.KeywordsNamed → heap.cells.size ≤ heap.maxCells → ∀ source : String,
      (∀ trees, SpellsEach (Token.ofSource source) trees →
        ∃ count total, MeasuresEach (Token.ofSource source) count total) ∧
      ∀ count total, MeasuresEach (Token.ofSource source) count total →
        (∀ limit, (heap.parse source).1 ≠ .error (.symbolLimitExceeded limit)) →
        (heap.cells.size + (total + count) ≤ heap.maxCells →
          (∃ list, (heap.parse source).1 = .ok list) ∧
            (heap.parse source).2.cells.size = heap.cells.size + (total + count)) ∧
        (heap.maxCells < heap.cells.size + (total + count) →
          (heap.parse source).1 = .error .outOfMemory ∧
            (heap.parse source).2.cells.size = heap.maxCells)) ∧
    ∀ (host : Host) (machine : Machine), machine.HostFree → ∀ form, machine.heap.IsHostFree form →
      ∃ tree outcome after, machine.heap.Unfolds form tree ∧
        machine.eval host form = .ok (outcome, after) ∧
        after.heap.symbols = machine.heap.symbols ∧ after.heap.lambdas = machine.heap.lambdas ∧
        after.heap.errors = machine.heap.errors ∧
        after.heap.cells.size ≤ machine.heap.cells.size + tree.expense ∧
        (∀ value, outcome = .ok value →
          after.heap.cells.size = machine.heap.cells.size + tree.expense) ∧
        (machine.heap.cells.size + tree.expense ≤ machine.heap.maxCells →
          outcome ≠ .error .outOfMemory) ∧
        (machine.heap.maxCells < machine.heap.cells.size + tree.expense →
          ∀ value, outcome ≠ .ok value) := by
  constructor
  · intro heap keywords bounded source
    refine ⟨fun trees spells => ⟨_, _, spells.measuresEach⟩, fun count total measures named => ?_⟩
    have fills := keywords.fills_parse bounded measures
    generalize heap.parse source = result at fills named ⊢
    cases fills with
    | built _ _ size keeps =>
        exact ⟨fun _ => ⟨⟨_, rfl⟩, size⟩, fun noRoom => absurd noRoom (by omega)⟩
    | full noRoom size => exact ⟨fun room => absurd noRoom (by omega), fun _ => ⟨rfl, size⟩⟩
    | nameless => exact absurd rfl (named _)
  · intro host machine free form formFree
    obtain ⟨tree, outcome, after, unfolds, ran, adds, keeps, bounded, exact, short⟩ :=
      free.exists_expense host formFree
    refine ⟨tree, outcome, after, unfolds, ran, adds.symbols, adds.lambdas, adds.errors, bounded,
      exact, fun room full => absurd (short full) (by omega), fun noRoom value succeeded => ?_⟩
    have size := exact value succeeded
    omega

/-- Two elements, a quote mark and a top-level form are five cells, and `(y (quote z))` takes one. -/
theorem cells_used_exactly_for_quotes :
    ∃ heap, Heap.new {} = .ok heap ∧ MeasuresEach (Token.ofSource "(a 'b)") 1 4 ∧
      (heap.parse "(a 'b)").2.cells.size = heap.cells.size + 5 ∧
      ∃ outcome after, Machine.withQuotedLambda.eval Host.stock (.list 3) = .ok (outcome, after) ∧
        after.heap.cells.size ≤ 16 ∧ outcome ≠ .error .outOfMemory := by
  have accepted : Pushdown.start.run (Token.ofSource "(a 'b)") =
      .ok [.list [.symbol "a", (Tree.symbol "b").quoted]] := rfl
  have measures : MeasuresEach (Token.ofSource "(a 'b)") 1 4 := by
    simpa [Tree.cellCount_quoted] using (Pushdown.run_start_eq_ok_iff.mp accepted).measuresEach
  have created : Heap.new {} = .ok ((Heap.new {}).toOption.get (by decide)) := rfl
  have room : ((Heap.new {}).toOption.get (by decide)).cells.size + (4 + 1) ≤
      ((Heap.new {}).toOption.get (by decide)).maxCells := by decide
  have read : (((Heap.new {}).toOption.get (by decide)).parse "(a 'b)").1.isOk = true := by
    decide +kernel
  generalize (Heap.new {}).toOption.get (by decide) = heap at created room read
  have named : ∀ limit, (heap.parse "(a 'b)").1 ≠ .error (.symbolLimitExceeded limit) := by
    intro limit failed
    rw [failed] at read
    cases read
  have wellFormed := Heap.wellFormed_new created
  have reading := cells_used_exactly.1 heap wellFormed.keywords wellFormed.cells_size_le "(a 'b)"
  have size := ((reading.2 1 4 measures named).1 room).2
  have form : Machine.withQuotedLambda.heap.Unfolds (.list 3)
      (.list [.symbol "y", .list [.symbol "quote", .symbol "z"]]) :=
    .list rfl (.symbol (by decide +kernel)) (.list rfl (.list rfl (.symbol (by decide +kernel))
      (.list rfl (.symbol (by decide +kernel)) .emptyList)) .emptyList)
  have formFree : (Tree.list [.symbol "y", .list [.symbol "quote", .symbol "z"]]).HostFree :=
    .list (by simp [Tree.HostFree.symbol, Tree.HostFree.list])
  obtain ⟨tree, outcome, after, unfolds, ran, -, -, -, bounded, -, inMemory, -⟩ :=
    cells_used_exactly.2 Host.stock Machine.withQuotedLambda Machine.withQuotedLambda_hostFree
      (.list 3) ⟨_, form, formFree⟩
  cases unfolds.unique form
  exact ⟨heap, created, measures, size, outcome, after, ran, bounded, inMemory (by decide)⟩

/-- A host with a routine that builds a list. -/
def reversing : Host where
  routine _ arguments := .finish (.reverse arguments)

/-- All lambdas that are bound are builtins of the language, and yet a contained form runs out of memory
although there is room for its expense: it binds a lambda of the host that it quotes, and calls it. -/
theorem withQuotedLambda_overspends :
    Machine.withQuotedLambda.heap.WellFormed ∧
      Machine.withQuotedLambda.environment.bindings =
        [(0, .symbol 0), (1, .lambda 0), (2, .lambda 1), (3, .lambda 2)] ∧
      Machine.withQuotedLambda.heap.lambdas.toList.take 3 = [.quote, .head, .tail] ∧
      Machine.withQuotedLambda.heap.contains (.list 14) = true ∧
      ∃ tree, Machine.withQuotedLambda.heap.Unfolds (.list 14) tree ∧
        Machine.withQuotedLambda.heap.cells.size + tree.expense ≤
          Machine.withQuotedLambda.heap.maxCells ∧
        ∃ after, Machine.withQuotedLambda.eval reversing (.list 14) =
          .ok (.error .outOfMemory, after) := by
  have definition : Machine.withQuotedLambda.heap.symbols.name? 0 = some "def" := by decide +kernel
  have quote : Machine.withQuotedLambda.heap.symbols.name? 1 = some "quote" := by decide +kernel
  have called : Machine.withQuotedLambda.heap.symbols.name? 4 = some "f" := by decide +kernel
  have other : Machine.withQuotedLambda.heap.symbols.name? 5 = some "y" := by decide +kernel
  have last : Machine.withQuotedLambda.heap.symbols.name? 6 = some "z" := by decide +kernel
  have quotedName : Machine.withQuotedLambda.heap.Unfolds (.list 1)
      (.list [.symbol "quote", .symbol "z"]) :=
    .list rfl (.symbol quote) (.list rfl (.symbol last) .emptyList)
  have inner : Machine.withQuotedLambda.heap.Unfolds (.list 4)
      (.list [.symbol "def", .symbol "y", .list [.symbol "quote", .symbol "z"]]) :=
    .list rfl (.symbol definition) (.list rfl (.symbol other) (.list rfl quotedName .emptyList))
  have argument : Machine.withQuotedLambda.heap.Unfolds (.list 6) (.list [.symbol "quote", _]) :=
    .list rfl (.symbol quote) (.list rfl inner .emptyList)
  have quotedLambda : Machine.withQuotedLambda.heap.Unfolds (.list 8) (.list [.symbol "quote", _]) :=
    .list rfl (.symbol quote) (.list rfl (.lambda rfl) .emptyList)
  have binding : Machine.withQuotedLambda.heap.Unfolds (.list 11)
      (.list [.symbol "def", .symbol "f", _]) :=
    .list rfl (.symbol definition) (.list rfl (.symbol called) (.list rfl quotedLambda .emptyList))
  have form : Machine.withQuotedLambda.heap.Unfolds (.list 14) (.list [.symbol "f", _, _]) :=
    .list rfl (.symbol called) (.list rfl argument (.list rfl binding .emptyList))
  have failed : (Machine.withQuotedLambda.eval reversing (.list 14)).toOption.map (·.1) =
      some (.error .outOfMemory) := by
    decide +kernel
  refine ⟨Machine.withQuotedLambda_wellFormed, Machine.withQuotedLambda_bindings, rfl, rfl, _, form,
    by decide, ?_⟩
  cases ran : Machine.withQuotedLambda.eval reversing (.list 14) with
  | error fault =>
      rw [ran] at failed
      cases failed
  | ok result =>
      obtain ⟨outcome, after⟩ := result
      rw [ran] at failed
      cases Option.some.inj failed
      exact ⟨after, rfl⟩

end TaggedLisp
