import TaggedLisp.Proofs.Evaluation.Descent
import TaggedLisp.Proofs.Evaluation.Refinement

/-! Evaluation on trees with a ration of cells. An application takes a cell for each argument, once all
of them have a value, and where fewer are left it takes these and fails. With as many cells as the
heap has room for this is what evaluation in a heap comes to, out of memory or not: the same failure
or a value of the same tree, the same bindings and the same number of cells, and no new symbols,
lambdas or errors. -/

set_option autoImplicit false

namespace TaggedLisp

/-- Bindings and the number of cells that there is still room for. -/
structure Allotment where
  bindings : Bindings
  cells : Nat

namespace Allotment

def andThen {α β : Type} (first : Except Error α × Allotment)
    (next : α → Allotment → Except Error β × Allotment) : Except Error β × Allotment :=
  match first with
  | (.ok result, allotment) => next result allotment
  | (.error error, allotment) => (.error error, allotment)

theorem andThen_andThen {α β γ : Type} (first : Except Error α × Allotment)
    (next : α → Allotment → Except Error β × Allotment)
    (last : β → Allotment → Except Error γ × Allotment) :
    andThen (andThen first next) last =
      andThen first fun result allotment => andThen (next result allotment) last := by
  obtain ⟨outcome, allotment⟩ := first
  cases outcome <;> rfl

def define (allotment : Allotment) (name : String) (tree : Tree) : Except Error Tree × Allotment :=
  ((allotment.bindings.define name tree).1,
    { allotment with bindings := (allotment.bindings.define name tree).2 })

/-- Applies a name to trees, if there is a cell for each. -/
def apply (allotment : Allotment) (name : String) (arguments : List Tree) :
    Except Error Tree × Allotment :=
  if allotment.cells < arguments.length then (.error .outOfMemory, { allotment with cells := 0 })
  else
    (allotment.bindings.apply name arguments,
      { allotment with cells := allotment.cells - arguments.length })

end Allotment

namespace Tree

mutual

/-- The value of a form, with what is left of an allotment afterwards. -/
def evaluateWithin : Tree → Allotment → Except Error Tree × Allotment
  | .list [], allotment => (.ok (.list []), allotment)
  | .symbol name, allotment => (allotment.bindings.lookup name, allotment)
  | .list [.symbol "quote", tree], allotment => (.ok tree, allotment)
  | .list [.symbol "def", .symbol name, body], allotment =>
    Allotment.andThen (body.evaluateWithin allotment) fun tree allotment =>
      allotment.define name tree
  | .list (.symbol name :: arguments), allotment =>
    Allotment.andThen (evaluateEachWithin arguments allotment) fun trees allotment =>
      allotment.apply name trees
  | _, allotment => (.error .undefined, allotment)

def evaluateEachWithin : List Tree → Allotment → Except Error (List Tree) × Allotment
  | [], allotment => (.ok [], allotment)
  | form :: forms, allotment =>
    Allotment.andThen (form.evaluateWithin allotment) fun tree allotment =>
      Allotment.andThen (evaluateEachWithin forms allotment) fun trees allotment =>
        (.ok (tree :: trees), allotment)

end

theorem evaluateWithin_application {name : String} {arguments : List Tree}
    (notQuoted : (Tree.list (.symbol name :: arguments)).unquoted? = none)
    (notDefinition : (Tree.list (.symbol name :: arguments)).definition? = none)
    (allotment : Allotment) :
    (Tree.list (.symbol name :: arguments)).evaluateWithin allotment =
      Allotment.andThen (evaluateEachWithin arguments allotment) fun trees allotment =>
        allotment.apply name trees := by
  rw [evaluateWithin]
  · intro tree quoting single
    subst quoting single
    cases notQuoted
  · intro other body defining triple
    subst defining triple
    cases notDefinition

theorem evaluateWithin_other {head : Tree} {arguments : List Tree}
    (notSymbol : ∀ name, head ≠ .symbol name) (allotment : Allotment) :
    (Tree.list (head :: arguments)).evaluateWithin allotment = (.error .undefined, allotment) := by
  rw [evaluateWithin]
  all_goals simp_all

theorem evaluateWithin_meaningless {tree : Tree} (notList : ∀ elements, tree ≠ .list elements)
    (notSymbol : ∀ name, tree ≠ .symbol name) (allotment : Allotment) :
    tree.evaluateWithin allotment = (.error .undefined, allotment) := by
  rw [evaluateWithin]
  all_goals simp_all

end Tree

theorem Bindings.define_cases (bindings : Bindings) (name : String) (tree : Tree) :
    (∃ error, bindings.define name tree = (.error error, bindings) ∧ error ≠ .outOfMemory) ∨
      bindings.define name tree = (.ok (.symbol name), bindings.bind name tree) := by
  unfold Bindings.define
  split
  · exact .inl ⟨_, rfl, by simp⟩
  split
  · exact .inl ⟨_, rfl, by simp⟩
  · exact .inr rfl

/-! ## Trees and bindings without lambdas of the host -/

theorem Tree.HostFree.each {elements : List Tree} (free : (Tree.list elements).HostFree) :
    ∀ element ∈ elements, element.HostFree := by
  cases free with
  | list all => exact all

theorem Heap.IsHostFree.tree {heap : Heap} {value : Value} (free : heap.IsHostFree value)
    {tree : Tree} (unfolds : heap.Unfolds value tree) : tree.HostFree := by
  obtain ⟨other, otherUnfolds, otherFree⟩ := free
  exact otherUnfolds.unique unfolds ▸ otherFree

namespace Allotment

/-- No binding leads to a lambda of the host. -/
def HostFree (allotment : Allotment) : Prop :=
  ∀ name tree, allotment.bindings.tree? name = some tree → tree.HostFree

/-- What a step of evaluation leaves: results that fit, and bindings that lead to no lambda of the
host. -/
structure Frees {α : Type} (fits : α → Prop) (result : Except Error α × Allotment) : Prop where
  fits : ∀ value, result.1 = .ok value → fits value
  hostFree : result.2.HostFree

variable {allotment : Allotment}

theorem Frees.andThen {α β : Type} {fits : α → Prop} {later : β → Prop}
    {result : Except Error α × Allotment} {next : α → Allotment → Except Error β × Allotment}
    (first : Frees fits result)
    (rest : ∀ value allotment, fits value → allotment.HostFree → Frees later (next value allotment)) :
    Frees later (Allotment.andThen result next) := by
  obtain ⟨outcome, after⟩ := result
  cases outcome with
  | ok value => exact rest value after (first.fits value rfl) first.hostFree
  | error error => exact ⟨fun _ failed => (by cases failed), first.hostFree⟩

theorem HostFree.lookup (free : allotment.HostFree) {name : String} {tree : Tree}
    (found : allotment.bindings.lookup name = .ok tree) : tree.HostFree := by
  unfold Bindings.lookup at found
  split at found
  · next bound =>
    cases found
    exact free name _ bound
  · cases found

theorem HostFree.define (free : allotment.HostFree) (name : String) {tree : Tree}
    (treeFree : tree.HostFree) : Frees Tree.HostFree (allotment.define name tree) := by
  unfold Allotment.define
  rcases allotment.bindings.define_cases name tree with ⟨error, refused, -⟩ | bound
  · rw [refused]
    exact ⟨fun _ failed => (by cases failed), free⟩
  · rw [bound]
    refine ⟨fun value same => ?_, fun other value found => ?_⟩
    · cases same
      exact .symbol
    · simp only [Bindings.bind] at found
      split at found
      · cases found
        exact treeFree
      · exact free other value found

end Allotment

namespace Tree

open Allotment

theorem HostFree.head {tree element : Tree} (free : tree.HostFree)
    (found : tree.head = .ok element) : element.HostFree := by
  unfold Tree.head at found
  split at found <;> cases found
  exact free.each _ List.mem_cons_self

theorem HostFree.tail {tree rest : Tree} (free : tree.HostFree) (found : tree.tail = .ok rest) :
    rest.HostFree := by
  unfold Tree.tail at found
  split at found <;> cases found
  exact .list fun element member => free.each element (List.mem_cons_of_mem _ member)

theorem HostFree.answer {arguments : List Tree} (each : ∀ tree ∈ arguments, tree.HostFree)
    {routine : Routine} {answer : Tree} (answered : routine.answer arguments = .ok answer) :
    answer.HostFree := by
  have whole : (Tree.list arguments).HostFree := .list each
  cases routine with
  | quote => exact whole.head answered
  | head =>
      obtain ⟨list, found, answered⟩ := exists_of_bind_eq_ok answered
      exact (whole.head found).head answered
  | tail =>
      obtain ⟨list, found, answered⟩ := exists_of_bind_eq_ok answered
      exact (whole.head found).tail answered
  | host id => cases answered

theorem HostFree.call {callee : Tree} {name : String} {arguments : List Tree}
    (each : ∀ tree ∈ arguments, tree.HostFree) {answer : Tree}
    (answered : callee.call name arguments = .ok answer) : answer.HostFree := by
  unfold Tree.call Lambda.answer at answered
  split at answered
  · split at answered
    · exact HostFree.answer each answered
    · cases answered
  · cases answered

theorem HostFree.apply {allotment : Allotment} (free : allotment.HostFree) (name : String)
    {arguments : List Tree} (each : ∀ tree ∈ arguments, tree.HostFree) :
    Frees HostFree (allotment.apply name arguments) := by
  unfold Allotment.apply
  split
  · exact ⟨fun _ failed => (by cases failed), free⟩
  · refine ⟨fun answer answered => ?_, free⟩
    obtain ⟨callee, -, answered⟩ := exists_of_bind_eq_ok answered
    exact HostFree.call each answered

mutual

theorem HostFree.evaluateWithin (tree : Tree) {allotment : Allotment} (treeFree : tree.HostFree)
    (free : allotment.HostFree) : Frees HostFree (tree.evaluateWithin allotment) := by
  unfold Tree.evaluateWithin
  split
  · exact ⟨fun _ same => (by cases same; exact treeFree), free⟩
  · exact ⟨fun _ found => free.lookup found, free⟩
  · next inner =>
    exact ⟨fun _ same => (by cases same; exact treeFree.each inner (by simp)), free⟩
  · next name body =>
    exact (HostFree.evaluateWithin body (treeFree.each body (by simp)) free).andThen
      fun tree allotment treeFree free => free.define name treeFree
  · next name arguments _ _ =>
    have each : ∀ argument ∈ arguments, argument.HostFree := fun argument member =>
      treeFree.each argument (List.mem_cons_of_mem _ member)
    exact (HostFree.evaluateEachWithin arguments each free).andThen
      fun trees allotment each free => HostFree.apply free name each
  · exact ⟨fun _ failed => (by cases failed), free⟩

theorem HostFree.evaluateEachWithin (trees : List Tree) {allotment : Allotment}
    (each : ∀ tree ∈ trees, tree.HostFree) (free : allotment.HostFree) :
    Frees (fun values => ∀ value ∈ values, value.HostFree) (evaluateEachWithin trees allotment) := by
  cases trees with
  | nil =>
      rw [Tree.evaluateEachWithin]
      exact ⟨fun _ same => (by cases same; simp), free⟩
  | cons tree trees =>
      obtain ⟨head, others⟩ := List.forall_mem_cons.mp each
      rw [Tree.evaluateEachWithin]
      refine (HostFree.evaluateWithin tree head free).andThen fun value allotment valueFree free => ?_
      refine (HostFree.evaluateEachWithin trees others free).andThen
        fun values allotment valuesFree free => ⟨fun _ same => ?_, free⟩
      cases same
      exact List.forall_mem_cons.mpr ⟨valueFree, valuesFree⟩

end

end Tree

/-! ## Machines -/

/-- The allotment that a machine stands for. -/
structure Machine.Allots (machine : Machine) (allotment : Allotment) : Prop where
  keywords : machine.heap.KeywordsNamed
  environment : machine.environment.Unfolds machine.heap allotment.bindings
  cells : machine.heap.cells.size + allotment.cells = machine.heap.maxCells

/-- What is done in a machine comes to what is expected on trees, and adds nothing but cells to the
heap. -/
structure Machine.Settles (machine : Machine) (expected : Except Error Tree × Allotment)
    (outcome : Except Error Value) (after : Machine) : Prop where
  adds : machine.heap.AddsCells after.heap
  agrees : after.heap.Agrees outcome expected.1
  allots : after.Allots expected.2

/-- What an activity comes to on trees, where no lambda of the host can be called. -/
inductive Machine.Expects (machine : Machine) (allotment : Allotment) :
    Activity → Except Error Tree × Allotment → Prop where
  | eval {form : Value} {tree : Tree} :
      machine.heap.Unfolds form tree → tree.HostFree →
      Expects machine allotment (.task (.eval form)) (tree.evaluateWithin allotment)
  | arguments {head : Nat} {name : String} {evaluated forms : List Value} {before trees : List Tree} :
      machine.heap.symbols.name? head = some name →
      List.Forall₂ machine.heap.Unfolds evaluated before →
      List.Forall₂ machine.heap.Unfolds forms trees → (∀ tree ∈ trees, tree.HostFree) →
      Expects machine allotment (.arguments head evaluated forms)
        (Allotment.andThen (Tree.evaluateEachWithin trees allotment) fun trees allotment =>
          allotment.apply name (before.reverse ++ trees))
  | apply {record : Nat} {contents : Lambda} {arguments : Value} {trees : List Tree} :
      machine.heap.lambdas[record]? = some contents → (∀ id, contents.routine ≠ .host id) →
      machine.heap.Unfolds arguments (.list trees) →
      Expects machine allotment (.task (.apply record arguments))
        (contents.answer trees, allotment)

namespace Machine

variable {machine : Machine} {allotment : Allotment}

theorem Allots.settles (allots : machine.Allots allotment) {outcome : Except Error Value}
    {expected : Except Error Tree} (agrees : machine.heap.Agrees outcome expected) :
    machine.Settles (expected, allotment) outcome machine :=
  ⟨.refl _, agrees, allots⟩

/-- A first step that failed is all that is done. -/
theorem Settles.andThen_of_error {after : Machine} {first : Except Error Tree × Allotment}
    {next : Tree → Allotment → Except Error Tree × Allotment} {error : Error}
    (settles : machine.Settles first (.error error) after) :
    machine.Settles (Allotment.andThen first next) (.error error) after := by
  obtain ⟨outcome, allotment⟩ := first
  obtain ⟨adds, agrees, allots⟩ := settles
  cases agrees
  exact ⟨adds, .error, allots⟩

/-- What is done after a first step that succeeded settles what is done in all. -/
theorem Settles.andThen {middle after : Machine} {first : Except Error Tree × Allotment}
    {next : Tree → Allotment → Except Error Tree × Allotment} {value : Value}
    {outcome : Except Error Value} (settles : machine.Settles first (.ok value) middle)
    (rest : ∀ tree allotment, first = (.ok tree, allotment) → middle.heap.Unfolds value tree →
      middle.Allots allotment → middle.Settles (next tree allotment) outcome after) :
    machine.Settles (Allotment.andThen first next) outcome after := by
  obtain ⟨result, allotment⟩ := first
  obtain ⟨adds, agrees, allots⟩ := settles
  cases agrees with
  | ok unfolds =>
      have settles := rest _ allotment rfl unfolds allots
      exact ⟨adds.trans settles.adds, settles.agrees, settles.allots⟩

theorem Settles.of_added {middle after : Machine} {expected : Except Error Tree × Allotment}
    {outcome : Except Error Value} (adds : machine.heap.AddsCells middle.heap)
    (settles : middle.Settles expected outcome after) : machine.Settles expected outcome after :=
  ⟨adds.trans settles.adds, settles.agrees, settles.allots⟩

/-- Building the list of the arguments either settles an application, for want of cells, or leaves the
application to be carried out with the cells that are left. -/
theorem Allots.listOf (allots : machine.Allots allotment) (name : String) {values : List Value}
    {trees : List Tree} (each : List.Forall₂ machine.heap.Unfolds values trees)
    {outcome : Except Error Value} {heap : Heap}
    (built : machine.heap.listOf values = (outcome, heap)) :
    (∃ error, outcome = .error error ∧
        machine.Settles (allotment.apply name trees) (.error error) { machine with heap }) ∨
      ∃ list, outcome = .ok list ∧ heap.Unfolds list (.list trees) ∧
        ∃ left, Allots { machine with heap } { allotment with cells := left } ∧
          allotment.apply name trees =
            (allotment.bindings.apply name trees, { allotment with cells := left }) := by
  have growth := Heap.growsTo_of_listOf built
  have keywords := allots.keywords.grow growth
  have environment := allots.environment.grow growth
  have cells := allots.cells
  have adds := Heap.addsCells_of_listOf built
  have length := each.length_eq
  have lists := machine.heap.listOf_lists values
  rw [built] at lists
  unfold Allotment.apply
  cases lists with
  | @full cellsAfter noRoom filled bounded =>
      have bounded := bounded (by omega)
      rw [if_pos (by omega)]
      exact .inl ⟨_, rfl, adds, .error, keywords, environment, by simp only; omega⟩
  | @built list cellsAfter isList size room =>
      have fits : trees.length ≤ allotment.cells := by
        rcases room with rfl | room
        · rw [← length]
          exact Nat.zero_le _
        · omega
      rw [if_neg (by omega)]
      exact .inr ⟨list, rfl, .listOf each built, allotment.cells - trees.length,
        ⟨keywords, environment, by simp only; omega⟩, rfl⟩

theorem Expects.of_no_values {head : Nat} {name : String} {forms : List Value}
    {trees : List Tree} (named : machine.heap.symbols.name? head = some name)
    (each : List.Forall₂ machine.heap.Unfolds forms trees) (free : ∀ tree ∈ trees, tree.HostFree) :
    machine.Expects allotment (.arguments head [] forms)
      (Allotment.andThen (Tree.evaluateEachWithin trees allotment) fun trees allotment =>
        allotment.apply name trees) := by
  have nothing : List.Forall₂ machine.heap.Unfolds [] [] := .nil
  exact .arguments named nothing each free

theorem Expects.of_no_forms {head : Nat} {evaluated : List Value}
    {expected : Except Error Tree × Allotment}
    (expects : machine.Expects allotment (.arguments head evaluated []) expected) :
    ∃ name trees, machine.heap.symbols.name? head = some name ∧
      List.Forall₂ machine.heap.Unfolds evaluated.reverse trees ∧
      expected = allotment.apply name trees := by
  cases expects with
  | arguments named before each =>
      cases each
      refine ⟨_, _, named, List.forall₂_reverse_iff.mpr before, ?_⟩
      rw [Tree.evaluateEachWithin, Allotment.andThen, List.append_nil]

/-- Once the arguments are in a list, the head is looked up, and what it is bound to decides what is
expected. -/
theorem Expects.exists_callee {head : Nat} {evaluated : List Value}
    {expected : Except Error Tree × Allotment}
    (expects : machine.Expects allotment (.arguments head evaluated []) expected)
    (allots : machine.Allots allotment) {list : Value} {heap : Heap}
    (built : machine.heap.listOf evaluated.reverse = (.ok list, heap))
    {callee : Except Error Value} (found : machine.environment.lookup heap head = .ok callee) :
    ∃ name trees left, heap.symbols.name? head = some name ∧ heap.Unfolds list (.list trees) ∧
      Allots { machine with heap } { allotment with cells := left } ∧
      heap.Agrees callee (allotment.bindings.lookup name) ∧
      expected = (allotment.bindings.lookup name >>= Tree.call name trees,
        { allotment with cells := left }) := by
  obtain ⟨name, trees, named, each, rfl⟩ := expects.of_no_forms
  rcases allots.listOf name each built with ⟨_, same, -⟩ | ⟨_, same, unfolds, left, allots, applied⟩
  · cases same
  · cases same
    have named := (Heap.growsTo_of_listOf built).symbols.names named
    obtain ⟨_, read, agrees⟩ := allots.environment.lookup named
    cases read.symm.trans found
    exact ⟨name, trees, left, named, unfolds, allots, agrees, applied⟩

end Machine

/-! ## Every evaluation settles -/

open Evaluation

/-- The parts of a definition in the heap are those of its tree. -/
theorem Heap.Unfolds.exists_body {heap : Heap} {form body : Value} {tree : Tree} {symbol : Nat}
    (unfolds : heap.Unfolds form tree) (keywords : heap.KeywordsNamed)
    (defines : heap.definition? form = .ok (some (symbol, body))) :
    ∃ name bodyTree, heap.symbols.name? symbol = some name ∧ heap.Unfolds body bodyTree ∧
      tree = .list [.symbol "def", .symbol name, bodyTree] := by
  obtain ⟨_, read, agrees⟩ := unfolds.definition? keywords
  cases read.symm.trans defines
  generalize defined : tree.definition? = parts at agrees
  cases agrees with
  | some named bodyUnfolds =>
      exact ⟨_, _, named, bodyUnfolds, Tree.definition?_eq_some_iff.mp defined⟩

/-- The parts of a list that is neither quoted nor a definition are those of its tree. -/
theorem Heap.Unfolds.exists_link {heap : Heap} {cell : Nat} {link : Cell} {tree : Tree}
    (unfolds : heap.Unfolds (.list cell) tree) (keywords : heap.KeywordsNamed)
    (isQuoted : heap.isQuoted (.list cell) = .ok false)
    (notDefinition : heap.definition? (.list cell) = .ok none)
    (found : heap.cell cell = .ok link) :
    ∃ head arguments, tree = .list (head :: arguments) ∧ heap.Unfolds link.head head ∧
      heap.Unfolds link.tail (.list arguments) ∧ tree.unquoted? = none ∧
      tree.definition? = none := by
  have quoting := (unfolds.isQuoted keywords).symm.trans isQuoted
  obtain ⟨_, read, agrees⟩ := unfolds.definition? keywords
  cases read.symm.trans notDefinition
  generalize defined : tree.definition? = parts at agrees
  cases agrees
  cases unfolds with
  | list linked head tail =>
      cases (Heap.cell_of_some linked).symm.trans found
      exact ⟨_, _, rfl, head, tail, by simpa using Except.ok.inj quoting, rfl⟩

section Builtins

variable {machine after : Machine} {host : Host} {recur : Task → Evaluation Value}
  {arguments : Value} {trees : List Tree} {outcome : Except Error Value}

/-- A builtin that goes on with its first argument. -/
private theorem agrees_first_bind (unfolds : machine.heap.Unfolds arguments (.list trees))
    {read : Value → Machine → Checked (Except Error Value)} {onTree : Tree → Except Error Tree}
    (reads : ∀ value tree, machine.heap.Unfolds value tree →
      ∃ outcome, read value machine = .ok outcome ∧ machine.heap.Agrees outcome (onTree tree))
    (ran : (consult (·.heap.head arguments) >>= fun value => consult (read value)).runIn machine =
      .ok (outcome, after)) :
    machine.heap.Agrees outcome ((Tree.list trees).head >>= onTree) := by
  obtain ⟨first, found, agrees⟩ := unfolds.head
  generalize (Tree.list trees).head = expected at agrees
  rcases runIn_consult_bind ran with ⟨value, same, ran⟩ | ⟨error, same, failed⟩
  · cases found.symm.trans same
    cases agrees with
    | ok valueUnfolds =>
        obtain ⟨_, read, agrees⟩ := reads value _ valueUnfolds
        obtain ⟨otherRead, -⟩ := runIn_consult ran
        cases read.symm.trans otherRead
        exact agrees
  · cases found.symm.trans same
    cases failed
    cases agrees
    exact .error

theorem agrees_answer (unfolds : machine.heap.Unfolds arguments (.list trees)) {routine : Routine}
    (builtin : ∀ id, routine ≠ .host id)
    (ran : (routine.run host recur arguments).runIn machine = .ok (outcome, after)) :
    machine.heap.Agrees outcome (routine.answer trees) := by
  unfold Routine.run at ran
  cases routine with
  | host id => exact absurd rfl (builtin id)
  | quote =>
      obtain ⟨_, read, agrees⟩ := unfolds.head
      obtain ⟨found, -⟩ := runIn_consult ran
      cases read.symm.trans found
      exact agrees
  | head => exact agrees_first_bind unfolds (fun _ _ unfolds => unfolds.head) ran
  | tail => exact agrees_first_bind unfolds (fun _ _ unfolds => unfolds.tail) ran

end Builtins

/-! What is expected of an activity, by what the evaluator finds in the heap: either what it comes to
at once, or what is expected of the activities that it goes on with. -/

namespace Machine

variable {machine : Machine} {allotment : Allotment} {expected : Except Error Tree × Allotment}

theorem Expects.settles_symbol {symbol : Nat} {outcome : Except Error Value}
    (expects : machine.Expects allotment (.task (.eval (.symbol symbol))) expected)
    (allots : machine.Allots allotment)
    (found : machine.environment.lookup machine.heap symbol = .ok outcome) :
    machine.Settles expected outcome machine := by
  cases expects with
  | eval unfolds =>
      cases unfolds with
      | symbol named =>
          obtain ⟨_, read, agrees⟩ := allots.environment.lookup named
          cases read.symm.trans found
          rw [Tree.evaluateWithin]
          exact allots.settles agrees

theorem Expects.settles_meaningless {form : Value}
    (expects : machine.Expects allotment (.task (.eval form)) expected)
    (allots : machine.Allots allotment) (notList : form.isList = false)
    (notSymbol : form.symbol? = none) : machine.Settles expected (.error .undefined) machine := by
  cases expects with
  | eval unfolds =>
      cases unfolds with
      | internal | error | lambda =>
          rw [Tree.evaluateWithin_meaningless (by simp) (by simp)]
          exact allots.settles .error
      | symbol => cases notSymbol
      | emptyList | list => cases notList

theorem Expects.settles_quoted {form : Value} {outcome : Except Error Value}
    (expects : machine.Expects allotment (.task (.eval form)) expected)
    (allots : machine.Allots allotment) (isQuoted : machine.heap.isQuoted form = .ok true)
    (unquoted : machine.heap.unquote form = .ok outcome) :
    machine.Settles expected outcome machine := by
  cases expects with
  | eval unfolds =>
      have quoting := (unfolds.isQuoted allots.keywords).symm.trans isQuoted
      obtain ⟨_, read, agrees⟩ := unfolds.unquote allots.keywords
      cases read.symm.trans unquoted
      obtain ⟨inner, same⟩ := Option.isSome_iff_exists.mp (Except.ok.inj quoting)
      rw [same] at agrees
      rw [Tree.unquoted?_eq_some_iff.mp same, Tree.quoted, Tree.evaluateWithin]
      exact allots.settles agrees

/-- A definition is expected to evaluate its body, and then to bind its name. -/
theorem Expects.exists_body {form body : Value} {symbol : Nat}
    (expects : machine.Expects allotment (.task (.eval form)) expected)
    (keywords : machine.heap.KeywordsNamed)
    (defines : machine.heap.definition? form = .ok (some (symbol, body))) :
    ∃ name first, machine.heap.symbols.name? symbol = some name ∧
      machine.Expects allotment (.task (.eval body)) first ∧
      expected = Allotment.andThen first fun tree allotment => allotment.define name tree := by
  cases expects with
  | eval unfolds free =>
      obtain ⟨name, bodyTree, named, bodyUnfolds, rfl⟩ := unfolds.exists_body keywords defines
      have bodyFree := free.each bodyTree (by simp)
      exact ⟨name, _, named, .eval bodyUnfolds bodyFree, by rw [Tree.evaluateWithin]⟩

theorem Allots.settles_define (allots : machine.Allots allotment) {symbol : Nat}
    {name : String} (named : machine.heap.symbols.name? symbol = some name) {value : Value}
    {tree : Tree} (unfolds : machine.heap.Unfolds value tree) {outcome : Except Error Value}
    {environment : Environment}
    (defined : machine.environment.define machine.heap symbol value = .ok (outcome, environment)) :
    machine.Settles (allotment.define name tree) outcome { machine with environment } := by
  obtain ⟨_, _, same, agrees, bindings⟩ := allots.environment.define named unfolds
  cases same.symm.trans defined
  exact ⟨.refl _, agrees, allots.keywords, bindings, allots.cells⟩

theorem Expects.settles_headless {cell : Nat} {link : Cell}
    (expects : machine.Expects allotment (.task (.eval (.list cell))) expected)
    (allots : machine.Allots allotment) (isQuoted : machine.heap.isQuoted (.list cell) = .ok false)
    (notDefinition : machine.heap.definition? (.list cell) = .ok none)
    (found : machine.heap.cell cell = .ok link) (notSymbol : link.head.symbol? = none) :
    machine.Settles expected (.error .undefined) machine := by
  cases expects with
  | eval unfolds =>
      obtain ⟨head, arguments, rfl, headUnfolds, -⟩ :=
        unfolds.exists_link allots.keywords isQuoted notDefinition found
      have other : ∀ name, head ≠ .symbol name := by
        rintro name rfl
        generalize link.head = first at headUnfolds notSymbol
        cases headUnfolds
        cases notSymbol
      rw [Tree.evaluateWithin_other other]
      exact allots.settles .error

/-- An application is expected to come to what its arguments come to, which are in a list. -/
theorem Expects.exists_forms {cell head : Nat} {tail : Value}
    (expects : machine.Expects allotment (.task (.eval (.list cell))) expected)
    (keywords : machine.heap.KeywordsNamed)
    (isQuoted : machine.heap.isQuoted (.list cell) = .ok false)
    (notDefinition : machine.heap.definition? (.list cell) = .ok none)
    (found : machine.heap.cell cell = .ok ⟨.symbol head, tail⟩) :
    ∃ forms, machine.heap.toList tail = .ok (.ok forms) ∧
      machine.Expects allotment (.arguments head [] forms) expected := by
  cases expects with
  | eval unfolds free =>
      obtain ⟨_, arguments, rfl, headUnfolds, tailUnfolds, notQuoted, notDefinition⟩ :=
        unfolds.exists_link keywords isQuoted notDefinition found
      obtain ⟨forms, each, -, listed, -⟩ := tailUnfolds.exists_elements
      refine ⟨forms, listed, ?_⟩
      cases headUnfolds with
      | symbol named =>
          rw [Tree.evaluateWithin_application notQuoted notDefinition]
          refine .of_no_values named each fun argument member => ?_
          exact free.each argument (List.mem_cons_of_mem _ member)

/-- Arguments are expected to evaluate the first form, and to go on with its value before those of
the forms that are left, in any heap that this one has grown to. -/
theorem Expects.exists_first {head : Nat} {evaluated forms : List Value} {form : Value}
    (expects : machine.Expects allotment (.arguments head evaluated (form :: forms)) expected) :
    ∃ (tree : Tree) (next : Tree → Allotment → Except Error Tree × Allotment), tree.HostFree ∧
      machine.Expects allotment (.task (.eval form)) (tree.evaluateWithin allotment) ∧
      expected = Allotment.andThen (tree.evaluateWithin allotment) next ∧
      ∀ (after : Machine) value result left, machine.heap.GrowsTo after.heap →
        after.heap.Unfolds value result →
        after.Expects left (.arguments head (value :: evaluated) forms) (next result left) := by
  cases expects with
  | @arguments _ name _ _ before _ named beforeUnfold each free =>
      cases each with
      | @cons _ tree _ trees formUnfolds each =>
          obtain ⟨formFree, othersFree⟩ := List.forall_mem_cons.mp free
          let next (result : Tree) (left : Allotment) :=
            Allotment.andThen (Tree.evaluateEachWithin trees left) fun others left =>
              left.apply name (before.reverse ++ result :: others)
          refine ⟨tree, next, formFree, .eval formUnfolds formFree, ?_, ?_⟩
          · simp only [Tree.evaluateEachWithin, Allotment.andThen_andThen]
            rfl
          · intro after value result left growth valueUnfolds
            have before : List.Forall₂ after.heap.Unfolds (value :: evaluated) (result :: before) :=
              .cons valueUnfolds (Heap.unfoldsEach_grow growth beforeUnfold)
            have expects : Expects after left (.arguments head (value :: evaluated) forms) _ :=
              .arguments (growth.symbols.names named) before
                (Heap.unfoldsEach_grow growth each) othersFree
            simpa only [List.reverse_cons, List.append_assoc, List.singleton_append] using expects

/-- Applying a lambda is expected to answer as the builtin that it is, for a list of trees. -/
theorem Expects.exists_answer {record : Nat} {arguments : Value} {contents : Lambda}
    (expects : machine.Expects allotment (.task (.apply record arguments)) expected)
    (found : machine.heap.lambda record = .ok contents) :
    ∃ trees, (∀ id, contents.routine ≠ .host id) ∧
      machine.heap.Unfolds arguments (.list trees) ∧
      machine.heap.count arguments = .ok (.ok trees.length) ∧
      expected = (contents.answer trees, allotment) := by
  cases expects with
  | apply listed builtin unfolds =>
      cases (Heap.lambda_of_some listed).symm.trans found
      exact ⟨_, builtin, unfolds, unfolds.count, rfl⟩

end Machine

/-- Evaluation in a machine without lambdas of the host comes to what it comes to on trees. -/
theorem Performs.settles {host : Host} {activity : Activity} {machine after : Machine}
    {log : List Definition} {outcome : Except Error Value}
    (performs : Performs host activity machine log outcome after) {allotment : Allotment}
    {expected : Except Error Tree × Allotment} (allots : machine.Allots allotment)
    (free : allotment.HostFree) (expects : machine.Expects allotment activity expected) :
    machine.Settles expected outcome after := by
  induction performs generalizing allotment expected with
  | emptyList =>
      cases expects with
      | eval unfolds =>
          cases unfolds
          rw [Tree.evaluateWithin]
          exact allots.settles (.ok .emptyList)
  | symbol found => exact expects.settles_symbol allots found
  | meaningless notList notSymbol => exact expects.settles_meaningless allots notList notSymbol
  | quoted isQuoted unquoted => exact expects.settles_quoted allots isQuoted unquoted
  | bodyFailed isQuoted defines _ ih =>
      obtain ⟨name, first, -, bodyExpects, rfl⟩ := expects.exists_body allots.keywords defines
      exact (ih allots free bodyExpects).andThen_of_error
  | definition isQuoted defines performs defined ih =>
      obtain ⟨name, first, named, bodyExpects, rfl⟩ := expects.exists_body allots.keywords defines
      refine (ih allots free bodyExpects).andThen fun tree left _ valueUnfolds allots => ?_
      exact allots.settles_define (performs.growsTo.symbols.names named) valueUnfolds defined
  | headless isQuoted notDefinition found notSymbol =>
      exact expects.settles_headless allots isQuoted notDefinition found notSymbol
  | improper isQuoted notDefinition found failed =>
      obtain ⟨forms, listed, -⟩ :=
        expects.exists_forms allots.keywords isQuoted notDefinition found
      cases listed.symm.trans failed
  | application isQuoted notDefinition found listed _ ih =>
      obtain ⟨forms, same, formsExpected⟩ :=
        expects.exists_forms allots.keywords isQuoted notDefinition found
      cases same.symm.trans listed
      exact ih allots free formsExpected
  | argumentFailed _ ih =>
      obtain ⟨tree, next, -, formExpects, rfl, -⟩ := expects.exists_first
      exact (ih allots free formExpects).andThen_of_error
  | argument first _ firstIH othersIH =>
      obtain ⟨tree, next, treeFree, formExpects, rfl, others⟩ := expects.exists_first
      have freeAfter := (Tree.HostFree.evaluateWithin tree treeFree free).hostFree
      refine (firstIH allots free formExpects).andThen fun result left same unfolds allots => ?_
      rw [same] at freeAfter
      exact othersIH allots freeAfter (others _ _ result left first.growsTo unfolds)
  | noRoom built =>
      obtain ⟨name, trees, named, each, rfl⟩ := expects.of_no_forms
      rcases allots.listOf name each built with ⟨error, same, settles⟩ | ⟨list, same, -⟩
      · cases same
        exact settles
      · cases same
  | unbound built unbound =>
      obtain ⟨name, trees, left, -, -, allots, agrees, rfl⟩ :=
        expects.exists_callee allots built unbound
      generalize allotment.bindings.lookup name = looked at agrees ⊢
      cases agrees
      exact (allots.settles .error).of_added (Heap.addsCells_of_listOf built)
  | notCallable built found notLambda headNamed =>
      obtain ⟨name, trees, left, named, -, allots, agrees, rfl⟩ :=
        expects.exists_callee allots built found
      have sameName := Except.ok.inj ((Heap.name_of_some named).symm.trans headNamed)
      subst sameName
      generalize allotment.bindings.lookup name = looked at agrees ⊢
      cases agrees with
      | ok valueUnfolds =>
          cases valueUnfolds with
          | lambda => cases notLambda
          | _ => exact (allots.settles .error).of_added (Heap.addsCells_of_listOf built)
  | call built found _ ih =>
      obtain ⟨name, trees, left, -, listUnfolds, allots, agrees, rfl⟩ :=
        expects.exists_callee allots built found
      generalize looked : allotment.bindings.lookup name = result at agrees ⊢
      cases agrees with
      | ok lambdaUnfolds =>
          cases lambdaUnfolds with
          | lambda recorded =>
              -- No binding leads to a lambda of the host, so the call goes to a builtin.
              cases free.lookup looked with
              | lambda builtin =>
                  exact (ih allots free (.apply recorded builtin listUnfolds)).of_added
                    (Heap.addsCells_of_listOf built)
  | notAList found counted =>
      obtain ⟨trees, -, -, same, -⟩ := expects.exists_answer found
      cases same.symm.trans counted
  | arityMismatch found counted mismatch =>
      obtain ⟨trees, -, -, same, rfl⟩ := expects.exists_answer found
      cases same.symm.trans counted
      rw [Lambda.answer, if_neg mismatch]
      exact allots.settles .error
  | builtin found counted provided ran =>
      obtain ⟨trees, -, unfolds, same, rfl⟩ := expects.exists_answer found
      have arity : trees.length = _ := Except.ok.inj (Except.ok.inj (same.symm.trans counted))
      rw [Lambda.answer, if_pos arity]
      exact allots.settles (agrees_answer unfolds provided ran)
  | routine found counted provided =>
      obtain ⟨trees, builtin, -⟩ := expects.exists_answer found
      exact absurd provided (builtin _)
  | direct | define | eval | apply | done | perform | examine => cases expects

namespace Machine

variable {machine : Machine}

/-- A well-formed machine whose bindings lead to no lambda of the host stands for an allotment. -/
theorem HostFree.exists_allots (free : machine.HostFree) :
    ∃ allotment, machine.Allots allotment ∧ allotment.HostFree := by
  have unfoldEach : ∀ symbol value, machine.environment.find? symbol = some value →
      ∃ name tree, machine.heap.symbols.name? symbol = some name ∧
        machine.heap.Unfolds value tree := by
    intro symbol value found
    obtain ⟨contained, tree, unfolds, -⟩ := free.bindings symbol value found
    obtain ⟨name, named⟩ := Heap.exists_name_of_contains contained
    exact ⟨name, tree, named, unfolds⟩
  obtain ⟨bindings, environment⟩ := Environment.exists_unfolds unfoldEach
  refine ⟨⟨bindings, machine.heap.maxCells - machine.heap.cells.size⟩,
    ⟨free.heap.keywords, environment, Nat.add_sub_of_le free.heap.cells_size_le⟩, ?_⟩
  intro name tree bound
  obtain ⟨symbol, value, -, found, unfolds⟩ := (environment.bound name tree).mp bound
  exact (free.bindings symbol value found).2.tree unfolds

theorem HostFree.exists_eval (host : Host) (free : machine.HostFree) {form : Value}
    (formFree : machine.heap.IsHostFree form) :
    ∃ outcome after, machine.eval host form = .ok (outcome, after) := by
  obtain ⟨outcome, after, -, nested, -⟩ := free.exists_evalDown host formFree
  refine ⟨outcome, after, ?_⟩
  rw [Machine.eval, if_pos formFree.contains]
  exact nested _ (rank_lt_budget free.heap formFree.contains)

/-- What evaluating a form comes to in a machine is what its tree comes to within the allotment. -/
theorem Allots.exists_eval (host : Host) (free : machine.HostFree) {allotment : Allotment}
    (allots : machine.Allots allotment) (bindingsFree : allotment.HostFree) {form : Value}
    {tree : Tree} (unfolds : machine.heap.Unfolds form tree) (treeFree : tree.HostFree) :
    ∃ outcome after, machine.eval host form = .ok (outcome, after) ∧
      machine.heap.GrowsTo after.heap ∧
      machine.Settles (tree.evaluateWithin allotment) outcome after := by
  obtain ⟨outcome, after, ran⟩ := free.exists_eval host ⟨tree, unfolds, treeFree⟩
  refine ⟨outcome, after, ran, ?_⟩
  rw [Machine.eval, if_pos unfolds.contains] at ran
  obtain ⟨log, performs⟩ := derives_run host machine.budget ran
  exact ⟨performs.growsTo, performs.settles allots bindingsFree (.eval unfolds treeFree)⟩

end Machine

end TaggedLisp
