import TaggedLisp.Proofs.Tree

/-! Evaluation without a heap. Forms are trees, an environment is a map from names to trees that is
written once for each name, and nothing is ever allocated, so memory cannot run out. The only
routines are those of the language; a routine of the host has no meaning on trees. What a heap would
spend on an evaluation is counted apart from it. -/

set_option autoImplicit false

namespace TaggedLisp

/-- Names bound to trees, with the number of bindings and the most there may be. -/
structure Bindings where
  tree? : String → Option Tree
  size : Nat
  capacity : Nat

namespace Bindings

def lookup (bindings : Bindings) (name : String) : Except Error Tree :=
  match bindings.tree? name with
  | some tree => .ok tree
  | none => .error (.unbound name)

def bind (bindings : Bindings) (name : String) (tree : Tree) : Bindings where
  tree? other := if name = other then some tree else bindings.tree? other
  size := bindings.size + 1
  capacity := bindings.capacity

/-- Binds a name that is not bound, if there is room. -/
def define (bindings : Bindings) (name : String) (tree : Tree) : Except Error Tree × Bindings :=
  if (bindings.tree? name).isSome then (.error (.redefinition name), bindings)
  else if bindings.capacity ≤ bindings.size then
    (.error (.environmentFull bindings.capacity), bindings)
  else (.ok (.symbol name), bindings.bind name tree)

end Bindings

def Routine.answer (arguments : List Tree) : Routine → Except Error Tree
  | .quote => (Tree.list arguments).head
  | .head => (Tree.list arguments).head >>= Tree.head
  | .tail => (Tree.list arguments).head >>= Tree.tail
  | .host _ => .error .undefined

def Lambda.answer (contents : Lambda) (arguments : List Tree) : Except Error Tree :=
  if arguments.length = contents.arity then contents.routine.answer arguments
  else .error (.arityMismatch contents.name contents.arity arguments.length)

def Tree.call (name : String) (arguments : List Tree) : Tree → Except Error Tree
  | .lambda _ contents => contents.answer arguments
  | _ => .error (.notCallable name)

/-- What applying a name to trees answers. The name is looked up only here. -/
def Bindings.apply (bindings : Bindings) (name : String) (arguments : List Tree) :
    Except Error Tree :=
  bindings.lookup name >>= Tree.call name arguments

/-- An evaluation goes on after its first step, if that did not fail. -/
def Bindings.andThen {α β : Type} (first : Except Error α × Bindings)
    (next : α → Bindings → Except Error β × Bindings) : Except Error β × Bindings :=
  match first with
  | (.ok result, bindings) => next result bindings
  | (.error error, bindings) => (.error error, bindings)

/-- What is spent after the first step of an evaluation, if that did not fail. -/
def Bindings.spentAfter {α : Type} (first : Except Error α × Bindings)
    (next : α → Bindings → Nat) : Nat :=
  match first with
  | (.ok result, bindings) => next result bindings
  | (.error _, _) => 0

@[simp] theorem Bindings.spentAfter_zero {α : Type} (first : Except Error α × Bindings) :
    Bindings.spentAfter first (fun _ _ => 0) = 0 := by
  obtain ⟨outcome, bindings⟩ := first
  cases outcome <;> rfl

namespace Tree

mutual

/-- The value of a form, with the bindings afterwards. -/
def evaluate : Tree → Bindings → Except Error Tree × Bindings
  | .list [], bindings => (.ok (.list []), bindings)
  | .symbol name, bindings => (bindings.lookup name, bindings)
  | .list [.symbol "quote", tree], bindings => (.ok tree, bindings)
  | .list [.symbol "def", .symbol name, body], bindings =>
    Bindings.andThen (body.evaluate bindings) fun tree bindings => bindings.define name tree
  | .list (.symbol name :: arguments), bindings =>
    Bindings.andThen (evaluateEach arguments bindings) fun trees bindings =>
      (bindings.apply name trees, bindings)
  | _, bindings => (.error .undefined, bindings)

def evaluateEach : List Tree → Bindings → Except Error (List Tree) × Bindings
  | [], bindings => (.ok [], bindings)
  | form :: forms, bindings =>
    Bindings.andThen (form.evaluate bindings) fun tree bindings =>
      Bindings.andThen (evaluateEach forms bindings) fun trees bindings =>
        (.ok (tree :: trees), bindings)

end

mutual

/-- The number of cells that a heap spends on evaluating a form: one for each argument of every
application, if all its arguments have a value. -/
def demand : Tree → Bindings → Nat
  | .list [.symbol "quote", _], _ => 0
  | .list [.symbol "def", .symbol _, body], bindings => body.demand bindings
  | .list (.symbol _ :: arguments), bindings =>
    demandEach arguments bindings +
      Bindings.spentAfter (evaluateEach arguments bindings) fun trees _ => trees.length
  | _, _ => 0

def demandEach : List Tree → Bindings → Nat
  | [], _ => 0
  | form :: forms, bindings =>
    form.demand bindings +
      Bindings.spentAfter (form.evaluate bindings) fun _ bindings => demandEach forms bindings

end

theorem evaluate_application {name : String} {arguments : List Tree}
    (notQuoted : (Tree.list (.symbol name :: arguments)).unquoted? = none)
    (notDefinition : (Tree.list (.symbol name :: arguments)).definition? = none)
    (bindings : Bindings) :
    (Tree.list (.symbol name :: arguments)).evaluate bindings =
      Bindings.andThen (evaluateEach arguments bindings) fun trees bindings =>
        (bindings.apply name trees, bindings) := by
  rw [evaluate]
  · intro tree quoting single
    subst quoting single
    cases notQuoted
  · intro other body defining triple
    subst defining triple
    cases notDefinition

theorem demand_application {name : String} {arguments : List Tree}
    (notQuoted : (Tree.list (.symbol name :: arguments)).unquoted? = none)
    (notDefinition : (Tree.list (.symbol name :: arguments)).definition? = none)
    (bindings : Bindings) :
    (Tree.list (.symbol name :: arguments)).demand bindings =
      demandEach arguments bindings +
        Bindings.spentAfter (evaluateEach arguments bindings) fun trees _ => trees.length := by
  rw [demand]
  · intro tree quoting single
    subst quoting single
    cases notQuoted
  · intro other body defining triple
    subst defining triple
    cases notDefinition

theorem evaluate_other {head : Tree} {arguments : List Tree}
    (notSymbol : ∀ name, head ≠ .symbol name) (bindings : Bindings) :
    (Tree.list (head :: arguments)).evaluate bindings = (.error .undefined, bindings) := by
  rw [evaluate]
  all_goals simp_all

theorem demand_other {head : Tree} {arguments : List Tree}
    (notSymbol : ∀ name, head ≠ .symbol name) (bindings : Bindings) :
    (Tree.list (head :: arguments)).demand bindings = 0 := by
  rw [demand]
  all_goals simp_all

end Tree

end TaggedLisp
