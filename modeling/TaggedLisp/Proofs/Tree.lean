import TaggedLisp.Datum
import Mathlib.Data.List.Forall2

/-! Trees are what values stand for apart from any heap: no cells, no sharing and no order of
allocation. A tree keeps what a datum forgets, the record of a lambda and the whole of an error, so
evaluation can be described on trees alone. -/

set_option autoImplicit false

namespace TaggedLisp

/-- A value without its heap. -/
inductive Tree where
  | internal (cause : InternalError)
  | error (error : Error)
  | symbol (name : String)
  /-- A lambda, by the number of its record and what the record says. -/
  | lambda (record : Nat) (contents : Lambda)
  | list (elements : List Tree)

namespace Tree

def quoted (tree : Tree) : Tree :=
  .list [.symbol "quote", tree]

def isNamed (name : String) : Tree → Bool
  | .symbol other => other = name
  | _ => false

def unquoted? : Tree → Option Tree
  | .list [keyword, tree] => if keyword.isNamed "quote" then some tree else none
  | _ => none

def definition? : Tree → Option (String × Tree)
  | .list [keyword, .symbol name, body] =>
    if keyword.isNamed "def" then some (name, body) else none
  | _ => none

def head : Tree → Except Error Tree
  | .list (element :: _) => .ok element
  | .list [] => .error (.emptyListAccess "head")
  | _ => .error .notAList

def tail : Tree → Except Error Tree
  | .list (_ :: elements) => .ok (.list elements)
  | .list [] => .error (.emptyListAccess "tail")
  | _ => .error .notAList

mutual

/-- The longest way through the cells of a tree, where a step goes to an element or to the next
cell. -/
def height : Tree → Nat
  | .list elements => heightEach elements
  | _ => 0

def heightEach : List Tree → Nat
  | [] => 0
  | element :: elements => 1 + max element.height (heightEach elements)

end

mutual

/-- The number of cells of a tree none of whose lists are shared. -/
def cellCount : Tree → Nat
  | .list elements => cellCountEach elements
  | _ => 0

def cellCountEach : List Tree → Nat
  | [] => 0
  | element :: elements => 1 + element.cellCount + cellCountEach elements

end

mutual

def names : Tree → List String
  | .symbol name => [name]
  | .list elements => namesEach elements
  | _ => []

def namesEach : List Tree → List String
  | [] => []
  | element :: elements => element.names ++ namesEach elements

end

@[simp] theorem isNamed_iff {name : String} {tree : Tree} :
    tree.isNamed name = true ↔ tree = .symbol name := by
  cases tree <;> simp [isNamed]

theorem unquoted?_eq_some_iff {tree inner : Tree} :
    tree.unquoted? = some inner ↔ tree = inner.quoted := by
  constructor
  · intro unquoted
    unfold unquoted? at unquoted
    split at unquoted
    · split at unquoted
      · next keyword =>
        cases unquoted
        rw [isNamed_iff.mp keyword]
        rfl
      · cases unquoted
    · cases unquoted
  · intro same
    subst same
    rfl

theorem definition?_eq_some_iff {tree body : Tree} {name : String} :
    tree.definition? = some (name, body) ↔ tree = .list [.symbol "def", .symbol name, body] := by
  constructor
  · intro defined
    unfold definition? at defined
    split at defined
    · split at defined
      · next keyword =>
        cases defined
        rw [isNamed_iff.mp keyword]
      · cases defined
    · cases defined
  · intro same
    subst same
    rfl

@[simp] theorem height_list (elements : List Tree) :
    (Tree.list elements).height = heightEach elements := by
  rw [height]

@[simp] theorem heightEach_nil : heightEach [] = 0 := by
  rw [heightEach]

@[simp] theorem heightEach_cons (element : Tree) (elements : List Tree) :
    heightEach (element :: elements) = 1 + max element.height (heightEach elements) := by
  rw [heightEach]

@[simp] theorem cellCount_list (elements : List Tree) :
    (Tree.list elements).cellCount = cellCountEach elements := by
  rw [cellCount]

@[simp] theorem cellCount_symbol (name : String) : (Tree.symbol name).cellCount = 0 := by
  simp [cellCount]

@[simp] theorem cellCountEach_nil : cellCountEach [] = 0 := by
  rw [cellCountEach]

@[simp] theorem cellCountEach_cons (element : Tree) (elements : List Tree) :
    cellCountEach (element :: elements) = 1 + element.cellCount + cellCountEach elements := by
  rw [cellCountEach]

theorem cellCount_quoted (tree : Tree) : tree.quoted.cellCount = tree.cellCount + 2 := by
  simp only [quoted, cellCount_list, cellCountEach_cons, cellCount_symbol, cellCountEach_nil]
  omega

/-- The cells of trees that are not elements of a list. -/
def cellSum : List Tree → Nat
  | [] => 0
  | tree :: trees => tree.cellCount + cellSum trees

@[simp] theorem cellSum_nil : cellSum [] = 0 :=
  rfl

@[simp] theorem cellSum_cons (tree : Tree) (trees : List Tree) :
    cellSum (tree :: trees) = tree.cellCount + cellSum trees :=
  rfl

theorem cellCountEach_eq (trees : List Tree) : cellCountEach trees = cellSum trees + trees.length := by
  induction trees with
  | nil => simp
  | cons tree trees ih =>
      simp only [cellCountEach_cons, ih, cellSum_cons, List.length_cons]
      omega

@[simp] theorem names_symbol (name : String) : (Tree.symbol name).names = [name] := by
  rw [names]

@[simp] theorem names_list (elements : List Tree) :
    (Tree.list elements).names = namesEach elements := by
  rw [names]

@[simp] theorem namesEach_nil : namesEach [] = [] := by
  rw [namesEach]

@[simp] theorem namesEach_cons (element : Tree) (elements : List Tree) :
    namesEach (element :: elements) = element.names ++ namesEach elements := by
  rw [namesEach]

theorem height_lt_of_mem {element : Tree} {elements : List Tree} (member : element ∈ elements) :
    element.height < heightEach elements := by
  induction elements with
  | nil => cases member
  | cons first elements ih =>
      rw [heightEach_cons]
      rcases List.mem_cons.mp member with rfl | member
      · omega
      · have := ih member
        omega

theorem height_lt_of_heightEach_lt_succ {element : Tree} {elements : List Tree} {depth : Nat}
    (enough : heightEach elements < depth + 1) (member : element ∈ elements) :
    element.height < depth :=
  Nat.lt_of_lt_of_le (height_lt_of_mem member) (Nat.le_of_lt_succ enough)

theorem length_le_heightEach (elements : List Tree) : elements.length ≤ heightEach elements := by
  induction elements with
  | nil => simp
  | cons first elements ih =>
      simp only [List.length_cons, heightEach_cons]
      omega

end Tree

end TaggedLisp
