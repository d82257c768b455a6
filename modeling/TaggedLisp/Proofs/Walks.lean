import TaggedLisp.Display
import TaggedLisp.Dump.Value
import TaggedLisp.Heap.Equality
import TaggedLisp.Proofs.Heap.Unfolding

/-! Walks through the cells of a value end, and what they find depends on the tree of the value only:
its text, its datum, and which values it is equal to. The height of the tree is the budget that a
walk needs, and every walk has as much as there are cells. -/

set_option autoImplicit false

namespace TaggedLisp

namespace Tree

mutual

/-- The text of a tree, which is the text of every value that stands for it. -/
def text : Tree → String
  | .internal .undefined => "#error<undefined>"
  | .internal .outOfMemory => "#error<out-of-memory>"
  | .error cause => "#error<" ++ cause.message ++ ">"
  | .symbol name => name
  | .lambda _ contents => contents.display
  | .list elements => "(" ++ " ".intercalate (textEach elements) ++ ")"

def textEach : List Tree → List String
  | [] => []
  | element :: elements => element.text :: textEach elements

end

mutual

def datum : Tree → Datum
  | .internal cause => .error (Heap.ofInternal cause).kind.name
  | .error cause => .error cause.message
  | .symbol name => .symbol name
  | .lambda _ contents => .lambda contents.name contents.arity
  | .list elements => .list (datumEach elements)

def datumEach : List Tree → List Datum
  | [] => []
  | element :: elements => element.datum :: datumEach elements

end

mutual

/-- Whether two trees count as equal: errors by category, internal errors all alike, lambdas by
record and symbols by name. -/
def isSame : Tree → Tree → Bool
  | .internal _, .internal _ => true
  | .error left, .error right => left.kind = right.kind
  | .symbol left, .symbol right => left = right
  | .lambda left _, .lambda right _ => left = right
  | .list left, .list right => isSameEach left right
  | _, _ => false

def isSameEach : List Tree → List Tree → Bool
  | [], [] => true
  | left :: lefts, right :: rights => left.isSame right && isSameEach lefts rights
  | _, _ => false

end

theorem textEach_eq_map (trees : List Tree) : textEach trees = trees.map text := by
  induction trees with
  | nil => rw [textEach, List.map_nil]
  | cons tree trees ih => rw [textEach, List.map_cons, ih]

theorem datumEach_eq_map (trees : List Tree) : datumEach trees = trees.map datum := by
  induction trees with
  | nil => rw [datumEach, List.map_nil]
  | cons tree trees ih => rw [datumEach, List.map_cons, ih]

mutual

theorem isSame_refl (tree : Tree) : tree.isSame tree = true := by
  cases tree with
  | list elements =>
      rw [isSame]
      exact isSameEach_refl elements
  | _ => simp [isSame]

theorem isSameEach_refl (trees : List Tree) : isSameEach trees trees = true := by
  cases trees with
  | nil => rw [isSameEach]
  | cons tree trees =>
      rw [isSameEach, isSame_refl tree, isSameEach_refl trees]
      rfl

end

end Tree

namespace Heap

variable {heap : Heap}

/-- A walk that finds something in the tree of every element finds all of it in the elements. -/
private theorem mapM_of_unfoldsEach {α : Type} {walk : Value → Checked α} {found : Tree → α}
    {values : List Value} {trees : List Tree} (each : List.Forall₂ heap.Unfolds values trees)
    (finds : ∀ value tree, tree ∈ trees → heap.Unfolds value tree →
      walk value = .ok (found tree)) : values.mapM walk = .ok (trees.map found) := by
  induction each with
  | nil => rfl
  | @cons value tree values trees unfolds _ ih =>
      have first := finds value tree List.mem_cons_self unfolds
      have others := ih fun value tree member =>
        finds value tree (List.mem_cons_of_mem _ member)
      simp only [List.mapM_cons, first, others, bind, Except.bind, List.map_cons]
      rfl

private theorem exists_mapM_of_unfoldsEach {α : Type} {walk : Value → Checked α}
    {values : List Value} {trees : List Tree} (each : List.Forall₂ heap.Unfolds values trees)
    (finds : ∀ value tree, tree ∈ trees → heap.Unfolds value tree →
      ∃ found, walk value = .ok found) : ∃ results, values.mapM walk = .ok results := by
  induction each with
  | nil => exact ⟨[], rfl⟩
  | @cons value tree values trees unfolds _ ih =>
      obtain ⟨first, found⟩ := finds value tree List.mem_cons_self unfolds
      obtain ⟨others, allFound⟩ := ih fun value tree member =>
        finds value tree (List.mem_cons_of_mem _ member)
      simp only [List.mapM_cons, found, allFound, bind, Except.bind]
      exact ⟨_, rfl⟩

theorem Unfolds.displayWithin {depth : Nat} {value : Value} {tree : Tree}
    (unfolds : heap.Unfolds value tree) (enough : tree.height < depth) :
    heap.displayWithin depth value = .ok tree.text := by
  induction depth generalizing value tree with
  | zero => exact absurd enough (Nat.not_lt_zero _)
  | succ depth ih =>
      cases unfolds with
      | @internal cause => cases cause <;> simp only [Heap.displayWithin, Tree.text] <;> rfl
      | emptyList => simp only [Heap.displayWithin, Tree.text, Tree.textEach]; rfl
      | error found =>
          simp only [Heap.displayWithin, Tree.text, errorRecord_of_some found, bind, Except.bind]
          rfl
      | symbol named => simp only [Heap.displayWithin, Tree.text, name_of_some named]
      | lambda found =>
          simp only [Heap.displayWithin, Tree.text, lambda_of_some found, bind, Except.bind]
          rfl
      | @list cell link element elements found head tail =>
          obtain ⟨values, each, listed, -⟩ := (Unfolds.list found head tail).exists_elements
          rw [Tree.height_list] at enough
          have texts := mapM_of_unfoldsEach each fun value tree member unfolds =>
            ih unfolds (Tree.height_lt_of_heightEach_lt_succ enough member)
          simp only [Heap.displayWithin, listed, texts, bind, Except.bind, Tree.text,
            Tree.textEach_eq_map]
          rfl

theorem Unfolds.display {value : Value} {tree : Tree} (unfolds : heap.Unfolds value tree) :
    heap.display value = .ok tree.text :=
  unfolds.displayWithin (Nat.lt_succ_of_le unfolds.height_le)

theorem Unfolds.toDatumWithin {depth : Nat} {value : Value} {tree : Tree}
    (unfolds : heap.Unfolds value tree) (enough : tree.height < depth) :
    heap.toDatumWithin depth value = .ok tree.datum := by
  induction depth generalizing value tree with
  | zero => exact absurd enough (Nat.not_lt_zero _)
  | succ depth ih =>
      cases tree with
      | list trees =>
          obtain ⟨values, each, listed, -⟩ := unfolds.exists_elements
          rw [Tree.height_list] at enough
          have data := mapM_of_unfoldsEach each fun value tree member unfolds =>
            ih unfolds (Tree.height_lt_of_heightEach_lt_succ enough member)
          cases unfolds <;>
            simp only [Heap.toDatumWithin, listed, data, bind, Except.bind, pure, Except.pure,
              Tree.datum, Tree.datumEach_eq_map]
      | internal cause =>
          cases unfolds
          simp only [Heap.toDatumWithin, Tree.datum]
          rfl
      | error cause =>
          cases unfolds with
          | error found =>
              simp only [Heap.toDatumWithin, Tree.datum, errorRecord_of_some found, bind, Except.bind]
              rfl
      | symbol name =>
          cases unfolds with
          | symbol named =>
              simp only [Heap.toDatumWithin, Tree.datum, name_of_some named, bind, Except.bind]
              rfl
      | lambda record contents =>
          cases unfolds with
          | lambda found =>
              simp only [Heap.toDatumWithin, Tree.datum, lambda_of_some found, bind, Except.bind]
              rfl

theorem Unfolds.toDatum {value : Value} {tree : Tree} (unfolds : heap.Unfolds value tree) :
    heap.toDatum value = .ok tree.datum :=
  unfolds.toDatumWithin (Nat.lt_succ_of_le unfolds.height_le)

private theorem equalWithin_list {depth cell otherCell : Nat} {link otherLink : Cell}
    (found : heap.cells[cell]? = some link) (otherFound : heap.cells[otherCell]? = some otherLink) :
    heap.equalWithin (depth + 1) (.list cell) (.list otherCell) = (do
      if ← heap.equalWithin depth link.head otherLink.head then
        heap.equalWithin depth link.tail otherLink.tail
      else return false) := by
  simp only [Heap.equalWithin, cell_of_some found, cell_of_some otherFound]
  rfl

/-- Equality of values is equality of their trees, to any depth that the left tree does not
exceed. -/
theorem Unfolds.equalWithin {left : Value} {leftTree : Tree}
    (leftUnfolds : heap.Unfolds left leftTree) {depth : Nat} {right : Value} {rightTree : Tree}
    (rightUnfolds : heap.Unfolds right rightTree) (enough : leftTree.height < depth) :
    heap.equalWithin depth left right = .ok (leftTree.isSame rightTree) := by
  obtain _ | depth := depth
  · exact absurd enough (Nat.not_lt_zero _)
  -- Steps to tails spend depth like steps to heads, so the induction is on the cells of the left value.
  induction leftUnfolds generalizing depth right rightTree with
  | @list cell link element elements found head tail headIH tailIH =>
      cases rightUnfolds with
      | @list otherCell otherLink other others otherFound otherHead otherTail =>
          simp only [Tree.height_list, Tree.heightEach_cons] at enough headIH tailIH
          obtain ⟨depth, rfl⟩ : ∃ below, depth = below + 1 := ⟨depth - 1, by omega⟩
          have heads := headIH otherHead depth (by omega)
          have tails := tailIH otherTail depth (by omega)
          simp only [Tree.isSame] at tails
          simp only [equalWithin_list found otherFound, heads, tails, Tree.isSame, Tree.isSameEach]
          cases element.isSame other <;> rfl
      | _ => simp [Heap.equalWithin, Tree.isSame, Tree.isSameEach]
  | internal => cases rightUnfolds <;> simp [Heap.equalWithin, Tree.isSame]
  | emptyList =>
      cases rightUnfolds <;> simp [Heap.equalWithin, Tree.isSame, Tree.isSameEach]
  | error found =>
      cases rightUnfolds with
      | error otherFound =>
          simp only [Heap.equalWithin, errorRecord_of_some found, errorRecord_of_some otherFound,
            bind, Except.bind, Tree.isSame]
          rfl
      | _ => simp [Heap.equalWithin, Tree.isSame]
  | lambda found => cases rightUnfolds <;> simp [Heap.equalWithin, Tree.isSame]
  | @symbol id name named =>
      cases rightUnfolds with
      | @symbol otherId otherName otherNamed =>
          have same : id = otherId ↔ name = otherName := by
            constructor
            · intro sameSymbol
              subst sameSymbol
              exact Option.some.inj (named.symm.trans otherNamed)
            · intro sameName
              subst sameName
              exact SymbolTable.eq_of_name?_eq named otherNamed
          simp only [Heap.equalWithin, Tree.isSame, same]
      | _ => simp [Heap.equalWithin, Tree.isSame]

theorem Unfolds.isEqual {left right : Value} {leftTree rightTree : Tree}
    (leftUnfolds : heap.Unfolds left leftTree) (rightUnfolds : heap.Unfolds right rightTree) :
    heap.isEqual left right = .ok (leftTree.isSame rightTree) := by
  have bound := leftUnfolds.height_le
  have square := Nat.le_mul_self heap.cells.size
  exact leftUnfolds.equalWithin rightUnfolds (by omega)

/-- A dump is longer than a text but goes no deeper. -/
theorem Unfolds.exists_dumpWithin {depth : Nat} {value : Value} {tree : Tree}
    (unfolds : heap.Unfolds value tree) (enough : tree.height < depth) (level : Nat) :
    ∃ lines, heap.dumpWithin depth level value = .ok lines := by
  induction depth generalizing level value tree with
  | zero => exact absurd enough (Nat.not_lt_zero _)
  | succ depth ih =>
      simp only [dumpWithin]
      cases unfolds with
      | internal | emptyList => exact ⟨_, rfl⟩
      | error found =>
          simp only [errorRecord_of_some found]
          exact ⟨_, rfl⟩
      | symbol named =>
          simp only [name_of_some named]
          exact ⟨_, rfl⟩
      | lambda found =>
          simp only [lambda_of_some found]
          exact ⟨_, rfl⟩
      | @list cell link element elements found head tail =>
          obtain ⟨values, each, listed, -⟩ := (Unfolds.list found head tail).exists_elements
          rw [Tree.height_list] at enough
          obtain ⟨dumps, dumped⟩ := exists_mapM_of_unfoldsEach each fun value tree member unfolds =>
            ih unfolds (Tree.height_lt_of_heightEach_lt_succ enough member) (level + 1)
          simp only [listed, dumped, bind, Except.bind]
          exact ⟨_, rfl⟩

theorem Unfolds.exists_describe {value : Value} {tree : Tree}
    (unfolds : heap.Unfolds value tree) : ∃ text, heap.describe value = .ok text := by
  obtain ⟨lines, dumped⟩ :=
    unfolds.exists_dumpWithin (Nat.lt_succ_of_le unfolds.height_le) 0
  simp only [describe, dumpLines, dumped]
  exact ⟨_, rfl⟩

end Heap

end TaggedLisp
