import TaggedLisp.Proofs.Heap.WellFormed
import TaggedLisp.Evaluation

/-! The shape of a form, read off its cells, is the shape of its tree: heads and tails, quoted forms
and definitions. Keywords are compared by number in the heap and by name in the tree, which agree
because no two numbers stand for one name. -/

set_option autoImplicit false

namespace TaggedLisp

/-- Two outcomes are the same failure, or two results that are related. -/
inductive Agreement {α β : Type} (related : α → β → Prop) :
    Except Error α → Except Error β → Prop where
  | ok {left : α} {right : β} : related left right → Agreement related (.ok left) (.ok right)
  | error {error : Error} : Agreement related (.error error) (.error error)

namespace Heap

/-- An outcome in the heap and one on trees are the same failure, or a value and its tree. -/
abbrev Agrees (heap : Heap) : Except Error Value → Except Error Tree → Prop :=
  Agreement heap.Unfolds

theorem Agrees.contained {heap : Heap} {outcome : Except Error Value}
    {expected : Except Error Tree} (agrees : heap.Agrees outcome expected) :
    ∀ value, outcome = .ok value → heap.contains value = true := by
  intro value succeeded
  subst succeeded
  cases agrees with
  | ok unfolds => exact unfolds.contains

theorem Unfolds.head {heap : Heap} {value : Value} {tree : Tree}
    (unfolds : heap.Unfolds value tree) :
    ∃ outcome, heap.head value = .ok outcome ∧ heap.Agrees outcome tree.head := by
  cases unfolds with
  | list found head tail =>
      exact ⟨_, by simp only [Heap.head, cell, found, bind, Except.bind]; rfl, .ok head⟩
  | _ => exact ⟨_, rfl, .error⟩

theorem Unfolds.tail {heap : Heap} {value : Value} {tree : Tree}
    (unfolds : heap.Unfolds value tree) :
    ∃ outcome, heap.tail value = .ok outcome ∧ heap.Agrees outcome tree.tail := by
  cases unfolds with
  | list found head tail =>
      exact ⟨_, by simp only [Heap.tail, cell, found, bind, Except.bind]; rfl, .ok tail⟩
  | _ => exact ⟨_, rfl, .error⟩

theorem Unfolds.eq_symbol_iff {heap : Heap} {id : Nat} {name : String}
    (named : heap.symbols.name? id = some name) {value : Value} {tree : Tree}
    (unfolds : heap.Unfolds value tree) : value = .symbol id ↔ tree = .symbol name := by
  constructor
  · intro same
    subst same
    exact unfolds.unique (.symbol named)
  · intro same
    subst same
    cases unfolds with
    | symbol otherNamed => rw [SymbolTable.eq_of_name?_eq otherNamed named]

theorem Unfolds.isPair {heap : Heap} {value : Value} {trees : List Tree}
    (unfolds : heap.Unfolds value (.list trees)) :
    heap.isPair value = .ok (decide (trees.length = 2)) := by
  obtain ⟨values, each, taken⟩ := unfolds.exists_take
  have short : (values.take 3).length = 2 ↔ trees.length = 2 := by
    rw [List.length_take, each.length_eq]
    omega
  simp only [Heap.isPair, taken, bind, Except.bind, short]
  rfl

theorem Unfolds.isQuoted {heap : Heap} (keywords : heap.KeywordsNamed) {value : Value}
    {tree : Tree} (unfolds : heap.Unfolds value tree) :
    heap.isQuoted value = .ok tree.unquoted?.isSome := by
  cases unfolds with
  | @list cell link element elements found head tail =>
      have pair := (Unfolds.list found head tail).isPair
      have keyword := head.eq_symbol_iff keywords.quote
      simp only [Heap.isQuoted, Heap.cell, found, bind, Except.bind, pair]
      cases elements with
      | nil => simp [Tree.unquoted?, pure, Except.pure]
      | cons inner others =>
          cases others with
          | nil =>
              by_cases quoting : element = .symbol "quote" <;>
                simp [Tree.unquoted?, keyword, quoting, pure, Except.pure]
          | cons => simp [Tree.unquoted?, pure, Except.pure]
  | _ => rfl

/-- Unquoting answers the very value inside, not a copy of it. -/
theorem Unfolds.unquote {heap : Heap} (keywords : heap.KeywordsNamed) {value : Value}
    {tree : Tree} (unfolds : heap.Unfolds value tree) :
    ∃ outcome, heap.unquote value = .ok outcome ∧
      heap.Agrees outcome (tree.unquoted?.elim (.error .notQuoted) .ok) := by
  have quoted := unfolds.isQuoted keywords
  cases unquoted : tree.unquoted? with
  | none =>
      refine ⟨.error .notQuoted, ?_, .error⟩
      simp only [Heap.unquote, quoted, unquoted, bind, Except.bind]
      rfl
  | some inner =>
      rw [Tree.unquoted?_eq_some_iff] at unquoted
      subst unquoted
      obtain ⟨rest, tailRead, restAgrees⟩ := unfolds.tail
      cases restAgrees with
      | ok restUnfolds =>
          obtain ⟨outcome, headRead, agrees⟩ := restUnfolds.head
          refine ⟨outcome, ?_, agrees⟩
          simp only [Heap.unquote, quoted, tailRead, bind, Except.bind]
          exact headRead

/-- A definition in the heap: the number of the name that it binds, and its body. -/
inductive AgreesOnDefinition (heap : Heap) :
    Option (Nat × Value) → Option (String × Tree) → Prop where
  | none : AgreesOnDefinition heap none none
  | some {id : Nat} {name : String} {value : Value} {body : Tree} :
      heap.symbols.name? id = some name → heap.Unfolds value body →
      AgreesOnDefinition heap (some (id, value)) (some (name, body))

private def definitionParts (keyword : Nat) : List Value → Option (Nat × Value)
  | [.symbol head, .symbol symbol, body] => if head = keyword then some (symbol, body) else none
  | _ => none

private theorem definition?_of_take {heap : Heap} {value : Value} {values : List Value}
    (taken : heap.take 4 value = .ok values) :
    heap.definition? value = .ok (definitionParts heap.keywords.definition values) := by
  simp only [Heap.definition?, taken, bind, Except.bind]
  match values with
  | [] => rfl
  | [first] => cases first <;> rfl
  | [first, second] | first :: second :: _ :: _ :: _ | [first, second, _] =>
    cases first with
    | symbol => cases second <;> rfl
    | _ => rfl

private theorem definitionParts_agrees {heap : Heap} (keywords : heap.KeywordsNamed)
    {first second body : Value} {firstTree secondTree bodyTree : Tree}
    (firstUnfolds : heap.Unfolds first firstTree) (secondUnfolds : heap.Unfolds second secondTree)
    (bodyUnfolds : heap.Unfolds body bodyTree) :
    heap.AgreesOnDefinition (definitionParts heap.keywords.definition [first, second, body])
      (Tree.list [firstTree, secondTree, bodyTree]).definition? := by
  have keyword := firstUnfolds.eq_symbol_iff keywords.definition
  cases secondUnfolds with
  | @symbol id name named =>
      by_cases defining : firstTree = .symbol "def"
      · rw [keyword.mpr defining, defining]
        simpa [definitionParts, Tree.definition?] using .some named bodyUnfolds
      · have other : ∀ head, first = .symbol head → head ≠ heap.keywords.definition := by
          intro head heading same
          subst same
          exact defining (keyword.mp heading)
        cases first <;> simp_all [definitionParts, Tree.definition?, AgreesOnDefinition.none]
  | _ => cases first <;> simpa [definitionParts, Tree.definition?] using .none

theorem Unfolds.definition? {heap : Heap} (keywords : heap.KeywordsNamed) {value : Value}
    {tree : Tree} (unfolds : heap.Unfolds value tree) :
    ∃ found, heap.definition? value = .ok found ∧
      heap.AgreesOnDefinition found tree.definition? := by
  cases tree with
  | list trees =>
      obtain ⟨values, each, taken⟩ := unfolds.exists_take
      refine ⟨_, definition?_of_take (taken 4), ?_⟩
      cases each with
      | nil => exact .none
      | cons first each =>
          cases each with
          | nil => simpa [definitionParts, Tree.definition?] using .none
          | cons second each =>
              cases each with
              | nil => simpa [definitionParts, Tree.definition?] using .none
              | cons body each =>
                  cases each with
                  | nil => exact definitionParts_agrees keywords first second body
                  | cons => simpa [definitionParts, Tree.definition?] using .none
  | _ =>
      refine ⟨none, ?_, .none⟩
      cases unfolds
      rfl

end Heap

end TaggedLisp
