import TaggedLisp.Proofs.Reader.Agreement
import Mathlib.Data.Finset.Card

/-! Enough room to read some forms is one cell for every cell of their trees and one symbol for every
name that is not in the table yet. With that much room no store fills up on the way. What is left of
it after a form is enough for the forms that follow, because the names of a form are in the table once
the form is read. -/

set_option autoImplicit false

namespace TaggedLisp

namespace SymbolTable

def nameSet (table : SymbolTable) : Finset String :=
  table.names.toList.toFinset

theorem mem_nameSet {table : SymbolTable} {name : String} :
    name ∈ table.nameSet ↔ ∃ id, table.name? id = some name := by
  simp only [nameSet, List.mem_toFinset, Array.mem_toList_iff, Array.mem_iff_getElem?, name?]

theorem card_nameSet (table : SymbolTable) : table.nameSet.card = table.size := by
  have distinct : table.names.toList.Nodup := by
    rw [List.nodup_iff_getElem?_ne_getElem?]
    intro first second less inside same
    rw [Array.getElem?_toList, Array.getElem?_toList] at same
    rw [Array.length_toList] at inside
    have named := Array.getElem?_eq_getElem inside
    have numbers := table.eq_of_name?_eq (same.trans named) named
    exact Nat.ne_of_lt less numbers
  rw [nameSet, List.toFinset_card_of_nodup distinct, Array.length_toList]
  rfl

theorem GrowsTo.nameSet_subset {before after : SymbolTable} (growth : before.GrowsTo after) :
    before.nameSet ⊆ after.nameSet := by
  intro name member
  obtain ⟨id, named⟩ := mem_nameSet.mp member
  exact mem_nameSet.mpr ⟨id, growth.names named⟩

theorem nameSet_push (table : SymbolTable) (name : String) (absent : table.find? name = none) :
    (table.push name absent).nameSet = insert name table.nameSet := by
  ext other
  simp [nameSet, push]

theorem Interned.exists_ok {table : SymbolTable} {name : String}
    {result : Except Error Nat × SymbolTable} (interned : Interned table name result)
    (isSymbol : Token.isSymbolText name.toList = true)
    (room : (insert name table.nameSet).card ≤ table.capacity) :
    (∃ id, result.1 = .ok id) ∧ result.2.nameSet = insert name table.nameSet := by
  have length := Token.utf8ByteSize_of_isSymbolText isSymbol
  cases interned with
  | refused badLength =>
      rcases badLength with empty | tooLong
      · rw [length.1] at empty
        cases empty
      · exact absurd tooLong (Nat.not_lt_of_le length.2)
  | @present id found =>
      have member : name ∈ table.nameSet :=
        mem_nameSet.mpr ⟨id, name?_eq_some_iff_find?.mpr found⟩
      exact ⟨⟨id, rfl⟩, (Finset.insert_eq_of_mem member).symm⟩
  | full absent noRoom =>
      have unknown : name ∉ table.nameSet := by
        intro member
        obtain ⟨id, named⟩ := mem_nameSet.mp member
        rw [name?_eq_some_iff_find?, absent] at named
        cases named
      rw [Finset.card_insert_of_notMem unknown, card_nameSet] at room
      omega
  | added absent => exact ⟨⟨_, rfl⟩, table.nameSet_push name absent⟩

end SymbolTable

namespace Heap

/-- Room for so many cells and for symbols of the given names. -/
structure HasRoom (heap : Heap) (cells : Nat) (names : List String) : Prop where
  cells : heap.cells.size + cells ≤ heap.maxCells
  names : (heap.symbols.nameSet ∪ names.toFinset).card ≤ heap.symbols.capacity

/-- The names in a tree are names of the heap in which it is unfolded. -/
theorem Unfolds.names_subset {heap : Heap} {value : Value} {tree : Tree}
    (unfolds : heap.Unfolds value tree) : tree.names.toFinset ⊆ heap.symbols.nameSet := by
  induction unfolds with
  | internal | error | lambda => simp [Tree.names]
  | symbol named =>
      simpa using SymbolTable.mem_nameSet.mpr ⟨_, named⟩
  | emptyList => simp
  | list _ _ _ headIH tailIH =>
      rw [Tree.names_list] at tailIH ⊢
      rw [Tree.namesEach_cons, List.toFinset_append]
      exact Finset.union_subset headIH tailIH

theorem names_subset_of_unfoldsEach {heap : Heap} {values : List Value} {trees : List Tree}
    (each : List.Forall₂ heap.Unfolds values trees) :
    (Tree.namesEach trees).toFinset ⊆ heap.symbols.nameSet := by
  induction each with
  | nil => simp
  | cons unfolds _ ih =>
      rw [Tree.namesEach_cons, List.toFinset_append]
      exact Finset.union_subset unfolds.names_subset ih

/-- What an allocation of so many cells and of symbols of the given names may leave. -/
structure Uses (heap : Heap) (cells : Nat) (names : List String) (after : Heap) : Prop where
  growsTo : heap.GrowsTo after
  cells : after.cells.size ≤ heap.cells.size + cells
  names : after.symbols.nameSet ⊆ heap.symbols.nameSet ∪ names.toFinset

theorem HasRoom.after {heap after : Heap} {used cells : Nat} {usedNames names : List String}
    (room : heap.HasRoom (used + cells) (usedNames ++ names))
    (uses : heap.Uses used usedNames after) : after.HasRoom cells names where
  cells := by
    have bound := room.cells
    have usedBound := uses.cells
    rw [uses.growsTo.maxCells]
    omega
  names := by
    rw [uses.growsTo.symbols.capacity]
    refine Nat.le_trans (Finset.card_le_card ?_) room.names
    rw [List.toFinset_append, ← Finset.union_assoc]
    exact Finset.union_subset_union uses.names (Finset.Subset.refl _)

private theorem union_toFinset_subset (known : Finset String) {names others : List String}
    (subset : names ⊆ others) : known ∪ names.toFinset ⊆ known ∪ others.toFinset :=
  Finset.union_subset_union (Finset.Subset.refl _)
    fun _ member => List.mem_toFinset.mpr (subset (List.mem_toFinset.mp member))

theorem HasRoom.mono {heap : Heap} {cells fewer : Nat} {names others : List String}
    (room : heap.HasRoom cells names) (le : fewer ≤ cells) (subset : others ⊆ names) :
    heap.HasRoom fewer others where
  cells := Nat.le_trans (Nat.add_le_add_left le _) room.cells
  names := Nat.le_trans (Finset.card_le_card (union_toFinset_subset _ subset)) room.names

theorem Uses.mono {heap after : Heap} {cells more : Nat} {names others : List String}
    (uses : heap.Uses cells names after) (le : cells ≤ more) (subset : names ⊆ others) :
    heap.Uses more others after where
  growsTo := uses.growsTo
  cells := Nat.le_trans uses.cells (Nat.add_le_add_left le _)
  names := uses.names.trans (union_toFinset_subset _ subset)

theorem Uses.trans {first second third : Heap} {cells moreCells : Nat}
    {names moreNames : List String} (left : first.Uses cells names second)
    (right : second.Uses moreCells moreNames third) :
    first.Uses (cells + moreCells) (names ++ moreNames) third where
  growsTo := left.growsTo.trans right.growsTo
  cells := by
    have leftCells := left.cells
    have rightCells := right.cells
    omega
  names := by
    rw [List.toFinset_append, ← Finset.union_assoc]
    exact right.names.trans (Finset.union_subset_union left.names (Finset.Subset.refl _))

theorem HasRoom.listOf {heap : Heap} {values : List Value}
    (room : heap.HasRoom values.length []) :
    (∃ list, (heap.listOf values).1 = .ok list) ∧
      heap.Uses values.length [] (heap.listOf values).2 := by
  have growth := heap.listOf_growsTo values
  have lists := heap.listOf_lists values
  generalize heap.listOf values = result at growth lists ⊢
  cases lists with
  | built _ size => exact ⟨⟨_, rfl⟩, growth, Nat.le_of_eq size, Finset.subset_union_left⟩
  | full noRoom => exact absurd room.cells (Nat.not_le_of_lt noRoom)

theorem HasRoom.symbol {heap : Heap} {name : String} (room : heap.HasRoom 0 [name])
    (isSymbol : Token.isSymbolText name.toList = true) :
    (∃ value, (heap.symbol name).1 = .ok value) ∧ heap.Uses 0 [name] (heap.symbol name).2 := by
  have same : heap.symbols.nameSet ∪ [name].toFinset = insert name heap.symbols.nameSet := by
    simp
  have names := room.names
  rw [same] at names
  obtain ⟨⟨id, interned⟩, added⟩ := (heap.symbols.intern_interned name).exists_ok isSymbol names
  refine ⟨⟨.symbol id, ?_⟩, heap.symbol_growsTo name, Nat.le_refl _, ?_⟩
  · simp only [Heap.symbol, intern, interned]
    rfl
  · rw [same]
    exact Finset.subset_of_eq added

end Heap

/-! ## Reading with enough room -/

theorem Spells.exists_cons {tokens : List Token} {tree : Tree} (spells : Spells tokens tree) :
    ∃ token more, tokens = token :: more ∧ token.kind ≠ .listEnd := by
  cases spells with
  | symbol kind | list kind | quote kind =>
      refine ⟨_, _, rfl, ?_⟩
      rw [kind]
      decide

namespace Reader

/-- Reading succeeds, leaves these tokens, and uses no more than this of the heap. -/
def Succeeds (heap : Heap) (cells : Nat) (names : List String) (rest : List Token)
    (outcome : Except Error Value) (after : Reader) : Prop :=
  (∃ value, outcome = .ok value) ∧ after.tokens = rest ∧ heap.Uses cells names after.heap

mutual

/-- The tokens of a form are read, and nothing after them, if there is room for its tree. -/
theorem succeeds_of_spells {input : List Token} {tree : Tree} (spells : Spells input tree)
    (spelled : ∀ token ∈ input, token.IsSpelled) {token : Token} {more : List Token}
    (split : input = token :: more) {rest : List Token} {heap : Heap} {depth : Nat}
    {outcome : Except Error Value} {after : Reader}
    (reads : Reads (.form token) heap depth (more ++ rest) outcome after)
    (room : heap.HasRoom tree.cellCount tree.names) :
    Succeeds heap tree.cellCount tree.names rest outcome after := by
  cases spells with
  | symbol kind =>
      cases split
      rw [Tree.cellCount_symbol, Tree.names_symbol] at room ⊢
      obtain ⟨rfl, rfl⟩ := reads.of_symbol kind
      obtain ⟨succeeded, uses⟩ := room.symbol (spelled _ List.mem_cons_self kind)
      exact ⟨succeeded, rfl, uses⟩
  | @list opening closing tokens trees opens each closes =>
      cases split
      rw [Tree.cellCount_list, Tree.names_list] at room ⊢
      have inner := reads.of_listStart opens
      rw [List.append_assoc] at inner
      obtain ⟨-, afterOpening⟩ := List.forall_mem_cons.mp spelled
      obtain ⟨inside, -⟩ := List.forall_mem_append.mp afterOpening
      have whole := succeeds_of_spellsEach each inside closes inner (by simpa using room)
      simpa using whole
  | @quote mark tokens tree marks spells =>
      cases split
      obtain ⟨next, following, rfl, opens⟩ := spells.exists_cons
      obtain ⟨-, inside⟩ := List.forall_mem_cons.mp spelled
      have cells := tree.cellCount_quoted
      have names : tree.names ++ [] ⊆ tree.quoted.names := by
        simp [Tree.quoted]
      have room : heap.HasRoom (tree.cellCount + 2) (tree.names ++ []) :=
        room.mono (Nat.le_of_eq cells.symm) names
      have innerRoom := room.mono (Nat.le_add_right _ 2) (List.subset_append_left _ [])
      rcases reads.of_quote marks opens with ⟨error, -, inner⟩ | ⟨value, middle, inner, rfl, rfl⟩
      · obtain ⟨⟨value, impossible⟩, -⟩ := succeeds_of_spells spells inside rfl inner innerRoom
        cases impossible
      · obtain ⟨-, left, uses⟩ := succeeds_of_spells spells inside rfl inner innerRoom
        have outer : middle.heap.HasRoom
            [Value.symbol middle.heap.keywords.quote, value].length [] := room.after uses
        obtain ⟨succeeded, listUses⟩ := outer.listOf
        exact ⟨succeeded, left, (uses.trans listUses).mono (Nat.le_of_eq cells.symm) names⟩

theorem succeeds_of_spellsEach {input : List Token} {trees : List Tree}
    (spells : SpellsEach input trees) (spelled : ∀ token ∈ input, token.IsSpelled)
    {closing : Token} (closes : closing.kind = .listEnd) {readSoFar : List Value}
    {rest : List Token} {heap : Heap} {depth : Nat} {outcome : Except Error Value} {after : Reader}
    (reads : Reads (.elements readSoFar) heap depth (input ++ closing :: rest) outcome after)
    (room : heap.HasRoom (readSoFar.length + Tree.cellCountEach trees) (Tree.namesEach trees)) :
    Succeeds heap (readSoFar.length + Tree.cellCountEach trees) (Tree.namesEach trees) rest outcome
      after := by
  cases spells with
  | nil =>
      obtain ⟨rfl, rfl⟩ := reads.of_listEnd closes
      rw [Tree.cellCountEach_nil, Tree.namesEach_nil, Nat.add_zero,
        ← List.length_reverse] at room ⊢
      obtain ⟨succeeded, uses⟩ := room.listOf
      exact ⟨succeeded, rfl, uses⟩
  | @cons front back tree trees first others =>
      obtain ⟨next, following, rfl, opens⟩ := first.exists_cons
      obtain ⟨inFront, inBack⟩ := List.forall_mem_append.mp spelled
      have cells : readSoFar.length + Tree.cellCountEach (tree :: trees) =
          tree.cellCount + ((readSoFar.length + 1) + Tree.cellCountEach trees) := by
        rw [Tree.cellCountEach_cons]
        omega
      rw [cells, Tree.namesEach_cons] at room ⊢
      rw [List.append_assoc, List.cons_append] at reads
      have firstRoom := room.mono (Nat.le_add_right _ _) (List.subset_append_left _ _)
      rcases reads.of_ne_listEnd opens with ⟨error, -, inner⟩ | ⟨value, middle, inner, later⟩
      · obtain ⟨⟨value, impossible⟩, -⟩ := succeeds_of_spells first inFront rfl inner firstRoom
        cases impossible
      · obtain ⟨-, left, uses⟩ := succeeds_of_spells first inFront rfl inner firstRoom
        rw [left] at later
        obtain ⟨succeeded, finalLeft, laterUses⟩ :=
          succeeds_of_spellsEach others inBack closes later (room.after uses)
        exact ⟨succeeded, finalLeft, uses.trans laterUses⟩

end

/-- All top-level forms are read if there is room for them, and no more than that is used. -/
theorem ReadsForms.succeeds_of_spellsEach {input : List Token} {trees : List Tree}
    (spells : SpellsEach input trees) (spelled : ∀ token ∈ input, token.IsSpelled) {heap : Heap}
    {depth : Nat} {outcome : Except Error (List Value)} {after : Reader}
    (reads : ReadsForms heap depth input outcome after)
    (room : heap.HasRoom (Tree.cellSum trees) (Tree.namesEach trees)) :
    ∃ values, outcome = .ok values ∧ values.length = trees.length ∧
      heap.Uses (Tree.cellSum trees) (Tree.namesEach trees) after.heap := by
  induction trees generalizing input heap depth outcome after with
  | nil =>
      cases spells
      cases reads
      exact ⟨[], rfl, rfl, .refl heap, Nat.le_refl _, Finset.subset_union_left⟩
  | cons tree trees ih =>
      cases spells with
      | @cons front back _ _ first others =>
          obtain ⟨next, following, rfl, opens⟩ := first.exists_cons
          obtain ⟨inFront, inBack⟩ := List.forall_mem_append.mp spelled
          rw [Tree.cellSum_cons, Tree.namesEach_cons] at room ⊢
          rw [List.cons_append] at reads
          have firstRoom := room.mono (Nat.le_add_right _ _) (List.subset_append_left _ _)
          cases reads with
          | failed inner =>
              obtain ⟨⟨value, impossible⟩, -⟩ := succeeds_of_spells first inFront rfl inner firstRoom
              cases impossible
          | more inner later =>
              obtain ⟨-, left, uses⟩ := succeeds_of_spells first inFront rfl inner firstRoom
              rw [left] at later
              obtain ⟨values, rfl, length, laterUses⟩ := ih others inBack later (room.after uses)
              exact ⟨_ :: values, rfl, congrArg (· + 1) length, uses.trans laterUses⟩

end Reader

namespace Heap

/-- A source that spells some trees is read as the list of them if there is room for that. -/
theorem exists_parse_of_spellsEach {heap : Heap} (keywords : heap.KeywordsNamed) {source : String}
    {trees : List Tree} (spells : SpellsEach (Token.ofSource source) trees)
    (room : heap.HasRoom (Tree.cellCountEach trees) (Tree.namesEach trees)) :
    ∃ list after, heap.parse source = (.ok list, after) ∧ after.Unfolds list (.list trees) := by
  have reads := Reader.forms_reads (Reader.ofSource heap source)
  have succeeds : ∃ list, (heap.parse source).1 = .ok list := by
    rw [Tree.cellCountEach_eq] at room
    have formsRoom := room.mono (Nat.le_add_right _ _) (List.Subset.refl _)
    obtain ⟨values, read, length, uses⟩ :=
      reads.succeeds_of_spellsEach spells (fun _ => Token.isSpelled_of_mem_ofSource) formsRoom
    have room : heap.HasRoom (Tree.cellSum trees + values.length) (Tree.namesEach trees ++ []) := by
      rw [length, List.append_nil]
      exact room
    have left := room.after uses
    unfold parse readForms
    generalize (Reader.ofSource heap source).forms = result at read left ⊢
    obtain ⟨outcome, reader⟩ := result
    cases read
    exact left.listOf.1
  obtain ⟨list, succeeded⟩ := succeeds
  have agrees := parse_follows keywords source fun error failed => by
    rw [succeeded] at failed
    cases failed
  rw [Pushdown.run_start_eq_ok_iff.mpr spells, succeeded] at agrees
  cases agrees with
  | ok unfolds => exact ⟨list, _, by rw [← succeeded], unfolds⟩

end Heap

end TaggedLisp
