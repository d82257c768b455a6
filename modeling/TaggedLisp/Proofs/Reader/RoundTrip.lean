import TaggedLisp.Proofs.Reader.Printed
import TaggedLisp.Proofs.Reader.Room

/-! Printing and reading are inverse to each other. What is printed from one heap can be read into
another, which gives the same tree in other cells; and what was read can be printed and read again,
which gives an equal value with the same text. -/

set_option autoImplicit false

namespace TaggedLisp

/-! ## What is read can be printed -/

mutual

theorem Spells.isReadable {tokens : List Token} {tree : Tree} (spells : Spells tokens tree)
    (spelled : ∀ token ∈ tokens, token.IsSpelled) : tree.isReadable = true := by
  cases spells with
  | symbol kind =>
      rw [Tree.isReadable]
      exact spelled _ List.mem_cons_self kind
  | list opens each closes =>
      obtain ⟨-, afterOpening⟩ := List.forall_mem_cons.mp spelled
      obtain ⟨inside, -⟩ := List.forall_mem_append.mp afterOpening
      rw [Tree.isReadable]
      exact each.isReadableEach inside
  | quote marks inner =>
      have readable := inner.isReadable (List.forall_mem_cons.mp spelled).2
      simp only [Tree.quoted, Tree.isReadable, Tree.isReadableEach, readable, Bool.and_true]
      decide

theorem SpellsEach.isReadableEach {tokens : List Token} {trees : List Tree}
    (spells : SpellsEach tokens trees) (spelled : ∀ token ∈ tokens, token.IsSpelled) :
    Tree.isReadableEach trees = true := by
  cases spells with
  | nil => rw [Tree.isReadableEach]
  | cons first others =>
      obtain ⟨inFront, inBack⟩ := List.forall_mem_append.mp spelled
      have head := first.isReadable inFront
      have tail := others.isReadableEach inBack
      rw [Tree.isReadableEach, head, tail]
      rfl

end

namespace Heap

/-- Reading the text of a readable tree gives a list of one form, which stands for the tree. -/
theorem exists_parse_text {heap : Heap} (keywords : heap.KeywordsNamed) {tree : Tree}
    (readable : tree.isReadable = true) (room : heap.HasRoom (tree.cellCount + 1) tree.names) :
    ∃ list form after, heap.parse tree.text = (.ok list, after) ∧
      after.toList list = .ok (.ok [form]) ∧ after.Unfolds form tree ∧ heap.GrowsTo after := by
  have single : heap.HasRoom (Tree.cellCountEach [tree]) (Tree.namesEach [tree]) := by
    simpa [Nat.add_comm] using room
  obtain ⟨list, after, parsed, unfolds⟩ :=
    exists_parse_of_spellsEach keywords (Token.spells_ofSource_text readable) single
  obtain ⟨values, each, -, listed, -⟩ := unfolds.exists_elements
  have growth := heap.parse_growsTo tree.text
  rw [parsed] at growth
  cases each with
  | cons formUnfolds none =>
      cases none
      exact ⟨list, _, after, parsed, listed, formUnfolds, growth⟩

theorem WellFormed.exists_readable_of_parse {heap after : Heap} (wellFormed : heap.WellFormed)
    {source : String} {list : Value} (parsed : heap.parse source = (.ok list, after)) :
    ∃ tree, after.Unfolds list tree ∧ tree.isReadable = true := by
  have agrees := parse_follows wellFormed.keywords source fun error failed => by
    rw [parsed] at failed
    cases failed
  rw [parsed] at agrees
  generalize accepted : Pushdown.start.run (Token.ofSource source) = expected at agrees
  cases expected with
  | error => cases agrees
  | ok trees =>
      cases agrees with
      | ok unfolds =>
          refine ⟨_, unfolds, ?_⟩
          rw [Tree.isReadable]
          exact (Pushdown.run_start_eq_ok_iff.mp accepted).isReadableEach
            fun _ => Token.isSpelled_of_mem_ofSource

/-- A heap needs no room for symbols to read the text of what is in it. -/
theorem WellFormed.hasRoom_of_unfolds {heap : Heap} (wellFormed : heap.WellFormed) {value : Value}
    {tree : Tree} (unfolds : heap.Unfolds value tree) {cells : Nat}
    (room : heap.cells.size + cells ≤ heap.maxCells) : heap.HasRoom cells tree.names where
  cells := room
  names := by
    rw [Finset.union_eq_left.mpr unfolds.names_subset, SymbolTable.card_nameSet]
    exact wellFormed.symbols_size_le

/-- Reading the text of a value of lists and symbols gives a list of one form with the datum of the
value, in any heap with room for it. So does reading what was read once more: it gives an equal form,
whose text is the same. -/
theorem parse_display :
    (∀ {heap target : Heap} {value : Value} {tree : Tree}, heap.Unfolds value tree →
      tree.isReadable = true → target.KeywordsNamed →
      target.HasRoom (tree.cellCount + 1) tree.names →
      ∃ text list form after, heap.display value = .ok text ∧
        target.parse text = (.ok list, after) ∧ after.toList list = .ok (.ok [form]) ∧
        after.toDatum form = heap.toDatum value) ∧
    (∀ {heap after : Heap} {source : String} {list : Value}, heap.WellFormed →
      heap.parse source = (.ok list, after) →
      ∃ tree, after.Unfolds list tree ∧
        (after.cells.size + (tree.cellCount + 1) ≤ after.maxCells →
          ∃ text again form final, after.display list = .ok text ∧
            after.parse text = (.ok again, final) ∧ final.toList again = .ok (.ok [form]) ∧
            final.isEqual form list = .ok true ∧ final.display form = .ok text)) := by
  constructor
  · intro heap target value tree unfolds readable keywords room
    obtain ⟨list, form, after, parsed, listed, formUnfolds, -⟩ :=
      exists_parse_text keywords readable room
    refine ⟨_, list, form, after, unfolds.display, parsed, listed, ?_⟩
    rw [formUnfolds.toDatum, unfolds.toDatum]
  · intro heap after source list wellFormed parsed
    obtain ⟨tree, unfolds, readable⟩ := wellFormed.exists_readable_of_parse parsed
    refine ⟨tree, unfolds, fun room => ?_⟩
    have readWellFormed : after.WellFormed := by
      have keeps := wellFormed.keeps_parse source
      rw [parsed] at keeps
      exact keeps.wellFormed
    obtain ⟨again, form, final, parsedAgain, listed, formUnfolds, growth⟩ :=
      exists_parse_text readWellFormed.keywords readable
        (readWellFormed.hasRoom_of_unfolds unfolds room)
    refine ⟨_, again, form, final, unfolds.display, parsedAgain, listed, ?_, formUnfolds.display⟩
    rw [formUnfolds.isEqual (unfolds.grow growth), Tree.isSame_refl]

theorem parse_display_of_keyword :
    ∃ heap text list form after listText again second final, Heap.new {} = .ok heap ∧
      heap.display (.symbol heap.keywords.quote) = .ok text ∧
      heap.parse text = (.ok list, after) ∧ after.toList list = .ok (.ok [form]) ∧
      after.toDatum form = heap.toDatum (.symbol heap.keywords.quote) ∧
      after.display list = .ok listText ∧ after.parse listText = (.ok again, final) ∧
      final.toList again = .ok (.ok [second]) ∧ final.isEqual second list = .ok true := by
  have created : Heap.new {} = .ok ((Heap.new {}).toOption.get (by decide)) := rfl
  have cells : ((Heap.new {}).toOption.get (by decide)).cells.size + 5 ≤
      ((Heap.new {}).toOption.get (by decide)).maxCells := by decide
  generalize (Heap.new {}).toOption.get (by decide) = heap at created cells
  have wellFormed := wellFormed_new created
  have unfolds : heap.Unfolds (.symbol heap.keywords.quote) (.symbol "quote") :=
    .symbol wellFormed.keywords.quote
  have readable : (Tree.symbol "quote").isReadable = true := by decide
  have room : heap.HasRoom ((Tree.symbol "quote").cellCount + 1) (Tree.symbol "quote").names :=
    wellFormed.hasRoom_of_unfolds unfolds (by simp only [Tree.cellCount_symbol]; omega)
  obtain ⟨text, list, form, after, displayed, parsed, listed, same⟩ :=
    parse_display.1 unfolds readable wellFormed.keywords room
  cases displayed.symm.trans unfolds.display
  rw [Tree.text] at parsed displayed
  -- One token takes three cells at most, so there is room to read the list once more.
  have used := Reader.parse_keepsToDemand heap "quote"
  have oneToken : (Token.ofSource "quote").length = 1 := by decide
  have growth := heap.parse_growsTo "quote"
  rw [parsed, oneToken] at used
  rw [parsed] at growth
  have spells : SpellsEach (Token.ofSource "quote") [.symbol "quote"] :=
    Pushdown.run_start_eq_ok_iff.mp rfl
  obtain ⟨_, _, parsedAsList, listUnfolds⟩ :=
    exists_parse_of_spellsEach wellFormed.keywords spells (by simpa using room)
  cases parsed.symm.trans parsedAsList
  obtain ⟨tree, treeUnfolds, reads⟩ := parse_display.2 wellFormed parsed
  cases treeUnfolds.unique listUnfolds
  have moreRoom : after.cells.size +
      ((Tree.list [.symbol "quote"]).cellCount + 1) ≤ after.maxCells := by
    have bound : after.cells.size + 0 ≤ heap.cells.size + 3 * 1 := used.1
    have sameLimit : after.maxCells = heap.maxCells := growth.maxCells
    simp only [Tree.cellCount_list, Tree.cellCountEach_cons, Tree.cellCount_symbol,
      Tree.cellCountEach_nil]
    omega
  obtain ⟨listText, again, second, final, displayedList, parsedAgain, listedAgain, equal, -⟩ :=
    reads moreRoom
  exact ⟨heap, _, list, form, after, listText, again, second, final, created, displayed, parsed,
    listed, same, displayedList, parsedAgain, listedAgain, equal⟩

end Heap

end TaggedLisp
