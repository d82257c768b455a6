import TaggedLisp.Proofs.Reader.Room
import TaggedLisp.Proofs.SymbolTable

/-! What reading leaves in a heap, exactly: the names of the symbol tokens that were read are interned
in their order, also if something fails later on, and a form that is read takes one cell for each cell
of its tree. -/

set_option autoImplicit false

namespace TaggedLisp

/-! ## Symbols -/

/-- The texts of the symbol tokens. -/
def Token.symbolTexts (tokens : List Token) : List String :=
  (tokens.filter (·.kind = .symbol)).map Token.text

theorem Token.symbolTexts_append (tokens others : List Token) :
    symbolTexts (tokens ++ others) = symbolTexts tokens ++ symbolTexts others := by
  simp [symbolTexts]

theorem Token.symbolTexts_cons_of_symbol {token : Token} (kind : token.kind = .symbol)
    (tokens : List Token) : symbolTexts (token :: tokens) = token.text :: symbolTexts tokens := by
  simp [symbolTexts, kind]

theorem Token.symbolTexts_cons_of_ne {token : Token} (kind : token.kind ≠ .symbol)
    (tokens : List Token) : symbolTexts (token :: tokens) = symbolTexts tokens := by
  simp [symbolTexts, kind]

namespace Reader

/-- The tokens that were read are gone from the front, and their symbols are interned. -/
def Interns (heap : Heap) (tokens : List Token) (after : Reader) : Prop :=
  ∃ front, tokens = front ++ after.tokens ∧
    after.heap.symbols = heap.symbols.internEach (Token.symbolTexts front)

theorem Interns.refl (heap : Heap) (tokens : List Token) (depth : Nat) :
    Interns heap tokens ⟨tokens, heap, depth⟩ :=
  ⟨[], rfl, rfl⟩

theorem Interns.skip {heap : Heap} {token : Token} {tokens : List Token} {after : Reader}
    (kind : token.kind ≠ .symbol) (interns : Interns heap tokens after) :
    Interns heap (token :: tokens) after := by
  obtain ⟨front, rfl, symbols⟩ := interns
  exact ⟨token :: front, rfl, by rw [symbols, Token.symbolTexts_cons_of_ne kind]⟩

theorem Interns.trans {heap : Heap} {tokens : List Token} {middle after : Reader}
    (first : Interns heap tokens middle) (rest : Interns middle.heap middle.tokens after) :
    Interns heap tokens after := by
  obtain ⟨front, rfl, symbols⟩ := first
  obtain ⟨back, left, laterSymbols⟩ := rest
  refine ⟨front ++ back, by rw [left, List.append_assoc], ?_⟩
  rw [laterSymbols, symbols, Token.symbolTexts_append, SymbolTable.internEach_append]

theorem Interns.of_listOf {heap middle after : Heap} {tokens rest : List Token} {depth : Nat}
    (interns : Interns heap tokens ⟨rest, middle, depth⟩) (adds : middle.AddsCells after)
    (laterDepth : Nat) : Interns heap tokens ⟨rest, after, laterDepth⟩ := by
  obtain ⟨front, split, symbols⟩ := interns
  exact ⟨front, split, adds.symbols.trans symbols⟩

theorem Reads.interns {goal : Goal} {heap : Heap} {depth : Nat} {tokens : List Token}
    {outcome : Except Error Value} {after : Reader}
    (reads : Reads goal heap depth tokens outcome after) :
    Interns heap (goal.input tokens) after := by
  induction reads with
  | @symbol heap _ token _ kind =>
      refine ⟨[token], rfl, ?_⟩
      rw [Token.symbolTexts_cons_of_symbol kind]
      rfl
  | @unexpectedEnd heap depth _ tokens kind | @invalid heap depth _ tokens kind
  | @quoteAtEnd heap depth _ kind =>
      exact .skip (by rw [kind]; decide) (.refl heap _ depth)
  | @quoteBeforeListEnd heap depth _ _ rest marks closes =>
      exact .skip (by rw [marks]; decide) (.skip (by rw [closes]; decide) (.refl heap rest depth))
  | unterminated => exact .refl _ _ _
  | list opens _ ih => exact .skip (by rw [opens]; decide) ih
  | quoteFailed marks _ _ ih => exact .skip (by rw [marks]; decide) ih
  | quote marks _ _ ih =>
      exact .skip (by rw [marks]; decide) (ih.of_listOf (Heap.listOf_addsCells _ _) _)
  | @close heap depth readSoFar token rest closes =>
      have skipped : Interns heap (token :: rest) ⟨rest, heap, depth⟩ :=
        .skip (by rw [closes]; decide) (.refl heap rest depth)
      exact skipped.of_listOf (heap.listOf_addsCells _) _
  | elementFailed _ _ ih => exact ih
  | element _ _ _ firstIH othersIH => exact firstIH.trans othersIH

/-- Reading adds symbols and cells only. -/
theorem Reads.records_eq {goal : Goal} {heap : Heap} {depth : Nat} {tokens : List Token}
    {outcome : Except Error Value} {after : Reader}
    (reads : Reads goal heap depth tokens outcome after) :
    after.heap.lambdas = heap.lambdas ∧ after.heap.errors = heap.errors := by
  induction reads with
  | symbol | unexpectedEnd | invalid | quoteAtEnd | quoteBeforeListEnd | unterminated =>
      exact ⟨rfl, rfl⟩
  | list _ _ ih | quoteFailed _ _ _ ih | elementFailed _ _ ih => exact ih
  | quote _ _ _ ih =>
      exact ⟨(Heap.listOf_addsCells ..).lambdas.trans ih.1,
        (Heap.listOf_addsCells ..).errors.trans ih.2⟩
  | close => exact ⟨(Heap.listOf_addsCells ..).lambdas, (Heap.listOf_addsCells ..).errors⟩
  | element _ _ _ firstIH othersIH =>
      exact ⟨othersIH.1.trans firstIH.1, othersIH.2.trans firstIH.2⟩

theorem ReadsForms.records_eq {heap : Heap} {depth : Nat} {tokens : List Token}
    {outcome : Except Error (List Value)} {after : Reader}
    (reads : ReadsForms heap depth tokens outcome after) :
    after.heap.lambdas = heap.lambdas ∧ after.heap.errors = heap.errors := by
  induction reads with
  | done => exact ⟨rfl, rfl⟩
  | failed first => exact first.records_eq
  | more first _ ih =>
      obtain ⟨lambdas, errors⟩ := first.records_eq
      exact ⟨ih.1.trans lambdas, ih.2.trans errors⟩

/-- A source that can be read is read to its end. -/
theorem ReadsForms.symbols_eq {heap : Heap} {depth : Nat} {tokens : List Token}
    {outcome : Except Error (List Value)} {after : Reader}
    (reads : ReadsForms heap depth tokens outcome after) {values : List Value}
    (succeeded : outcome = .ok values) :
    after.heap.symbols = heap.symbols.internEach (Token.symbolTexts tokens) := by
  induction reads generalizing values with
  | done => rfl
  | failed => cases succeeded
  | @more _ _ _ _ _ middle outcome _ first _ ih =>
      cases outcome with
      | error => cases succeeded
      | ok others =>
          obtain ⟨front, split, symbols⟩ := first.interns
          rw [Goal.input] at split
          rw [ih rfl, symbols, split, Token.symbolTexts_append, SymbolTable.internEach_append]

end Reader

/-! ## Limits -/

/-- Neither the cells nor the symbols have passed their limit. -/
structure Heap.WithinLimits (heap : Heap) : Prop where
  cells : heap.cells.size ≤ heap.maxCells
  symbols : heap.symbols.size ≤ heap.symbols.capacity

theorem Heap.WellFormed.withinLimits {heap : Heap} (wellFormed : heap.WellFormed) :
    heap.WithinLimits :=
  ⟨wellFormed.cells_size_le, wellFormed.symbols_size_le⟩

theorem Heap.AddsCells.withinLimits {before after : Heap} (adds : before.AddsCells after)
    (limits : before.WithinLimits) : after.WithinLimits where
  cells := adds.bounded limits.cells
  symbols := by
    rw [adds.symbols]
    exact limits.symbols

namespace Reader

theorem Reads.withinLimits {goal : Goal} {heap : Heap} {depth : Nat} {tokens : List Token}
    {outcome : Except Error Value} {after : Reader}
    (reads : Reads goal heap depth tokens outcome after) (limits : heap.WithinLimits) :
    after.heap.WithinLimits := by
  induction reads with
  | symbol =>
      exact ⟨limits.cells, (SymbolTable.intern_interned ..).size_le_capacity limits.symbols⟩
  | unexpectedEnd | invalid | quoteAtEnd | quoteBeforeListEnd | unterminated => exact limits
  | list _ _ ih | quoteFailed _ _ _ ih | elementFailed _ _ ih => exact ih limits
  | quote _ _ _ ih => exact (Heap.listOf_addsCells ..).withinLimits (ih limits)
  | close => exact (Heap.listOf_addsCells ..).withinLimits limits
  | element _ _ _ firstIH othersIH => exact othersIH (firstIH limits)

theorem ReadsForms.withinLimits {heap : Heap} {depth : Nat} {tokens : List Token}
    {outcome : Except Error (List Value)} {after : Reader}
    (reads : ReadsForms heap depth tokens outcome after) (limits : heap.WithinLimits) :
    after.heap.WithinLimits := by
  induction reads with
  | done => exact limits
  | failed first => exact first.withinLimits limits
  | more first _ ih => exact ih (first.withinLimits limits)

end Reader

/-! ## Cells -/

namespace Reader

/-- What a goal that succeeds has built: a form, or the list of the elements before and after it. -/
def Goal.Builds (goal : Goal) (before after : Heap) (value : Value) : Prop :=
  match goal with
  | .form _ => ∃ tree, after.Unfolds value tree ∧
      after.cells.size = before.cells.size + tree.cellCount
  | .elements readSoFar => ∀ trees, List.Forall₂ before.Unfolds readSoFar trees →
      ∃ more, after.Unfolds value (.list (trees.reverse ++ more)) ∧
        after.cells.size = before.cells.size + trees.length + Tree.cellCountEach more

theorem Reads.builds {goal : Goal} {heap : Heap} {depth : Nat} {tokens : List Token}
    {outcome : Except Error Value} {after : Reader}
    (reads : Reads goal heap depth tokens outcome after) (keywords : heap.KeywordsNamed)
    {value : Value} (succeeded : outcome = .ok value) : goal.Builds heap after.heap value := by
  induction reads generalizing value with
  | @symbol heap _ token _ kind =>
      obtain ⟨id, rfl, named⟩ := Heap.named_of_symbol succeeded
      refine ⟨.symbol token.text, .symbol named, ?_⟩
      rw [Tree.cellCount_symbol, Nat.add_zero]
      rfl
  | unexpectedEnd | invalid | quoteAtEnd | quoteBeforeListEnd | quoteFailed | unterminated
  | elementFailed => cases succeeded
  | list _ _ ih =>
      obtain ⟨more, unfolds, size⟩ := ih keywords succeeded [] .nil
      refine ⟨.list more, by simpa using unfolds, ?_⟩
      simpa using size
  | @quote heap _ _ _ _ quoted after _ _ inner ih =>
      obtain ⟨tree, unfolds, size⟩ := ih keywords rfl
      have keyword := (keywords.grow inner.growsTo).quote
      have each : List.Forall₂ after.heap.Unfolds
          [.symbol after.heap.keywords.quote, quoted] [.symbol "quote", tree] :=
        .cons (.symbol keyword) (.cons unfolds .nil)
      rcases Heap.listOf_outOfMemory_or_unfolds each with ⟨full, -⟩ | ⟨list, built, unfolds, more⟩
      · cases full.symm.trans succeeded
      · cases built.symm.trans succeeded
        refine ⟨tree.quoted, unfolds, ?_⟩
        rw [Tree.cellCount_quoted]
        simp only [List.length_cons, List.length_nil] at more
        simp only [Heap.quote]
        omega
  | close =>
      intro trees each
      rcases Heap.listOf_outOfMemory_or_unfolds (List.forall₂_reverse_iff.mpr each) with
        ⟨full, -⟩ | ⟨list, built, unfolds, more⟩
      · cases full.symm.trans succeeded
      · cases built.symm.trans succeeded
        refine ⟨[], by simpa using unfolds, ?_⟩
        simpa using more
  | @element heap _ readSoFar _ _ value after _ _ _ first _ firstIH othersIH =>
      intro trees each
      obtain ⟨tree, unfolds, size⟩ := firstIH keywords rfl
      have each := Heap.unfoldsEach_grow first.growsTo each
      obtain ⟨more, listUnfolds, laterSize⟩ :=
        othersIH (keywords.grow first.growsTo) succeeded (tree :: trees) (.cons unfolds each)
      refine ⟨tree :: more, by simpa using listUnfolds, ?_⟩
      rw [Tree.cellCountEach_cons]
      simp only [List.length_cons] at laterSize
      omega

theorem ReadsForms.size_eq {heap : Heap} {depth : Nat} {tokens : List Token}
    {outcome : Except Error (List Value)} {after : Reader}
    (reads : ReadsForms heap depth tokens outcome after) (keywords : heap.KeywordsNamed)
    {values : List Value} (succeeded : outcome = .ok values) {trees : List Tree}
    (each : List.Forall₂ after.heap.Unfolds values trees) :
    after.heap.cells.size = heap.cells.size + Tree.cellSum trees := by
  induction reads generalizing values trees with
  | done =>
      cases succeeded
      cases each
      rfl
  | failed => cases succeeded
  | @more _ _ _ _ _ _ outcome _ first others ih =>
      cases outcome with
      | error => cases succeeded
      | ok later =>
          cases succeeded
          cases each with
          | cons unfolds each =>
              obtain ⟨tree, firstUnfolds, size⟩ := first.builds keywords rfl
              cases (firstUnfolds.grow others.growsTo).unique unfolds
              have laterSize := ih (keywords.grow first.growsTo) rfl each
              rw [Tree.cellSum_cons]
              omega

end Reader

/-! ## Sources -/

namespace Heap

theorem WithinLimits.parse {heap : Heap} (limits : heap.WithinLimits) (source : String) :
    (heap.parse source).2.WithinLimits ∧ (heap.parse source).2.lambdas = heap.lambdas := by
  have reads := Reader.forms_reads (Reader.ofSource heap source)
  have read := reads.withinLimits limits
  have lambdas : _ = heap.lambdas := reads.records_eq.1
  unfold Heap.parse readForms
  generalize (Reader.ofSource heap source).forms = result at read lambdas ⊢
  obtain ⟨outcome, reader⟩ := result
  cases outcome with
  | error => exact ⟨read, lambdas⟩
  | ok forms =>
      have adds := reader.heap.listOf_addsCells forms
      exact ⟨adds.withinLimits read, adds.lambdas.trans lambdas⟩

/-- What reading a source that spells the trees leaves: forms that stand for the trees, one cell for
each cell of the trees, the symbols of the source, and nothing else. -/
structure ReadsExactly (heap : Heap) (source : String) (trees : List Tree) (forms : List Value)
    (after : Heap) : Prop where
  uses : heap.Uses (Tree.cellSum trees) (Tree.namesEach trees) after
  withinLimits : after.WithinLimits
  spells : SpellsEach (Token.ofSource source) trees
  unfolds : List.Forall₂ after.Unfolds forms trees
  size : after.cells.size = heap.cells.size + Tree.cellSum trees
  symbols : after.symbols = heap.symbols.internEach (Token.symbolTexts (Token.ofSource source))
  lambdas : after.lambdas = heap.lambdas
  errors : after.errors = heap.errors

variable {heap after : Heap} {source : String} {trees : List Tree} {forms : List Value}

/-- Names that a later heap has been given were names for which there was room. -/
theorem names_le_of_unfoldsEach (growth : heap.symbols.GrowsTo after.symbols)
    (limits : after.WithinLimits) (each : List.Forall₂ after.Unfolds forms trees) :
    (heap.symbols.nameSet ∪ (Tree.namesEach trees).toFinset).card ≤ heap.symbols.capacity := by
  have known := Finset.union_subset growth.nameSet_subset (names_subset_of_unfoldsEach each)
  calc (heap.symbols.nameSet ∪ (Tree.namesEach trees).toFinset).card
      ≤ after.symbols.nameSet.card := Finset.card_le_card known
    _ = after.symbols.size := after.symbols.card_nameSet
    _ ≤ after.symbols.capacity := limits.symbols
    _ = heap.symbols.capacity := growth.capacity

theorem exists_readsExactly (keywords : heap.KeywordsNamed) (limits : heap.WithinLimits)
    (read : heap.readForms source = (.ok forms, after)) :
    ∃ trees, heap.ReadsExactly source trees forms after := by
  have reads := Reader.forms_reads (Reader.ofSource heap source)
  have follows := reads.follows keywords (fun _ => Token.isSpelled_of_mem_ofSource) []
  change Reader.FollowsEach [] (Pushdown.start.run (Token.ofSource source)) _ _ at follows
  unfold readForms at read
  generalize (Reader.ofSource heap source).forms = result at reads follows read
  obtain ⟨outcome, reader⟩ := result
  cases read
  obtain ⟨trees, each, accepted⟩ := follows
  have spells := Pushdown.run_start_eq_ok_iff.mp accepted
  have growth : heap.GrowsTo reader.heap := reads.growsTo
  have withinLimits : reader.heap.WithinLimits := reads.withinLimits limits
  have size : reader.heap.cells.size = heap.cells.size + Tree.cellSum trees :=
    reads.size_eq keywords rfl each
  have room : heap.HasRoom (Tree.cellSum trees) (Tree.namesEach trees) := by
    refine ⟨?_, names_le_of_unfoldsEach growth.symbols withinLimits each⟩
    rw [← size, ← growth.maxCells]
    exact withinLimits.cells
  obtain ⟨-, -, -, uses⟩ :=
    reads.succeeds_of_spellsEach spells (fun _ => Token.isSpelled_of_mem_ofSource) room
  obtain ⟨lambdas, errors⟩ := reads.records_eq
  exact ⟨trees, uses, withinLimits, spells, each, size, reads.symbols_eq rfl, lambdas, errors⟩

theorem exists_readForms (keywords : heap.KeywordsNamed) (limits : heap.WithinLimits)
    (spells : SpellsEach (Token.ofSource source) trees)
    (room : heap.HasRoom (Tree.cellSum trees) (Tree.namesEach trees)) :
    ∃ forms after, heap.readForms source = (.ok forms, after) ∧
      heap.ReadsExactly source trees forms after := by
  have reads := Reader.forms_reads (Reader.ofSource heap source)
  obtain ⟨forms, read, -, -⟩ :=
    reads.succeeds_of_spellsEach spells (fun _ => Token.isSpelled_of_mem_ofSource) room
  have read : heap.readForms source = (.ok forms, (Reader.ofSource heap source).forms.2.heap) :=
    Prod.ext read rfl
  obtain ⟨others, exactly⟩ := exists_readsExactly keywords limits read
  cases exactly.spells.unique spells
  exact ⟨forms, _, read, exactly⟩

end Heap

end TaggedLisp
