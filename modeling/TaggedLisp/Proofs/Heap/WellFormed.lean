import TaggedLisp.Proofs.Heap.Allocation
import TaggedLisp.Proofs.Reader.Derivation

/-! A heap is well-formed if every cell refers to older cells only, every value in a cell points
inside the stores, and no limit is passed. Operations on values that point inside the stores keep a
heap well-formed, also when they fail. In a well-formed heap every such value stands for a tree. -/

set_option autoImplicit false

namespace TaggedLisp

namespace Heap

structure KeywordsNamed (heap : Heap) : Prop where
  definition : heap.symbols.name? heap.keywords.definition = some "def"
  quote : heap.symbols.name? heap.keywords.quote = some "quote"

/-- A link that may be stored in the cell of the given index: what it refers to is already there. -/
structure OlderLink (heap : Heap) (index : Nat) (link : Cell) : Prop where
  head : heap.contains link.head = true
  headOlder : ∀ cell, link.head = .list cell → cell < index
  tail : link.tail = .emptyList ∨ ∃ cell, link.tail = .list cell ∧ cell < index

structure WellFormed (heap : Heap) : Prop where
  links : ∀ {index : Nat} {link : Cell}, heap.cells[index]? = some link →
    heap.OlderLink index link
  cells_size_le : heap.cells.size ≤ heap.maxCells
  symbols_size_le : heap.symbols.size ≤ heap.symbols.capacity
  keywords : heap.KeywordsNamed

theorem KeywordsNamed.grow {before after : Heap} (growth : before.GrowsTo after)
    (named : before.KeywordsNamed) : after.KeywordsNamed where
  definition := growth.keywords ▸ growth.symbols.names named.definition
  quote := growth.keywords ▸ growth.symbols.names named.quote

theorem OlderLink.grow {before after : Heap} (growth : before.GrowsTo after) {index : Nat}
    {link : Cell} (older : before.OlderLink index link) : after.OlderLink index link where
  head := growth.contains older.head
  headOlder := older.headOlder
  tail := older.tail

private theorem exists_unfolds_or_cell {heap : Heap} {value : Value}
    (contained : heap.contains value = true) :
    (∃ tree, heap.Unfolds value tree) ∨ ∃ cell, value = .list cell ∧ cell < heap.cells.size := by
  cases value with
  | internal => exact .inl ⟨_, .internal⟩
  | emptyList => exact .inl ⟨_, .emptyList⟩
  | error record =>
      exact .inl ⟨_, .error (Array.getElem?_eq_getElem (of_decide_eq_true contained))⟩
  | symbol id =>
      obtain ⟨name, named⟩ := SymbolTable.exists_name_of_lt_size (of_decide_eq_true contained)
      exact .inl ⟨_, .symbol named⟩
  | list cell => exact .inr ⟨cell, rfl, of_decide_eq_true contained⟩
  | lambda record =>
      exact .inl ⟨_, .lambda (Array.getElem?_eq_getElem (of_decide_eq_true contained))⟩

private theorem WellFormed.exists_cell_unfolds {heap : Heap} (wellFormed : heap.WellFormed)
    (cell : Nat) (inside : cell < heap.cells.size) :
    ∃ elements, heap.Unfolds (.list cell) (.list elements) := by
  induction cell using Nat.strongRecOn with
  | _ cell ih =>
      have found : heap.cells[cell]? = some heap.cells[cell] := Array.getElem?_eq_getElem inside
      have older := wellFormed.links found
      -- Head and tail are older cells, so the induction is on the index and not on the tree.
      have below : ∀ {inner}, inner < cell →
          ∃ elements, heap.Unfolds (.list inner) (.list elements) := by
        intro inner less
        exact ih inner less (Nat.lt_trans less inside)
      obtain ⟨element, head⟩ : ∃ element, heap.Unfolds heap.cells[cell].head element := by
        rcases exists_unfolds_or_cell older.head with unfolds | ⟨inner, shape, -⟩
        · exact unfolds
        · obtain ⟨elements, unfolds⟩ := below (older.headOlder inner shape)
          exact ⟨_, shape ▸ unfolds⟩
      rcases older.tail with atEnd | ⟨next, more, less⟩
      · exact ⟨[element], .list found head (atEnd ▸ .emptyList)⟩
      · obtain ⟨elements, tail⟩ := below less
        exact ⟨element :: elements, .list found head (more ▸ tail)⟩

theorem WellFormed.exists_unfolds {heap : Heap} (wellFormed : heap.WellFormed) {value : Value}
    (contained : heap.contains value = true) : ∃ tree, heap.Unfolds value tree := by
  rcases exists_unfolds_or_cell contained with unfolds | ⟨cell, rfl, inside⟩
  · exact unfolds
  · obtain ⟨elements, unfolds⟩ := wellFormed.exists_cell_unfolds cell inside
    exact ⟨_, unfolds⟩

theorem WellFormed.exists_unfolds_list {heap : Heap} (wellFormed : heap.WellFormed) {value : Value}
    (contained : heap.contains value = true) (isList : value.isList = true) :
    ∃ elements, heap.Unfolds value (.list elements) := by
  cases value with
  | emptyList => exact ⟨[], .emptyList⟩
  | list cell => exact wellFormed.exists_cell_unfolds cell (of_decide_eq_true contained)
  | _ => cases isList

theorem WellFormed.exists_toList {heap : Heap} (wellFormed : heap.WellFormed) {value : Value}
    (contained : heap.contains value = true) :
    heap.toList value = .ok (.error .notAList) ∨
      ∃ values, heap.toList value = .ok (.ok values) ∧
        ∀ element ∈ values, heap.contains element = true := by
  cases isList : value.isList with
  | false =>
      refine .inl ?_
      simp only [toList, isList]
      rfl
  | true =>
      obtain ⟨trees, unfolds⟩ := wellFormed.exists_unfolds_list contained isList
      obtain ⟨values, each, -, listed, -⟩ := unfolds.exists_elements
      exact .inr ⟨values, listed, contains_of_unfoldsEach each⟩

/-! ## Operations keep a heap well-formed -/

/-- A fresh heap has interned its two keywords one after the other, and nothing else. -/
inductive Fresh (settings : Settings) : Heap → Prop where
  | intro {definition quote : Nat} {first second : SymbolTable} :
      (SymbolTable.empty settings.maxSymbols).Interned "def" (.ok definition, first) →
      first.Interned "quote" (.ok quote, second) →
      Fresh settings
        { symbols := second
          cells := #[]
          lambdas := #[]
          errors := #[]
          maxCells := min settings.maxCells indexLimit
          keywords := { definition, quote } }

theorem fresh_new {settings : Settings} {heap : Heap} (created : Heap.new settings = .ok heap) :
    Fresh settings heap := by
  unfold new at created
  have first := (SymbolTable.empty settings.maxSymbols).intern_interned "def"
  split at created
  · cases created
  · next definition symbols firstResult =>
    rw [firstResult] at first
    have second := symbols.intern_interned "quote"
    split at created
    · cases created
    · next quote symbols secondResult =>
      rw [secondResult] at second
      cases created
      exact .intro first second

theorem wellFormed_new {settings : Settings} {heap : Heap}
    (created : Heap.new settings = .ok heap) : heap.WellFormed := by
  cases fresh_new created with
  | intro first second =>
      have bounded := second.size_le_capacity (first.size_le_capacity (Nat.zero_le _))
      exact
        { links := fun found => by simp at found
          cells_size_le := Nat.zero_le _
          symbols_size_le := bounded
          keywords := ⟨second.growsTo.names first.name?, second.name?⟩ }

/-- What an operation on a well-formed heap has to leave, whether it succeeds or fails. -/
structure Keeps (heap : Heap) (outcome : Except Error Value) (after : Heap) : Prop where
  growsTo : heap.GrowsTo after
  wellFormed : after.WellFormed
  contained : ∀ value, outcome = .ok value → after.contains value = true

theorem Keeps.of_error {heap after : Heap} {error : Error} (growsTo : heap.GrowsTo after)
    (wellFormed : after.WellFormed) : heap.Keeps (.error error) after :=
  ⟨growsTo, wellFormed, fun _ failed => by cases failed⟩

theorem WellFormed.keeps_error {heap : Heap} (wellFormed : heap.WellFormed) (error : Error) :
    heap.Keeps (.error error) heap :=
  .of_error (.refl heap) wellFormed

theorem WellFormed.keeps_ok {heap : Heap} (wellFormed : heap.WellFormed) {value : Value}
    (contained : heap.contains value = true) : heap.Keeps (.ok value) heap :=
  ⟨.refl heap, wellFormed, fun _ same => by cases same; exact contained⟩

private theorem WellFormed.with_same_cells {heap after : Heap} (wellFormed : heap.WellFormed)
    (growth : heap.GrowsTo after) (cells : after.cells = heap.cells)
    (symbols : after.symbols.size ≤ after.symbols.capacity) : after.WellFormed where
  links found := (wellFormed.links (cells ▸ found)).grow growth
  cells_size_le := by
    rw [cells, growth.maxCells]
    exact wellFormed.cells_size_le
  symbols_size_le := symbols
  keywords := wellFormed.keywords.grow growth

theorem WellFormed.intern {heap : Heap} (wellFormed : heap.WellFormed) (name : String) :
    (heap.intern name).2.WellFormed :=
  wellFormed.with_same_cells (heap.intern_growsTo name) rfl
    ((heap.symbols.intern_interned name).size_le_capacity wellFormed.symbols_size_le)

theorem WellFormed.keeps_symbol {heap : Heap} (wellFormed : heap.WellFormed) (name : String) :
    heap.Keeps (heap.symbol name).1 (heap.symbol name).2 := by
  refine ⟨heap.symbol_growsTo name, wellFormed.intern name, fun value succeeded => ?_⟩
  have interned := heap.symbols.intern_interned name
  simp only [symbol, Heap.intern] at succeeded ⊢
  generalize heap.symbols.intern name = result at interned succeeded ⊢
  obtain ⟨outcome, symbols⟩ := result
  cases outcome with
  | error => cases succeeded
  | ok id =>
      cases succeeded
      exact decide_eq_true (SymbolTable.lt_size_of_name? interned.name?)

theorem WellFormed.keeps_addLambda {heap : Heap} (wellFormed : heap.WellFormed)
    (lambda : Lambda) :
    heap.Keeps (heap.addLambda lambda).1 (heap.addLambda lambda).2 := by
  have growth := heap.addLambda_growsTo lambda
  unfold addLambda at growth ⊢
  split at growth <;> rename_i room
  · simpa only [if_pos room] using wellFormed.keeps_error _
  · rw [if_neg room]
    refine ⟨growth, wellFormed.with_same_cells growth rfl wellFormed.symbols_size_le, ?_⟩
    intro value same
    cases same
    simp [Heap.contains]

theorem WellFormed.keeps_addError {heap : Heap} (wellFormed : heap.WellFormed) (error : Error) :
    heap.Keeps (.ok (heap.addError error).1) (heap.addError error).2 := by
  have growth := heap.addError_growsTo error
  unfold addError at growth ⊢
  split at growth
  · exact wellFormed.keeps_ok rfl
  · exact wellFormed.keeps_ok rfl
  · split at growth <;> rename_i room
    · rw [if_pos room]
      refine ⟨growth, wellFormed.with_same_cells growth rfl wellFormed.symbols_size_le, ?_⟩
      intro value same
      cases same
      simp [Heap.contains]
    · rw [if_neg room]
      exact wellFormed.keeps_ok rfl

/-- A new cell refers to older cells only, because what it is built from was contained. -/
theorem WellFormed.keeps_cons {heap : Heap} (wellFormed : heap.WellFormed) {head tail : Value}
    (headContained : heap.contains head = true) (tailContained : heap.contains tail = true) :
    heap.Keeps (heap.cons head tail).1 (heap.cons head tail).2 := by
  have growth := heap.cons_growsTo head tail
  have consed := heap.cons_conses head tail
  generalize heap.cons head tail = result at growth consed ⊢
  cases consed with
  | refused => exact wellFormed.keeps_error _
  | full => exact wellFormed.keeps_error _
  | added isList room =>
      have newest : heap.OlderLink heap.cells.size ⟨head, tail⟩ := by
        refine ⟨headContained, ?_, ?_⟩
        · intro cell shape
          subst shape
          exact of_decide_eq_true headContained
        · cases tail with
          | emptyList => exact .inl rfl
          | list cell => exact .inr ⟨cell, rfl, of_decide_eq_true tailContained⟩
          | _ => cases isList
      refine ⟨growth, ⟨fun {index link} found => ?_, ?_, wellFormed.symbols_size_le,
        wellFormed.keywords.grow growth⟩, ?_⟩
      · rw [Array.getElem?_push] at found
        split at found
        · next last =>
          cases found
          exact last ▸ newest.grow growth
        · exact (wellFormed.links found).grow growth
      · rw [Array.size_push]
        exact room
      · intro value same
        cases same
        simp [Heap.contains]

theorem WellFormed.keeps_listOf {heap : Heap} (wellFormed : heap.WellFormed)
    {values : List Value} (contained : ∀ value ∈ values, heap.contains value = true) :
    heap.Keeps (heap.listOf values).1 (heap.listOf values).2 := by
  induction values with
  | nil => exact wellFormed.keeps_ok rfl
  | cons value values ih =>
      have rest := ih fun other member => contained other (List.mem_cons_of_mem _ member)
      rw [listOf_cons]
      split
      · next tail middle result =>
        rw [result] at rest
        have last := rest.wellFormed.keeps_cons
          (rest.growsTo.contains (contained value List.mem_cons_self)) (rest.contained tail rfl)
        exact ⟨rest.growsTo.trans last.growsTo, last.wellFormed, last.contained⟩
      · next error middle result =>
        rw [result] at rest
        exact .of_error rest.growsTo rest.wellFormed

theorem WellFormed.keeps_quote {heap : Heap} (wellFormed : heap.WellFormed) {value : Value}
    (contained : heap.contains value = true) :
    heap.Keeps (heap.quote value).1 (heap.quote value).2 := by
  refine wellFormed.keeps_listOf fun element member => ?_
  rcases List.mem_cons.mp member with rfl | member
  · exact decide_eq_true (SymbolTable.lt_size_of_name? wellFormed.keywords.quote)
  · exact List.mem_singleton.mp member ▸ contained

/-- Reading keeps the heap well-formed wherever it stops, as long as the elements read so far are
contained. -/
theorem WellFormed.keeps_reads {goal : Reader.Goal} {heap : Heap} {depth : Nat}
    {tokens : List Token} {outcome : Except Error Value} {after : Reader}
    (reads : Reader.Reads goal heap depth tokens outcome after) (wellFormed : heap.WellFormed)
    (contained : ∀ readSoFar, goal = .elements readSoFar →
      ∀ value ∈ readSoFar, heap.contains value = true) :
    heap.Keeps outcome after.heap := by
  induction reads with
  | symbol => exact wellFormed.keeps_symbol _
  | unexpectedEnd | invalid | quoteAtEnd | quoteBeforeListEnd | unterminated =>
      exact wellFormed.keeps_error _
  | list _ _ ih => exact ih wellFormed fun _ same => by cases same; simp
  | quoteFailed _ _ _ ih | elementFailed _ _ ih => exact ih wellFormed fun _ other => by cases other
  | quote _ _ _ ih =>
      have inner := ih wellFormed fun _ other => by cases other
      have outer := inner.wellFormed.keeps_quote (inner.contained _ rfl)
      exact ⟨inner.growsTo.trans outer.growsTo, outer.wellFormed, outer.contained⟩
  | close =>
      exact wellFormed.keeps_listOf fun value member =>
        contained _ rfl value (List.mem_reverse.mp member)
  | element _ _ _ firstIH othersIH =>
      have first := firstIH wellFormed fun _ other => by cases other
      have others := othersIH first.wellFormed fun readSoFar same value member => by
        cases same
        rcases List.mem_cons.mp member with rfl | member
        · exact first.contained _ rfl
        · exact first.growsTo.contains (contained _ rfl value member)
      exact ⟨first.growsTo.trans others.growsTo, others.wellFormed, others.contained⟩

theorem WellFormed.keeps_readsForms {heap : Heap} {depth : Nat} {tokens : List Token}
    {outcome : Except Error (List Value)} {after : Reader}
    (reads : Reader.ReadsForms heap depth tokens outcome after) (wellFormed : heap.WellFormed) :
    after.heap.WellFormed ∧
      ∀ forms, outcome = .ok forms → ∀ form ∈ forms, after.heap.contains form = true := by
  induction reads with
  | done => exact ⟨wellFormed, fun _ same => by cases same; simp⟩
  | failed first =>
      have kept := wellFormed.keeps_reads first fun _ other => by cases other
      exact ⟨kept.wellFormed, fun _ other => by cases other⟩
  | @more _ _ _ _ value _ outcome _ first others ih =>
      have kept := wellFormed.keeps_reads first fun _ other => by cases other
      obtain ⟨finallyWellFormed, contained⟩ := ih kept.wellFormed
      refine ⟨finallyWellFormed, fun forms same => ?_⟩
      cases outcome with
      | error => cases same
      | ok later =>
          cases same
          refine List.forall_mem_cons.mpr ⟨?_, contained later rfl⟩
          exact others.growsTo.contains (kept.contained value rfl)

theorem readForms_growsTo (heap : Heap) (source : String) :
    heap.GrowsTo (heap.readForms source).2 :=
  (Reader.forms_reads (Reader.ofSource heap source)).growsTo

theorem parse_growsTo (heap : Heap) (source : String) : heap.GrowsTo (heap.parse source).2 := by
  have growth := heap.readForms_growsTo source
  unfold parse
  split
  · next forms middle result =>
    rw [result] at growth
    exact growth.trans (middle.listOf_growsTo forms)
  · next error middle result =>
    rw [result] at growth
    exact growth

theorem WellFormed.readForms {heap : Heap} (wellFormed : heap.WellFormed) (source : String) :
    (heap.readForms source).2.WellFormed ∧ ∀ forms, (heap.readForms source).1 = .ok forms →
      ∀ form ∈ forms, (heap.readForms source).2.contains form = true :=
  wellFormed.keeps_readsForms (Reader.forms_reads (Reader.ofSource heap source))

theorem WellFormed.keeps_parse {heap : Heap} (wellFormed : heap.WellFormed) (source : String) :
    heap.Keeps (heap.parse source).1 (heap.parse source).2 := by
  have growth := heap.readForms_growsTo source
  obtain ⟨readWellFormed, contained⟩ := wellFormed.readForms source
  unfold parse
  split
  · next forms middle result =>
    rw [result] at growth readWellFormed contained
    have built := readWellFormed.keeps_listOf (contained forms rfl)
    exact ⟨growth.trans built.growsTo, built.wellFormed, built.contained⟩
  · next error middle result =>
    rw [result] at growth readWellFormed
    exact .of_error growth readWellFormed

end Heap

end TaggedLisp
