import TaggedLisp.Heap.Quotation

/-! Heaps grow only at the ends of their stores. Every operation that allocates, whether it
succeeds or fails, leaves a heap in which each old entry is still found under its index. Nothing
here assumes that the values in the cells point inside the stores. -/

set_option autoImplicit false

namespace TaggedLisp

/-- Where two computations in a row succeed, each of them does. -/
theorem exists_of_bind_eq_ok {ε α β : Type} {first : Except ε α} {next : α → Except ε β}
    {result : β} (succeeded : first >>= next = .ok result) :
    ∃ value, first = .ok value ∧ next value = .ok result := by
  cases first with
  | error => cases succeeded
  | ok value => exact ⟨value, rfl, succeeded⟩

/-! ## Symbol tables -/

/-- The later table has every name of the earlier one under the same number. -/
structure SymbolTable.GrowsTo (before after : SymbolTable) : Prop where
  names : ∀ {id : Nat} {name : String}, before.name? id = some name → after.name? id = some name
  capacity : after.capacity = before.capacity

namespace SymbolTable

theorem GrowsTo.refl (table : SymbolTable) : table.GrowsTo table :=
  ⟨id, rfl⟩

theorem GrowsTo.trans {first second third : SymbolTable} (left : first.GrowsTo second)
    (right : second.GrowsTo third) : first.GrowsTo third :=
  ⟨fun named => right.names (left.names named), right.capacity.trans left.capacity⟩

theorem name?_eq_some_iff_find? {table : SymbolTable} {name : String} {id : Nat} :
    table.name? id = some name ↔ table.find? name = some id :=
  (table.index_eq_some_iff name id).symm

theorem lt_size_of_name? {table : SymbolTable} {id : Nat} {name : String}
    (named : table.name? id = some name) : id < table.size := by
  unfold name? at named
  exact (Array.getElem?_eq_some_iff.mp named).1

theorem exists_name_of_lt_size {table : SymbolTable} {id : Nat} (inside : id < table.size) :
    ∃ name, table.name? id = some name :=
  ⟨_, Array.getElem?_eq_getElem inside⟩

/-- Two numbers of one table never stand for the same name. -/
theorem eq_of_name?_eq {table : SymbolTable} {left right : Nat} {name : String}
    (leftNamed : table.name? left = some name) (rightNamed : table.name? right = some name) :
    left = right := by
  rw [name?_eq_some_iff_find?] at leftNamed rightNamed
  exact Option.some.inj (leftNamed.symm.trans rightNamed)

theorem GrowsTo.size_le {before after : SymbolTable} (growth : before.GrowsTo after) :
    before.size ≤ after.size := by
  refine Nat.le_of_not_lt fun shrunk => ?_
  obtain ⟨name, named⟩ := exists_name_of_lt_size shrunk
  exact Nat.lt_irrefl _ (lt_size_of_name? (growth.names named))

theorem push_growsTo (table : SymbolTable) (name : String) (absent : table.find? name = none) :
    table.GrowsTo (table.push name absent) := by
  refine ⟨fun {id other} named => ?_, rfl⟩
  have inside := lt_size_of_name? named
  have notLast : id ≠ table.names.size := Nat.ne_of_lt inside
  simpa only [name?, push, Array.getElem?_push, if_neg notLast] using named

/-- What interning can do: refuse the length of the name, find the name, refuse a new name because
the table is full, or add it with the next number. -/
inductive Interned (table : SymbolTable) (name : String) :
    Except Error Nat × SymbolTable → Prop where
  | refused (badLength : name.isEmpty = true ∨ maxSymbolLength < name.utf8ByteSize) :
      Interned table name (.error (.invalidSymbolLength name.utf8ByteSize), table)
  | present {id : Nat} (found : table.find? name = some id) :
      Interned table name (.ok id, table)
  | full (absent : table.find? name = none) (noRoom : table.capacity ≤ table.size) :
      Interned table name (.error (.symbolLimitExceeded table.capacity), table)
  | added (absent : table.find? name = none) (room : table.size < table.capacity) :
      Interned table name (.ok table.size, table.push name absent)

theorem intern_interned (table : SymbolTable) (name : String) :
    Interned table name (table.intern name) := by
  unfold intern
  split
  · next badLength => exact .refused (by simpa using badLength)
  · split
    · next found => exact .present found
    · next absent =>
      split
      · next noRoom => exact .full absent noRoom
      · next room => exact .added absent (Nat.lt_of_not_le room)

theorem size_push (table : SymbolTable) (name : String) (absent : table.find? name = none) :
    (table.push name absent).size = table.size + 1 :=
  Array.size_push ..

theorem name?_push_size (table : SymbolTable) (name : String)
    (absent : table.find? name = none) :
    (table.push name absent).name? table.size = some name := by
  simp [name?, push, size]

theorem Interned.growsTo {table : SymbolTable} {name : String}
    {result : Except Error Nat × SymbolTable} (interned : Interned table name result) :
    table.GrowsTo result.2 := by
  cases interned with
  | refused | present | full => exact .refl table
  | added absent => exact table.push_growsTo name absent

theorem Interned.name? {table after : SymbolTable} {name : String} {id : Nat}
    (interned : Interned table name (.ok id, after)) : after.name? id = some name := by
  cases interned with
  | present found => exact name?_eq_some_iff_find?.mpr found
  | added absent => exact table.name?_push_size name absent

theorem Interned.size_le_capacity {table : SymbolTable} {name : String}
    {result : Except Error Nat × SymbolTable} (interned : Interned table name result)
    (bounded : table.size ≤ table.capacity) : result.2.size ≤ result.2.capacity := by
  cases interned with
  | refused | present | full => exact bounded
  | added absent room =>
    rw [size_push]
    exact room

end SymbolTable

/-! ## Heaps -/

/-- The later heap has every entry of the earlier one under the same index, and the same keywords
and limits. -/
structure Heap.GrowsTo (before after : Heap) : Prop where
  symbols : before.symbols.GrowsTo after.symbols
  cells : ∀ {index : Nat} {link : Cell}, before.cells[index]? = some link →
    after.cells[index]? = some link
  lambdas : ∀ {record : Nat} {lambda : Lambda}, before.lambdas[record]? = some lambda →
    after.lambdas[record]? = some lambda
  errors : ∀ {record : Nat} {error : Error}, before.errors[record]? = some error →
    after.errors[record]? = some error
  keywords : after.keywords = before.keywords
  maxCells : after.maxCells = before.maxCells

private theorem getElem?_push_of_some {α : Type} {entries : Array α} {index : Nat} {entry new : α}
    (found : entries[index]? = some entry) : (entries.push new)[index]? = some entry := by
  have inside := (Array.getElem?_eq_some_iff.mp found).1
  rw [Array.getElem?_push, if_neg (Nat.ne_of_lt inside), found]

private theorem size_le_of_getElem? {α : Type} {before after : Array α}
    (kept : ∀ {index : Nat} {entry : α}, before[index]? = some entry → after[index]? = some entry) :
    before.size ≤ after.size := by
  refine Nat.le_of_not_lt fun shrunk => ?_
  have found := kept (Array.getElem?_eq_getElem shrunk)
  exact Nat.lt_irrefl _ (Array.getElem?_eq_some_iff.mp found).1

namespace Heap

theorem GrowsTo.refl (heap : Heap) : heap.GrowsTo heap :=
  ⟨.refl _, id, id, id, rfl, rfl⟩

theorem GrowsTo.trans {first second third : Heap} (left : first.GrowsTo second)
    (right : second.GrowsTo third) : first.GrowsTo third where
  symbols := left.symbols.trans right.symbols
  cells found := right.cells (left.cells found)
  lambdas found := right.lambdas (left.lambdas found)
  errors found := right.errors (left.errors found)
  keywords := right.keywords.trans left.keywords
  maxCells := right.maxCells.trans left.maxCells

theorem GrowsTo.cells_size_le {before after : Heap} (growth : before.GrowsTo after) :
    before.cells.size ≤ after.cells.size :=
  size_le_of_getElem? growth.cells

theorem GrowsTo.contains {before after : Heap} (growth : before.GrowsTo after) {value : Value}
    (inside : before.contains value = true) : after.contains value = true := by
  cases value with
  | internal | emptyList => rfl
  | symbol id =>
    simp only [Heap.contains, decide_eq_true_eq] at inside ⊢
    exact Nat.lt_of_lt_of_le inside growth.symbols.size_le
  | list cell =>
    simp only [Heap.contains, decide_eq_true_eq] at inside ⊢
    exact Nat.lt_of_lt_of_le inside growth.cells_size_le
  | lambda record =>
    simp only [Heap.contains, decide_eq_true_eq] at inside ⊢
    exact Nat.lt_of_lt_of_le inside (size_le_of_getElem? growth.lambdas)
  | error record =>
    simp only [Heap.contains, decide_eq_true_eq] at inside ⊢
    exact Nat.lt_of_lt_of_le inside (size_le_of_getElem? growth.errors)

/-! ### What contained values refer to -/

theorem exists_name_of_contains {heap : Heap} {id : Nat}
    (inside : heap.contains (.symbol id) = true) : ∃ name, heap.symbols.name? id = some name :=
  SymbolTable.exists_name_of_lt_size (of_decide_eq_true inside)

theorem exists_link_of_contains {heap : Heap} {cell : Nat}
    (inside : heap.contains (.list cell) = true) : ∃ link, heap.cells[cell]? = some link :=
  ⟨_, Array.getElem?_eq_getElem (of_decide_eq_true inside)⟩

theorem exists_lambda_of_contains {heap : Heap} {record : Nat}
    (inside : heap.contains (.lambda record) = true) :
    ∃ lambda, heap.lambdas[record]? = some lambda :=
  ⟨_, Array.getElem?_eq_getElem (of_decide_eq_true inside)⟩

theorem exists_error_of_contains {heap : Heap} {record : Nat}
    (inside : heap.contains (.error record) = true) :
    ∃ error, heap.errors[record]? = some error :=
  ⟨_, Array.getElem?_eq_getElem (of_decide_eq_true inside)⟩

@[simp] theorem name_of_some {heap : Heap} {id : Nat} {name : String}
    (named : heap.symbols.name? id = some name) : heap.name id = .ok name := by
  simp only [Heap.name, named]

@[simp] theorem cell_of_some {heap : Heap} {index : Nat} {link : Cell}
    (found : heap.cells[index]? = some link) : heap.cell index = .ok link := by
  simp only [cell, found]

theorem some_of_cell {heap : Heap} {index : Nat} {link : Cell}
    (found : heap.cell index = .ok link) : heap.cells[index]? = some link := by
  unfold cell at found
  split at found
  · next present =>
    cases found
    exact present
  · cases found

@[simp] theorem lambda_of_some {heap : Heap} {record : Nat} {contents : Lambda}
    (found : heap.lambdas[record]? = some contents) : heap.lambda record = .ok contents := by
  simp only [lambda, found]

theorem some_of_lambda {heap : Heap} {record : Nat} {contents : Lambda}
    (found : heap.lambda record = .ok contents) : heap.lambdas[record]? = some contents := by
  unfold lambda at found
  split at found
  · next present =>
    cases found
    exact present
  · cases found

@[simp] theorem errorRecord_of_some {heap : Heap} {record : Nat} {error : Error}
    (found : heap.errors[record]? = some error) : heap.errorRecord record = .ok error := by
  simp only [errorRecord, found]

/-! ### Operations that allocate -/

theorem intern_growsTo (heap : Heap) (name : String) : heap.GrowsTo (heap.intern name).2 :=
  ⟨(heap.symbols.intern_interned name).growsTo, id, id, id, rfl, rfl⟩

theorem symbol_growsTo (heap : Heap) (name : String) : heap.GrowsTo (heap.symbol name).2 :=
  heap.intern_growsTo name

theorem cons_growsTo (heap : Heap) (head tail : Value) :
    heap.GrowsTo (heap.cons head tail).2 := by
  unfold cons
  split
  · exact .refl heap
  · split
    · exact .refl heap
    · exact ⟨.refl _, getElem?_push_of_some, id, id, rfl, rfl⟩

@[simp] theorem listOf_nil (heap : Heap) : heap.listOf [] = (.ok .emptyList, heap) :=
  rfl

/-- A list is built from its end: the cell of the first element comes last. -/
theorem listOf_cons (heap : Heap) (element : Value) (elements : List Value) :
    heap.listOf (element :: elements) =
      match heap.listOf elements with
      | (.ok tail, heap) => heap.cons element tail
      | (.error error, heap) => (.error error, heap) :=
  rfl

theorem listOf_growsTo (heap : Heap) (elements : List Value) :
    heap.GrowsTo (heap.listOf elements).2 := by
  induction elements with
  | nil => exact .refl heap
  | cons element elements ih =>
    rw [listOf_cons]
    split
    · next tail built result =>
      rw [result] at ih
      exact ih.trans (built.cons_growsTo element tail)
    · next error built result =>
      rw [result] at ih
      exact ih

theorem growsTo_of_listOf {heap after : Heap} {elements : List Value}
    {outcome : Except Error Value} (built : heap.listOf elements = (outcome, after)) :
    heap.GrowsTo after := by
  have growth := heap.listOf_growsTo elements
  rwa [built] at growth

theorem reverse_growsTo {heap after : Heap} {list : Value} {outcome : Except Error Value}
    (reversed : heap.reverse list = .ok (outcome, after)) : heap.GrowsTo after := by
  obtain ⟨found, -, reversed⟩ := exists_of_bind_eq_ok reversed
  cases found with
  | ok elements => exact growsTo_of_listOf (Except.ok.inj reversed)
  | error error =>
      cases reversed
      exact .refl heap

theorem quote_growsTo (heap : Heap) (value : Value) : heap.GrowsTo (heap.quote value).2 :=
  heap.listOf_growsTo _

theorem addLambda_growsTo (heap : Heap) (lambda : Lambda) :
    heap.GrowsTo (heap.addLambda lambda).2 := by
  unfold addLambda
  split
  · exact .refl heap
  · exact ⟨.refl _, id, getElem?_push_of_some, id, rfl, rfl⟩

theorem addError_growsTo (heap : Heap) (error : Error) : heap.GrowsTo (heap.addError error).2 := by
  unfold addError
  split
  · exact .refl heap
  · exact .refl heap
  · split
    · exact ⟨.refl _, id, id, getElem?_push_of_some, rfl, rfl⟩
    · exact .refl heap

theorem named_of_intern {heap after : Heap} {name : String} {symbol : Nat}
    (interned : heap.intern name = (.ok symbol, after)) :
    after.symbols.name? symbol = some name ∧ after.lambdas = heap.lambdas := by
  have result := heap.symbols.intern_interned name
  unfold Heap.intern at interned
  generalize heap.symbols.intern name = pair at interned result
  obtain ⟨outcome, symbols⟩ := pair
  cases interned
  exact ⟨result.name?, rfl⟩

theorem named_of_symbol {heap : Heap} {name : String} {value : Value}
    (interned : (heap.symbol name).1 = .ok value) :
    ∃ id, value = .symbol id ∧ (heap.symbol name).2.symbols.name? id = some name := by
  unfold Heap.symbol at interned ⊢
  generalize made : heap.intern name = result at interned ⊢
  obtain ⟨outcome, after⟩ := result
  cases outcome with
  | error => cases interned
  | ok id =>
      cases interned
      exact ⟨id, rfl, (named_of_intern made).1⟩

theorem recorded_of_addLambda {heap after : Heap} {lambda : Lambda} {value : Value}
    (added : heap.addLambda lambda = (.ok value, after)) :
    value = .lambda heap.lambdas.size ∧ after.lambdas = heap.lambdas.push lambda := by
  unfold addLambda at added
  split at added
  · cases added
  · cases added
    exact ⟨rfl, rfl⟩

end Heap

end TaggedLisp
