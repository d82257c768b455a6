import TaggedLisp.Error
import TaggedLisp.Value
import Std.Data.TreeMap

/-!
# Symbol tables

A symbol table numbers distinct names in the order in which they were first interned. Names are never
removed, so an index stands for the same name forever, and two symbols of one table are the same name
exactly if they have the same index.
-/

set_option autoImplicit false

namespace TaggedLisp

/-- A table of at most `capacity` distinct names. The index answers which number a name has without
a search through the names. -/
structure SymbolTable where
  names : Array String
  index : Std.TreeMap String Nat
  capacity : Nat
  index_eq_some_iff : ∀ (name : String) (id : Nat), index[name]? = some id ↔ names[id]? = some name

namespace SymbolTable

/-- The empty table. Its capacity is cut to what indices can count. -/
def empty (capacity : Nat) : SymbolTable where
  names := #[]
  index := ∅
  capacity := min capacity indexLimit
  index_eq_some_iff := by simp

def size (table : SymbolTable) : Nat :=
  table.names.size

def find? (table : SymbolTable) (name : String) : Option Nat :=
  table.index[name]?

def name? (table : SymbolTable) (id : Nat) : Option String :=
  table.names[id]?

def push (table : SymbolTable) (name : String) (absent : table.find? name = none) : SymbolTable where
  names := table.names.push name
  index := table.index.insert name table.names.size
  capacity := table.capacity
  index_eq_some_iff := by
    intro other id
    rw [Std.TreeMap.getElem?_insert, Array.getElem?_push]
    by_cases same : name = other
    · subst other
      have fresh : table.names[id]? ≠ some name := fun present => by
        simp [(table.index_eq_some_iff name id).mpr present, find?] at absent
      simp only [Std.compare_eq_iff_eq, ↓reduceIte, Option.some.injEq]
      by_cases last : id = table.names.size <;> simp [last, fresh, eq_comm]
    · simp only [Std.compare_eq_iff_eq, same, ↓reduceIte, table.index_eq_some_iff]
      by_cases last : id = table.names.size <;> simp [last, same]

/-- The number of a name, which is added if it is new. The length of the name is checked first; a name
that is present needs no room; a new one is refused when the table is full. -/
def intern (table : SymbolTable) (name : String) : Except Error Nat × SymbolTable :=
  if name.isEmpty || maxSymbolLength < name.utf8ByteSize then
    (.error (.invalidSymbolLength name.utf8ByteSize), table)
  else
    match found : table.find? name with
    | some id => (.ok id, table)
    | none =>
      if table.capacity ≤ table.size then
        (.error (.symbolLimitExceeded table.capacity), table)
      else
        (.ok table.size, table.push name found)

end SymbolTable

end TaggedLisp
