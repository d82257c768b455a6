import TaggedLisp.Proofs.Heap.Growth
import Mathlib.Algebra.Group.Nat.Defs
import Mathlib.Data.List.Basic

/-! A symbol table is a list of distinct names. Whatever texts are interned on a new table, in whatever
order, it holds the first distinct ones that may name symbols, as many as there is room for, and
numbers them by their places. Which texts were refused in between leaves no trace. -/

set_option autoImplicit false

namespace TaggedLisp.SymbolTable

/-- The table after interning the names in order, whatever comes of each. -/
def internEach (table : SymbolTable) (names : List String) : SymbolTable :=
  names.foldl (fun table name => (table.intern name).2) table

theorem internEach_append (table : SymbolTable) (names others : List String) :
    table.internEach (names ++ others) = (table.internEach names).internEach others :=
  List.foldl_append

theorem internEach_growsTo (table : SymbolTable) (names : List String) :
    table.GrowsTo (table.internEach names) := by
  induction names generalizing table with
  | nil => exact .refl table
  | cons name names ih =>
      exact (table.intern_interned name).growsTo.trans (ih (table.intern name).2)

/-! ## Texts in the order in which they first occur -/

/-- Whether a text has a length that the names of symbols may have. -/
def isName (text : String) : Bool :=
  1 ≤ text.utf8ByteSize && text.utf8ByteSize ≤ maxSymbolLength

def distinctNames (texts : List String) : List String :=
  (texts.filter isName).eraseDups

/-- What a table with room for `limit` names holds after the texts. -/
def keptNames (limit : Nat) (texts : List String) : List String :=
  (distinctNames texts).take limit

/-- What interning a text answers after the earlier texts. The length of the text comes first, and
only a name that would not be kept meets the limit. -/
def answerAfter (limit : Nat) (earlier : List String) (text : String) : Except Error Nat :=
  if isName text then
    let kept := keptNames limit (earlier ++ [text])
    if text ∈ kept then .ok (kept.idxOf text) else .error (.symbolLimitExceeded limit)
  else
    .error (.invalidSymbolLength text.utf8ByteSize)

theorem isName_eq_false_iff {text : String} :
    isName text = false ↔ text.isEmpty = true ∨ maxSymbolLength < text.utf8ByteSize := by
  rw [String.isEmpty_iff, ← String.utf8ByteSize_eq_zero_iff]
  simp only [isName, Bool.and_eq_false_iff, decide_eq_false_iff_not]
  omega

theorem mem_distinctNames_iff {texts : List String} {text : String} :
    text ∈ distinctNames texts ↔ text ∈ texts ∧ isName text = true := by
  rw [distinctNames, List.mem_eraseDups, List.mem_filter]

theorem distinctNames_append_of_not_isName {text : String} (invalid : isName text = false)
    (texts : List String) : distinctNames (texts ++ [text]) = distinctNames texts := by
  simp [distinctNames, invalid]

theorem distinctNames_append_of_mem {texts : List String} {text : String}
    (known : text ∈ distinctNames texts) :
    distinctNames (texts ++ [text]) = distinctNames texts := by
  have member : text ∈ texts.filter isName := List.mem_eraseDups.mp known
  have valid := (List.mem_filter.mp member).2
  simp [distinctNames, valid, List.eraseDups_append, List.removeAll, List.mem_filter.mp member]

theorem distinctNames_append_of_not_mem {texts : List String} {text : String}
    (valid : isName text = true) (new : text ∉ distinctNames texts) :
    distinctNames (texts ++ [text]) = distinctNames texts ++ [text] := by
  have absent : text ∉ texts := fun member => new (mem_distinctNames_iff.mpr ⟨member, valid⟩)
  simp [distinctNames, valid, List.eraseDups_append, List.removeAll, absent]
  rfl

theorem mem_distinctNames_of_mem_keptNames {limit : Nat} {texts : List String} {text : String}
    (kept : text ∈ keptNames limit texts) : text ∈ distinctNames texts :=
  List.mem_of_mem_take kept

theorem keptNames_of_length_le {limit : Nat} {texts : List String}
    (room : (distinctNames texts).length ≤ limit) : keptNames limit texts = distinctNames texts :=
  List.take_of_length_le room

/-- Once there is no room, no further text changes what is kept. -/
theorem keptNames_append_of_full {limit : Nat} {texts : List String} {text : String}
    (valid : isName text = true) (full : limit ≤ (distinctNames texts).length) :
    keptNames limit (texts ++ [text]) = keptNames limit texts := by
  by_cases known : text ∈ distinctNames texts
  · rw [keptNames, keptNames, distinctNames_append_of_mem known]
  · rw [keptNames, keptNames, distinctNames_append_of_not_mem valid known,
      List.take_append_of_le_length full]

theorem keptNames_append_of_room {limit : Nat} {texts : List String} {text : String}
    (valid : isName text = true) (new : text ∉ keptNames limit texts)
    (room : (distinctNames texts).length < limit) :
    keptNames limit (texts ++ [text]) = keptNames limit texts ++ [text] := by
  rw [keptNames_of_length_le (Nat.le_of_lt room)] at new ⊢
  have appended := distinctNames_append_of_not_mem valid new
  rw [← appended]
  refine keptNames_of_length_le ?_
  rw [appended, List.length_append, List.length_singleton]
  exact room

/-! ## The table and the list -/

/-- The table holds what a table with room for `limit` names keeps of the texts. -/
structure Records (limit : Nat) (texts : List String) (table : SymbolTable) : Prop where
  capacity : table.capacity = limit
  names : table.names.toList = keptNames limit texts

theorem records_empty (capacity : Nat) :
    Records (min capacity indexLimit) [] (empty capacity) :=
  ⟨rfl, by simp [empty, keptNames, distinctNames]⟩

theorem intern_of_not_isName (table : SymbolTable) {text : String} (invalid : isName text = false) :
    table.intern text = (.error (.invalidSymbolLength text.utf8ByteSize), table) := by
  have badLength := isName_eq_false_iff.mp invalid
  rw [intern, if_pos (by simpa using badLength)]

section Recorded

variable {limit : Nat} {texts : List String} {table : SymbolTable} {text : String}

theorem Records.mem_iff (records : Records limit texts table) :
    text ∈ keptNames limit texts ↔ ∃ id, table.find? text = some id := by
  rw [← records.names, List.mem_iff_getElem?]
  refine exists_congr fun id => ?_
  rw [← name?_eq_some_iff_find?, name?, Array.getElem?_toList]

theorem Records.not_mem (records : Records limit texts table) (absent : table.find? text = none) :
    text ∉ keptNames limit texts := by
  simp [records.mem_iff, absent]

theorem Records.idxOf_eq (records : Records limit texts table) {id : Nat}
    (found : table.find? text = some id) : (keptNames limit texts).idxOf text = id := by
  have kept := records.mem_iff.mpr ⟨id, found⟩
  refine table.eq_of_name?_eq ?_ (name?_eq_some_iff_find?.mpr found)
  rw [name?, ← Array.getElem?_toList, records.names,
    List.getElem?_eq_getElem (List.idxOf_lt_length_of_mem kept), List.getElem_idxOf]

theorem Records.size_eq (records : Records limit texts table) :
    table.size = min limit (distinctNames texts).length := by
  rw [size, ← Array.length_toList, records.names, keptNames, List.length_take]

/-- A table that holds the first names of the texts holds, after one more text, the first names of
the texts with that one. -/
theorem Records.intern (records : Records limit texts table) (text : String) :
    (table.intern text).1 = answerAfter limit texts text ∧
      Records limit (texts ++ [text]) (table.intern text).2 := by
  cases valid : isName text with
  | false =>
      rw [table.intern_of_not_isName valid]
      refine ⟨by simp [answerAfter, valid], records.capacity, ?_⟩
      rw [records.names, keptNames, keptNames, distinctNames_append_of_not_isName valid]
  | true =>
      have interned := table.intern_interned text
      have size := records.size_eq
      generalize table.intern text = result at interned ⊢
      cases interned with
      | refused badLength =>
          rw [isName_eq_false_iff.mpr badLength] at valid
          cases valid
      | @present id found =>
          have kept := records.mem_iff.mpr ⟨id, found⟩
          have same : keptNames limit (texts ++ [text]) = keptNames limit texts := by
            rw [keptNames, keptNames,
              distinctNames_append_of_mem (mem_distinctNames_of_mem_keptNames kept)]
          refine ⟨?_, records.capacity, records.names.trans same.symm⟩
          simp only [answerAfter, valid, same, kept, ↓reduceIte, records.idxOf_eq found]
      | full absent noRoom =>
          have missing := records.not_mem absent
          rw [records.capacity] at noRoom
          have same : keptNames limit (texts ++ [text]) = keptNames limit texts :=
            keptNames_append_of_full valid (by omega)
          refine ⟨?_, records.capacity, records.names.trans same.symm⟩
          simp only [answerAfter, valid, same, missing, ↓reduceIte, records.capacity]
      | added absent room =>
          have missing := records.not_mem absent
          rw [records.capacity] at room
          have longer := keptNames_append_of_room valid missing (by omega)
          refine ⟨?_, records.capacity, ?_⟩
          · have atEnd : (keptNames limit texts ++ [text]).idxOf text = table.size := by
              rw [List.idxOf_append_of_notMem missing, List.idxOf_cons_self, ← records.names]
              rfl
            simp [answerAfter, valid, longer, atEnd]
          · rw [longer, ← records.names]
            exact Array.toList_push

theorem Records.internEach (records : Records limit texts table) (others : List String) :
    Records limit (texts ++ others) (table.internEach others) := by
  induction others generalizing table texts with
  | nil => simpa [SymbolTable.internEach] using records
  | cons other others ih =>
      have later := ih (records.intern other).2
      rwa [List.append_assoc] at later

/-- Successful answers tell texts apart, also if the one was given long before the other. -/
theorem Interned.eq_iff {first second third fourth : SymbolTable} {other : String} {id otherId : Nat}
    (interned : Interned first text (.ok id, second)) (growth : second.GrowsTo third)
    (otherInterned : Interned third other (.ok otherId, fourth)) : id = otherId ↔ text = other := by
  have named := otherInterned.growsTo.names (growth.names interned.name?)
  constructor
  · rintro rfl
    exact Option.some.inj (named.symm.trans otherInterned.name?)
  · rintro rfl
    exact eq_of_name?_eq named otherInterned.name?

theorem intern_eq_self_of_error {error : Error} (failed : (table.intern text).1 = .error error) :
    (table.intern text).2 = table := by
  have interned := table.intern_interned text
  generalize table.intern text = result at interned failed ⊢
  cases interned with
  | refused | full => rfl
  | present | added => cases failed

end Recorded

/-- A table is the list of the first distinct names interned on it: that is what it holds, the list
decides every further answer, and numbers and names stay matched for good. -/
theorem refines_distinct_names (capacity : Nat) (texts : List String) :
    let limit := min capacity (2 ^ 61 - 1)
    let table := (empty capacity).internEach texts
    table.names.toList = keptNames limit texts ∧
      (∀ text, (table.intern text).1 = answerAfter limit texts text) ∧
      (∀ text error, (table.intern text).1 = .error error → (table.intern text).2 = table) ∧
      (∀ text id, table.find? text = some id ↔ id < table.size ∧ table.name? id = some text) ∧
      ∀ earlier text later id, texts = earlier ++ text :: later →
        (((empty capacity).internEach earlier).intern text).1 = .ok id →
        table.name? id = some text ∧
          ∀ other otherId, (table.intern other).1 = .ok otherId → (id = otherId ↔ text = other) := by
  intro limit table
  have records : Records limit texts table := (records_empty capacity).internEach texts
  refine ⟨records.names, fun text => (records.intern text).1,
    fun text error => intern_eq_self_of_error, fun text id => ?_, ?_⟩
  · rw [← name?_eq_some_iff_find?]
    exact ⟨fun named => ⟨lt_size_of_name? named, named⟩, And.right⟩
  · intro earlier text later id split answered
    have interned := ((empty capacity).internEach earlier).intern_interned text
    have growth : (((empty capacity).internEach earlier).intern text).2.GrowsTo table := by
      have rest : table =
          (((empty capacity).internEach earlier).intern text).2.internEach later := by
        rw [show table = (empty capacity).internEach texts from rfl, split, internEach_append]
        rfl
      rw [rest]
      exact internEach_growsTo _ later
    generalize ((empty capacity).internEach earlier).intern text = result at *
    obtain ⟨outcome, after⟩ := result
    subst answered
    refine ⟨growth.names interned.name?, fun other otherId otherAnswered => ?_⟩
    have otherInterned := table.intern_interned other
    generalize table.intern other = otherResult at otherAnswered otherInterned
    obtain ⟨otherOutcome, final⟩ := otherResult
    subst otherAnswered
    exact interned.eq_iff growth otherInterned

/-- With room for two, known names are still found when a third one is refused. -/
theorem refines_distinct_names_when_full :
    ((empty 2).internEach ["a", "", "b", "c", "a"]).names.toList = ["a", "b"] ∧
      (((empty 2).internEach ["a", "", "b", "c", "a"]).intern "b").1 = .ok 1 ∧
      (((empty 2).internEach ["a", "", "b", "c", "a"]).intern "c").1 =
        .error (.symbolLimitExceeded 2) ∧
      ((empty 2).internEach ["a", "", "b", "c", "a"]).name? 1 = some "b" := by
  obtain ⟨names, answers, -, -, kept⟩ := refines_distinct_names 2 ["a", "", "b", "c", "a"]
  have atB : (((empty 2).internEach ["a", ""]).intern "b").1 = .ok 1 :=
    ((refines_distinct_names 2 ["a", ""]).2.1 "b").trans (by decide)
  exact ⟨names.trans (by decide), (answers "b").trans (by decide), (answers "c").trans (by decide),
    (kept ["a", ""] "b" ["c", "a"] 1 rfl atB).1⟩

end TaggedLisp.SymbolTable
