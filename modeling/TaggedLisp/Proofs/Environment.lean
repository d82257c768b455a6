import TaggedLisp.Proofs.Heap.WellFormed
import TaggedLisp.Environment

/-! What binding and looking up do. An environment never loses a binding and never changes one, and
an attempt that fails leaves it as it was. -/

set_option autoImplicit false

namespace TaggedLisp.Environment

def bind (environment : Environment) (symbol : Nat) (value : Value) : Environment :=
  { environment with table := environment.table.insert symbol value }

theorem find?_bind (environment : Environment) (symbol other : Nat) (value : Value) :
    (environment.bind symbol value).find? other =
      if symbol = other then some value else environment.find? other := by
  simp only [bind, find?, Std.TreeMap.getElem?_insert, Std.compare_eq_iff_eq]

theorem size_bind {environment : Environment} {symbol : Nat}
    (free : environment.find? symbol = none) (value : Value) :
    (environment.bind symbol value).size = environment.size + 1 := by
  have absent : symbol ∉ environment.table := by
    simpa [find?] using free
  simp [size, bind, Std.TreeMap.size_insert, absent]

@[simp] theorem find?_empty (capacity symbol : Nat) : (empty capacity).find? symbol = none := by
  simp [empty, find?]

/-- What an attempt to bind a symbol can do: refuse because it is bound, refuse for lack of room, or
add the binding. -/
inductive Defines (environment : Environment) (symbol : Nat) (name : String) (value : Value) :
    Except Error Value × Environment → Prop where
  | bound {old : Value} (found : environment.find? symbol = some old) :
      Defines environment symbol name value (.error (.redefinition name), environment)
  | full (free : environment.find? symbol = none)
      (noRoom : environment.capacity ≤ environment.size) :
      Defines environment symbol name value
        (.error (.environmentFull environment.capacity), environment)
  | added (free : environment.find? symbol = none)
      (room : environment.size < environment.capacity) :
      Defines environment symbol name value (.ok (.symbol symbol), environment.bind symbol value)

theorem define_defines (environment : Environment) {heap : Heap} {symbol : Nat} {name : String}
    (named : heap.symbols.name? symbol = some name) (value : Value) :
    ∃ result, environment.define heap symbol value = .ok result ∧
      Defines environment symbol name value result := by
  unfold define isBound
  cases found : environment.find? symbol with
  | some old =>
      refine ⟨_, ?_, .bound found⟩
      simp only [Heap.name, named, Option.isSome_some, ↓reduceIte]
      rfl
  | none =>
      by_cases room : environment.capacity ≤ environment.size
      · exact ⟨_, by simp only [Option.isSome_none, Bool.false_eq_true, ↓reduceIte, room]; rfl,
          .full found room⟩
      · exact ⟨_, by simp only [Option.isSome_none, Bool.false_eq_true, ↓reduceIte, room]; rfl,
          .added found (Nat.lt_of_not_le room)⟩

theorem defines_of_define {environment after : Environment} {heap : Heap} {symbol : Nat}
    {value : Value} {outcome : Except Error Value}
    (defined : environment.define heap symbol value = .ok (outcome, after)) :
    ∃ name, environment.Defines symbol name value (outcome, after) := by
  unfold define isBound at defined
  cases found : environment.find? symbol with
  | some old =>
      simp only [found, Option.isSome_some, ↓reduceIte] at defined
      obtain ⟨name, -, defined⟩ := exists_of_bind_eq_ok defined
      cases defined
      exact ⟨name, .bound found⟩
  | none =>
      simp only [found, Option.isSome_none, Bool.false_eq_true, ↓reduceIte] at defined
      split at defined
      · next noRoom =>
        cases defined
        exact ⟨"", .full found noRoom⟩
      · next room =>
        cases defined
        exact ⟨"", .added found (Nat.lt_of_not_le room)⟩

theorem lookup_of_find? {environment : Environment} {symbol : Nat} {value : Value}
    (found : environment.find? symbol = some value) (heap : Heap) :
    environment.lookup heap symbol = .ok (.ok value) := by
  simp only [lookup, found]
  rfl

theorem lookup_of_free {environment : Environment} {heap : Heap} {symbol : Nat} {name : String}
    (free : environment.find? symbol = none) (named : heap.symbols.name? symbol = some name) :
    environment.lookup heap symbol = .ok (.error (.unbound name)) := by
  simp only [lookup, free, Heap.name, named]
  rfl

theorem lookup_cases {environment : Environment} {heap : Heap} {symbol : Nat}
    {outcome : Except Error Value} (found : environment.lookup heap symbol = .ok outcome) :
    (∃ value, environment.find? symbol = some value ∧ outcome = .ok value) ∨
      ∃ name, environment.find? symbol = none ∧ heap.name symbol = .ok name ∧
        outcome = .error (.unbound name) := by
  unfold lookup at found
  split at found
  · next value bound =>
    cases found
    exact .inl ⟨value, bound, rfl⟩
  · next free =>
    obtain ⟨name, named, found⟩ := exists_of_bind_eq_ok found
    cases found
    exact .inr ⟨name, free, named, rfl⟩

/-- Every bound symbol and every value that it is bound to point inside the stores. -/
def ContainedIn (environment : Environment) (heap : Heap) : Prop :=
  ∀ symbol value, environment.find? symbol = some value →
    heap.contains (.symbol symbol) = true ∧ heap.contains value = true

theorem ContainedIn.grow {environment : Environment} {before after : Heap}
    (growth : before.GrowsTo after) (contained : environment.ContainedIn before) :
    environment.ContainedIn after :=
  fun symbol value found =>
    (contained symbol value found).imp (growth.contains ·) (growth.contains ·)

theorem containedIn_empty (capacity : Nat) (heap : Heap) :
    (empty capacity).ContainedIn heap :=
  fun symbol value found => by simp at found

theorem Defines.containedIn {environment after : Environment} {heap : Heap} {symbol : Nat}
    {name : String} {value : Value} {outcome : Except Error Value}
    (defines : Defines environment symbol name value (outcome, after))
    (contained : environment.ContainedIn heap)
    (symbolContained : heap.contains (.symbol symbol) = true)
    (valueContained : heap.contains value = true) : after.ContainedIn heap := by
  cases defines with
  | bound | full => exact contained
  | added =>
      intro other bound found
      rw [find?_bind] at found
      split at found
      · next same =>
        cases found
        exact ⟨same ▸ symbolContained, valueContained⟩
      · exact contained other bound found

/-! ## The listing of the bindings -/

theorem mem_bindings_iff {environment : Environment} {symbol : Nat} {value : Value} :
    (symbol, value) ∈ environment.bindings ↔ environment.find? symbol = some value :=
  Std.TreeMap.mem_toList_iff_getElem?_eq_some

theorem bindings_increasing (environment : Environment) :
    environment.bindings.Pairwise (fun left right => left.1 < right.1) := by
  refine environment.table.ordered_keys_toList.imp ?_
  intro left right less
  exact Nat.compare_eq_lt.mp less

/-- Environments with the same bindings list them in the same order, however they came about. -/
theorem bindings_eq_of_find?_eq {left right : Environment}
    (same : ∀ symbol, left.find? symbol = right.find? symbol) : left.bindings = right.bindings :=
  Std.TreeMap.equiv_iff_toList_eq.mp (.of_forall_constGet?_eq same)

end TaggedLisp.Environment
