import TaggedLisp.Proofs.ListStore
import TaggedLisp.Proofs.Evaluation.Contract

/-! Layers of quotes. Each quoting puts one layer around a value and each unquoting takes one away, and
so does evaluation, whatever the value inside is. Underneath, a quoted form is nothing but a spine of
two elements, so a layer is recognised by looking at two cells, and it stays what it is when more layers
are put around it. -/

set_option autoImplicit false

namespace TaggedLisp

namespace Heap

/-- Puts so many layers of quotes around a value, as far as there is room. -/
def quoteTimes (heap : Heap) : Nat → Value → Except Error Value × Heap
  | 0, value => (.ok value, heap)
  | layers + 1, value =>
    match heap.quoteTimes layers value with
    | (.ok inner, heap) => heap.quote inner
    | (.error error, heap) => (.error error, heap)

/-- Takes so many layers of quotes away, as far as there are any. -/
def unquoteTimes (heap : Heap) : Nat → Value → Checked (Except Error Value)
  | 0, value => .ok (.ok value)
  | layers + 1, value => do
    match ← heap.unquote value with
    | .ok inner => heap.unquoteTimes layers inner
    | .error error => return .error error

variable {heap before after : Heap} {value inner outer quoted : Value} {layers : Nat}

/-! ## One layer -/

theorem GrowsTo.unquote (growth : before.GrowsTo after)
    (unquoted : before.unquote value = .ok (.ok inner)) :
    after.unquote value = .ok (.ok inner) := by
  rw [unquote_eq_ok_iff] at unquoted ⊢
  exact growth.keywords ▸ unquoted.grow growth

theorem spine_of_quote (made : heap.quote value = (.ok quoted, after)) :
    after.Spine quoted [.symbol after.keywords.quote, value] := by
  have growth := heap.listOf_growsTo [.symbol heap.keywords.quote, value]
  have spine := (spine_of_listOf made).2
  unfold Heap.quote at made
  rw [made] at growth
  exact growth.keywords ▸ spine

/-- The outer value is the inner one in one layer of quotes, which is what the evaluator finds there
too. It takes the layer away in any environment and does nothing else. -/
structure Wraps (heap : Heap) (inner outer : Value) : Prop where
  isQuoted : heap.isQuoted outer = .ok true
  unquote : heap.unquote outer = .ok (.ok inner)
  eval : ∀ (host : Host) (environment : Environment),
    Machine.eval host outer ⟨heap, environment⟩ = .ok (.ok inner, ⟨heap, environment⟩)

theorem wraps_of_spine (spine : heap.Spine outer [.symbol heap.keywords.quote, inner]) :
    heap.Wraps inner outer := by
  have isQuoted := isQuoted_iff_spine.mpr ⟨inner, spine⟩
  have unquoted := unquote_of_spine spine
  refine ⟨isQuoted, unquoted, fun host environment => ?_⟩
  obtain ⟨cell, tail, rfl, found, -⟩ := spine.exists_link
  have contained : heap.contains (.list cell) = true :=
    decide_eq_true (Array.getElem?_eq_some_iff.mp found).1
  obtain ⟨budget, nested⟩ := Machine.exists_budget ⟨heap, environment⟩
  rw [Machine.eval, if_pos contained, Machine.run, nested]
  exact Task.run_of_isQuoted isQuoted unquoted

theorem Wraps.grow (growth : before.GrowsTo after) (wraps : before.Wraps inner outer) :
    after.Wraps inner outer :=
  wraps_of_spine (unquote_eq_ok_iff.mp (growth.unquote wraps.unquote))

/-! ## Many layers -/

theorem unquoteTimes_succ (unquoted : heap.unquote outer = .ok (.ok inner)) :
    heap.unquoteTimes (layers + 1) outer = heap.unquoteTimes layers inner := by
  simp only [unquoteTimes, unquoted]
  rfl

theorem GrowsTo.unquoteTimes (growth : before.GrowsTo after)
    (unquoted : before.unquoteTimes layers value = .ok (.ok inner)) :
    after.unquoteTimes layers value = .ok (.ok inner) := by
  induction layers generalizing value with
  | zero => exact unquoted
  | succ layers ih =>
      rw [Heap.unquoteTimes] at unquoted
      obtain ⟨outcome, first, unquoted⟩ := exists_of_bind_eq_ok unquoted
      cases outcome with
      | error error => cases unquoted
      | ok next =>
          rw [unquoteTimes_succ (growth.unquote first)]
          exact ih unquoted

/-- A value with so many layers of quotes around it. Taken off one after the other, they leave the very
words that the value was on the way. -/
structure Layered (before : Heap) (value : Value) (layers : Nat) (quoted : Value)
    (after : Heap) : Prop where
  keeps : before.Keeps (.ok quoted) after
  size : after.cells.size = before.cells.size + 2 * layers
  below : ∀ inside ≤ layers, ∃ inner, (before.quoteTimes inside value).1 = .ok inner ∧
    after.unquoteTimes (layers - inside) quoted = .ok (.ok inner)
  wraps : ∀ inside < layers, ∃ inner outer, (before.quoteTimes inside value).1 = .ok inner ∧
    (before.quoteTimes (inside + 1) value).1 = .ok outer ∧ after.Wraps inner outer

theorem WellFormed.quote_buildsList (wellFormed : heap.WellFormed)
    (contained : heap.contains value = true) :
    heap.BuildsList [.symbol heap.keywords.quote, value] (heap.quote value).1
      (heap.quote value).2 := by
  refine wellFormed.listOf_buildsList fun element member => ?_
  rcases List.mem_cons.mp member with rfl | member
  · exact decide_eq_true (SymbolTable.lt_size_of_name? wellFormed.keywords.quote)
  · exact List.mem_singleton.mp member ▸ contained

theorem Layered.quote {final : Heap} (layered : before.Layered value layers inner after)
    (made : before.quoteTimes layers value = (.ok inner, after))
    (again : after.quote inner = (.ok outer, final)) :
    before.Layered value (layers + 1) outer final := by
  have builds := layered.keeps.wellFormed.quote_buildsList (layered.keeps.contained inner rfl)
  have wraps : final.Wraps inner outer := wraps_of_spine (spine_of_quote again)
  have reached : (before.quoteTimes (layers + 1) value).1 = .ok outer := by
    simp only [quoteTimes, made, again]
  rw [again] at builds
  have growth := builds.keeps.growsTo
  refine ⟨⟨layered.keeps.growsTo.trans growth, builds.keeps.wellFormed, builds.keeps.contained⟩,
    ?_, ?_, ?_⟩
  · rw [(builds.built outer rfl).2.2, layered.size]
    simp only [List.length_cons, List.length_nil]
    omega
  · intro inside within
    -- Under the new layer all words are as before, and the heap has only grown.
    rcases Nat.lt_or_eq_of_le within with deeper | rfl
    · obtain ⟨word, quotedWord, unquoted⟩ := layered.below inside (Nat.le_of_lt_succ deeper)
      refine ⟨word, quotedWord, ?_⟩
      rw [Nat.succ_sub (Nat.le_of_lt_succ deeper), unquoteTimes_succ wraps.unquote]
      exact growth.unquoteTimes unquoted
    · exact ⟨outer, reached, by rw [Nat.sub_self]; rfl⟩
  · intro inside within
    rcases Nat.lt_or_eq_of_le (Nat.le_of_lt_succ within) with deeper | rfl
    · obtain ⟨word, next, quotedWord, quotedNext, around⟩ := layered.wraps inside deeper
      exact ⟨word, next, quotedWord, quotedNext, around.grow growth⟩
    · exact ⟨inner, outer, by rw [made], reached, wraps⟩

theorem WellFormed.layered (wellFormed : heap.WellFormed) (contained : heap.contains value = true)
    (made : heap.quoteTimes layers value = (.ok quoted, after)) :
    heap.Layered value layers quoted after := by
  induction layers generalizing quoted after with
  | zero =>
      cases made
      refine ⟨wellFormed.keeps_ok contained, rfl, ?_, by simp⟩
      intro inside none
      obtain rfl := Nat.le_zero.mp none
      exact ⟨value, rfl, rfl⟩
  | succ layers ih =>
      rw [quoteTimes] at made
      split at made
      · next first => exact (ih first).quote first made
      · cases made

/-- Every layer takes two cells, and room for them is all that it takes. -/
theorem WellFormed.quoteTimes_succeeds_iff (wellFormed : heap.WellFormed)
    (contained : heap.contains value = true) :
    (∃ quoted after, heap.quoteTimes layers value = (.ok quoted, after)) ↔
      heap.cells.size + 2 * layers ≤ heap.maxCells := by
  constructor
  · rintro ⟨quoted, after, made⟩
    have layered := wellFormed.layered contained made
    rw [← layered.size, ← layered.keeps.growsTo.maxCells]
    exact layered.keeps.wellFormed.cells_size_le
  · intro room
    induction layers with
    | zero => exact ⟨value, heap, rfl⟩
    | succ layers ih =>
        obtain ⟨inner, middle, made⟩ := ih (by omega)
        have layered := wellFormed.layered contained made
        have builds :=
          layered.keeps.wellFormed.quote_buildsList (layered.keeps.contained inner rfl)
        obtain ⟨outer, succeeded⟩ := builds.succeeds_iff.mpr <| by
          rw [layered.size, layered.keeps.growsTo.maxCells]
          simp only [List.length_cons, List.length_nil]
          omega
        refine ⟨outer, (middle.quote inner).2, ?_⟩
        simp only [quoteTimes, made]
        rw [← succeeded]

/-- In a well-formed heap, as many layers of quotes can be put around a value as there is room for, and
all of them can be taken off again, down to the very word of the value. Each of them is recognised as
one on the way, and evaluation takes exactly one off, in any environment. Quoted forms are the lists of
the keyword and one more element, whatever that is. All else cannot be unquoted, and what was unquoted
can be quoted again, to an equal value. -/
theorem WellFormed.quote_layers (wellFormed : heap.WellFormed)
    (contained : heap.contains value = true) :
    (∀ layers,
      ((∃ quoted after, heap.quoteTimes layers value = (.ok quoted, after)) ↔
        heap.cells.size + 2 * layers ≤ heap.maxCells) ∧
      ∀ quoted after, heap.quoteTimes layers value = (.ok quoted, after) →
        after.unquoteTimes layers quoted = .ok (.ok value) ∧
        heap.Layered value layers quoted after) ∧
    (heap.isQuoted value = .ok true ↔
      ∃ inner, heap.toList value = .ok (.ok [.symbol heap.keywords.quote, inner])) ∧
    (heap.unquote value = .ok (.error .notQuoted) ↔ ¬ heap.isQuoted value = .ok true) ∧
    (heap.isQuoted value = .ok true → ∃ inner, heap.unquote value = .ok (.ok inner) ∧
      ((∃ again, (heap.quote inner).1 = .ok again) ↔ heap.cells.size + 2 ≤ heap.maxCells) ∧
      ∀ again after, heap.quote inner = (.ok again, after) →
        after.isEqual again value = .ok true) := by
  refine ⟨fun layers => ⟨wellFormed.quoteTimes_succeeds_iff contained, fun quoted after made => ?_⟩,
    isQuoted_iff_toList, ?_, ?_⟩
  · have layered := wellFormed.layered contained made
    obtain ⟨bare, same, unquoted⟩ := layered.below 0 (Nat.zero_le _)
    cases same
    exact ⟨unquoted, layered⟩
  · obtain ⟨tree, unfolds⟩ := wellFormed.exists_unfolds contained
    obtain ⟨outcome, unquoted, agrees⟩ := unfolds.unquote wellFormed.keywords
    rw [unfolds.isQuoted wellFormed.keywords, unquoted]
    cases inside : tree.unquoted? with
    | none =>
        rw [inside] at agrees
        cases agrees
        simp
    | some =>
        rw [inside] at agrees
        cases agrees
        simp
  · intro isQuoted
    obtain ⟨inner, listed⟩ := isQuoted_iff_toList.mp isQuoted
    have innerContained : heap.contains inner = true :=
      wellFormed.contains_of_toList contained listed inner (by simp)
    refine ⟨inner, unquote_of_spine (toList_eq_ok_iff.mp listed).2,
      (wellFormed.quote_buildsList innerContained).succeeds_iff, fun again after made => ?_⟩
    exact wellFormed.isEqual_of_listOf contained listed made

/-- With nine cells there is room for two more layers around `''a`, and not for a third. -/
theorem quote_layers_of_quoted_form :
    ∃ heap after inner quoted final, Heap.new { maxCells := 9 } = .ok heap ∧
      heap.readForms "''a" = (.ok [.list 3], after) ∧
      after.quoteTimes 1 (.list 3) = (.ok inner, (after.quoteTimes 1 (.list 3)).2) ∧
      after.quoteTimes 2 (.list 3) = (.ok quoted, final) ∧
      final.unquoteTimes 2 quoted = .ok (.ok (.list 3)) ∧
      Machine.eval Host.none quoted ⟨final, .empty 0⟩ = .ok (.ok inner, ⟨final, .empty 0⟩) ∧
      (¬ ∃ more full, after.quoteTimes 3 (.list 3) = (.ok more, full)) ∧
      after.toList (.list 3) = .ok (.ok [.symbol after.keywords.quote, .list 1]) := by
  have created : Heap.new { maxCells := 9 } =
      .ok ((Heap.new { maxCells := 9 }).toOption.get (by decide)) := rfl
  have checked :
      let read := ((Heap.new { maxCells := 9 }).toOption.get (by decide)).readForms "''a"
      read.1 = .ok [.list 3] ∧ read.2.contains (.list 3) = true ∧ read.2.cells.size = 4 ∧
        read.2.maxCells = 9 ∧
        read.2.toList (.list 3) = .ok (.ok [.symbol read.2.keywords.quote, .list 1]) := by
    decide +kernel
  have wellFormed := ((wellFormed_new created).readForms "''a").1
  generalize (Heap.new { maxCells := 9 }).toOption.get (by decide) = heap
    at created checked wellFormed
  rcases read : heap.readForms "''a" with ⟨forms, after⟩
  rw [read] at checked wellFormed
  obtain ⟨rfl, contained, size, maxCells, listed⟩ := checked
  obtain ⟨layers, -, -, -⟩ := wellFormed.quote_layers contained
  obtain ⟨quoted, final, made⟩ := (layers 2).1.mpr (by rw [size, maxCells]; decide)
  obtain ⟨unquoted, layered⟩ := (layers 2).2 quoted final made
  obtain ⟨inner, outer, innerMade, outerMade, wraps⟩ := layered.wraps 1 (by decide)
  obtain rfl : outer = quoted := by
    rw [made] at outerMade
    exact (Except.ok.inj outerMade).symm
  refine ⟨heap, after, inner, outer, final, created, read, ?_, made, unquoted,
    wraps.eval Host.none (.empty 0), ?_, listed⟩
  · rw [← innerMade]
  · rw [(layers 3).1, size, maxCells]
    decide

end Heap

end TaggedLisp
