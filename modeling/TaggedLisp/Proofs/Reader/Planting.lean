import TaggedLisp.Proofs.Reader.Room

/-! What a source is read to depends only on the trees that its tokens spell. Reading builds these
trees one after the other, each list once its elements are there. -/

set_option autoImplicit false

namespace TaggedLisp

namespace Heap

/-- The list of some leading values and of what was built after them. -/
def bundled (leading : List Value) :
    Except Error (List Value) × Heap → Except Error Value × Heap
  | (.ok values, heap) => heap.listOf (leading ++ values)
  | (.error error, heap) => (.error error, heap)

mutual

/-- Builds a tree in the heap, as far as there is room. -/
def plant (heap : Heap) : Tree → Except Error Value × Heap
  | .internal cause => (.ok (.internal cause), heap)
  | .error cause =>
    let (value, heap) := heap.addError cause
    (.ok value, heap)
  | .symbol name => heap.symbol name
  | .lambda _ contents => heap.addLambda contents
  | .list elements => bundled [] (heap.plantEach elements)

def plantEach (heap : Heap) : List Tree → Except Error (List Value) × Heap
  | [] => (.ok [], heap)
  | element :: elements =>
    match heap.plant element with
    | (.ok value, heap) =>
      let (outcome, heap) := heap.plantEach elements
      (outcome.map (value :: ·), heap)
    | (.error error, heap) => (.error error, heap)

end

variable {heap middle : Heap} {tree : Tree} {trees : List Tree}

@[simp] theorem plant_symbol (heap : Heap) (name : String) :
    heap.plant (.symbol name) = heap.symbol name := by
  rw [plant]

@[simp] theorem plant_list (heap : Heap) (elements : List Tree) :
    heap.plant (.list elements) = bundled [] (heap.plantEach elements) := by
  rw [plant]

@[simp] theorem plantEach_nil (heap : Heap) : heap.plantEach [] = (.ok [], heap) := by
  rw [plantEach]

theorem plantEach_cons_of_ok {value : Value} (planted : heap.plant tree = (.ok value, middle)) :
    heap.plantEach (tree :: trees) =
      ((middle.plantEach trees).1.map (value :: ·), (middle.plantEach trees).2) := by
  rw [plantEach, planted]

theorem plantEach_cons_of_error {error : Error} (failed : heap.plant tree = (.error error, middle)) :
    heap.plantEach (tree :: trees) = (.error error, middle) := by
  rw [plantEach, failed]

theorem bundled_prepend (leading : List Value) (value : Value)
    (built : Except Error (List Value) × Heap) :
    bundled leading (built.1.map (value :: ·), built.2) = bundled (leading ++ [value]) built := by
  obtain ⟨outcome, heap⟩ := built
  cases outcome with
  | error => rfl
  | ok values =>
      simp only [bundled, Except.map, List.append_assoc, List.singleton_append]

/-- A keyword is in every table, so naming it changes nothing. -/
theorem KeywordsNamed.symbol_quote {heap : Heap} (keywords : heap.KeywordsNamed) :
    heap.symbol "quote" = (.ok (.symbol heap.keywords.quote), heap) := by
  have known := SymbolTable.name?_eq_some_iff_find?.mp keywords.quote
  have interned := heap.symbols.intern_interned "quote"
  simp only [symbol, Heap.intern]
  generalize heap.symbols.intern "quote" = result at interned ⊢
  cases interned with
  | present found => cases known.symm.trans found; rfl
  | refused badLength => exact absurd badLength (by decide)
  | full absent | added absent => cases known.symm.trans absent

theorem plant_quoted {value : Value} (planted : heap.plant tree = (.ok value, middle))
    (before : heap.KeywordsNamed) (after : middle.keywords = heap.keywords) :
    heap.plant tree.quoted = middle.quote value := by
  have keyword : heap.plant (.symbol "quote") = (.ok (.symbol heap.keywords.quote), heap) := by
    rw [plant_symbol, before.symbol_quote]
  rw [Tree.quoted, plant_list, plantEach_cons_of_ok keyword, bundled_prepend,
    plantEach_cons_of_ok planted, bundled_prepend, plantEach_nil, quote, after]
  rfl

theorem plant_quoted_of_error {error : Error} (failed : heap.plant tree = (.error error, middle))
    (keywords : heap.KeywordsNamed) : heap.plant tree.quoted = (.error error, middle) := by
  have keyword : heap.plant (.symbol "quote") = (.ok (.symbol heap.keywords.quote), heap) := by
    rw [plant_symbol, keywords.symbol_quote]
  rw [Tree.quoted, plant_list, plantEach_cons_of_ok keyword, bundled_prepend,
    plantEach_cons_of_error failed]
  rfl

end Heap

namespace Reader

/-- Reading does what building does, and after a success these tokens are left. -/
structure ReadsLike {α : Type} (built : Except Error α × Heap) (rest : List Token)
    (outcome : Except Error α) (after : Reader) : Prop where
  built : built = (outcome, after.heap)
  rest : ∀ result, outcome = .ok result → after.tokens = rest

mutual

/-- From the tokens of a form its tree is built. -/
theorem readsLike_plant {input : List Token} {tree : Tree} (spells : Spells input tree)
    {token : Token} {more : List Token} (split : input = token :: more) {rest : List Token}
    {heap : Heap} {depth : Nat} {outcome : Except Error Value} {after : Reader}
    (reads : Reads (.form token) heap depth (more ++ rest) outcome after)
    (keywords : heap.KeywordsNamed) : ReadsLike (heap.plant tree) rest outcome after := by
  cases spells with
  | symbol kind =>
      cases split
      obtain ⟨rfl, rfl⟩ := reads.of_symbol kind
      exact ⟨heap.plant_symbol _, fun _ _ => rfl⟩
  | @list opening closing tokens trees opens each closes =>
      cases split
      have inner := reads.of_listStart opens
      rw [List.append_assoc] at inner
      rw [Heap.plant_list]
      exact readsLike_plantEach each closes inner keywords
  | @quote mark tokens tree marks spells =>
      cases split
      obtain ⟨next, following, rfl, opens⟩ := spells.exists_cons
      rcases reads.of_quote marks opens with ⟨error, rfl, inner⟩ | ⟨value, middle, inner, rfl, rfl⟩
      · have planted := (readsLike_plant spells rfl inner keywords).built
        exact ⟨Heap.plant_quoted_of_error planted keywords, fun _ same => by cases same⟩
      · obtain ⟨planted, left⟩ := readsLike_plant spells rfl inner keywords
        exact ⟨Heap.plant_quoted planted keywords inner.growsTo.keywords, fun _ _ => left value rfl⟩

/-- Up to the closing parenthesis the remaining elements are built, and then the list of all. -/
theorem readsLike_plantEach {input : List Token} {trees : List Tree}
    (spells : SpellsEach input trees) {closing : Token} (closes : closing.kind = .listEnd)
    {readSoFar : List Value} {rest : List Token} {heap : Heap} {depth : Nat}
    {outcome : Except Error Value} {after : Reader}
    (reads : Reads (.elements readSoFar) heap depth (input ++ closing :: rest) outcome after)
    (keywords : heap.KeywordsNamed) :
    ReadsLike (Heap.bundled readSoFar.reverse (heap.plantEach trees)) rest outcome after := by
  cases spells with
  | nil =>
      obtain ⟨rfl, rfl⟩ := reads.of_listEnd closes
      rw [Heap.plantEach_nil, Heap.bundled, List.append_nil]
      exact ⟨rfl, fun _ _ => rfl⟩
  | @cons front back tree trees first others =>
      obtain ⟨next, following, rfl, opens⟩ := first.exists_cons
      rw [List.append_assoc, List.cons_append] at reads
      rcases reads.of_ne_listEnd opens with ⟨error, rfl, inner⟩ | ⟨value, middle, inner, later⟩
      · have planted := (readsLike_plant first rfl inner keywords).built
        rw [Heap.plantEach_cons_of_error planted]
        exact ⟨rfl, fun _ same => by cases same⟩
      · obtain ⟨planted, left⟩ := readsLike_plant first rfl inner keywords
        rw [left value rfl] at later
        rw [Heap.plantEach_cons_of_ok planted, Heap.bundled_prepend, ← List.reverse_cons]
        exact readsLike_plantEach others closes later (keywords.grow inner.growsTo)

end

theorem ReadsForms.readsLike_plantEach {input : List Token} {trees : List Tree}
    (spells : SpellsEach input trees) {heap : Heap} {depth : Nat}
    {outcome : Except Error (List Value)} {after : Reader}
    (reads : ReadsForms heap depth input outcome after) (keywords : heap.KeywordsNamed) :
    heap.plantEach trees = (outcome, after.heap) := by
  induction trees generalizing input heap depth outcome after with
  | nil =>
      cases spells
      cases reads
      exact Heap.plantEach_nil heap
  | cons tree trees ih =>
      cases spells with
      | @cons front back _ _ first others =>
          obtain ⟨next, following, rfl, opens⟩ := first.exists_cons
          rw [List.cons_append] at reads
          cases reads with
          | failed inner =>
              exact Heap.plantEach_cons_of_error (readsLike_plant first rfl inner keywords).built
          | more inner later =>
              obtain ⟨planted, left⟩ := readsLike_plant first rfl inner keywords
              rw [left _ rfl] at later
              rw [Heap.plantEach_cons_of_ok planted,
                ih others later (keywords.grow inner.growsTo)]

end Reader

namespace Heap

theorem parse_eq_bundled (heap : Heap) (source : String) :
    heap.parse source = bundled [] (heap.readForms source) := by
  unfold parse
  generalize heap.readForms source = built
  obtain ⟨outcome, heap⟩ := built
  cases outcome <;> rfl

/-- Reading a source is building the list of the trees that its tokens spell. -/
theorem KeywordsNamed.parse_eq_plant {heap : Heap} (keywords : heap.KeywordsNamed) {source : String}
    {trees : List Tree} (spells : SpellsEach (Token.ofSource source) trees) :
    heap.parse source = heap.plant (.list trees) := by
  have built : heap.plantEach trees = heap.readForms source :=
    (Reader.forms_reads (Reader.ofSource heap source)).readsLike_plantEach spells keywords
  rw [plant_list, built, parse_eq_bundled]

end Heap

end TaggedLisp
