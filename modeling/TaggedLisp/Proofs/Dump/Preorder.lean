import TaggedLisp.Proofs.Dump.Listing
import TaggedLisp.Proofs.Screening
import TaggedLisp.Proofs.Walks

/-! The dump of a value is a listing of its outline: the words of the value and of what it leads to,
taken apart down to symbols and empty lists. Shared cells are listed wherever they are met. Whoever has
the text of a dump can read the outline off it, and check it. -/

set_option autoImplicit false

namespace TaggedLisp

open DumpLine

namespace Heap

variable {heap : Heap} {value : Value}

/-! ## Outlines of values -/

mutual

/-- The outline tells the word of the value and, in order, outlines its elements. -/
inductive Outlines (heap : Heap) : Value → Outline → Prop where
  | node {value : Value} {elements : List Value} {parts : List Outline} :
      heap.Spine value elements → OutlinesEach heap elements parts →
      Outlines heap value (.node value.word parts)

inductive OutlinesEach (heap : Heap) : List Value → List Outline → Prop where
  | nil : OutlinesEach heap [] []
  | cons {element : Value} {elements : List Value} {part : Outline} {parts : List Outline} :
      Outlines heap element part → OutlinesEach heap elements parts →
      OutlinesEach heap (element :: elements) (part :: parts)

end

mutual

theorem Outlines.unique {value : Value} {outline other : Outline}
    (outlines : heap.Outlines value outline) (others : heap.Outlines value other) :
    outline = other := by
  cases outlines with
  | node spine each =>
      cases others with
      | node otherSpine otherEach =>
          cases spine.unique otherSpine
          rw [each.unique otherEach]

theorem OutlinesEach.unique {elements : List Value} {parts others : List Outline}
    (outlines : heap.OutlinesEach elements parts) (same : heap.OutlinesEach elements others) :
    parts = others := by
  cases outlines with
  | nil => cases same; rfl
  | cons first rest =>
      cases same with
      | cons otherFirst otherRest => rw [first.unique otherFirst, rest.unique otherRest]

end

theorem OutlinesEach.length_eq {elements : List Value} {parts : List Outline}
    (each : heap.OutlinesEach elements parts) : elements.length = parts.length := by
  induction elements generalizing parts with
  | nil => cases each; rfl
  | cons element elements ih =>
      cases each with
      | cons _ rest => rw [List.length_cons, List.length_cons, ih rest]

theorem Unfolds.exists_outlines {tree : Tree} (unfolds : heap.Unfolds value tree) :
    ∃ outline, heap.Outlines value outline := by
  induction unfolds with
  | list found _ _ headIH tailIH =>
      obtain ⟨first, head⟩ := headIH
      obtain ⟨rest, tail⟩ := tailIH
      cases tail with
      | node spine each => exact ⟨_, .node (.link found spine) (.cons head each)⟩
  | _ => exact ⟨_, .node (.stop rfl) .nil⟩

/-! ## Values of symbols and lists -/

/-- Symbols and lists are all that the value leads to. -/
def IsPlain (heap : Heap) (value : Value) : Prop :=
  ∀ part, heap.LeadsTo value part → part.isList = true ∨ part.symbol?.isSome = true

theorem LeadsTo.trans {middle last : Value} (first : heap.LeadsTo value middle)
    (second : heap.LeadsTo middle last) : heap.LeadsTo value last := by
  induction second with
  | refl => exact first
  | head _ found ih => exact .head ih found
  | tail _ found ih => exact .tail ih found

theorem Spine.leadsTo {elements : List Value} {element : Value}
    (spine : heap.Spine value elements) (member : element ∈ elements) :
    heap.LeadsTo value element := by
  induction spine with
  | stop => cases member
  | link found _ ih =>
      rcases List.mem_cons.mp member with rfl | later
      · exact .head .refl found
      · exact LeadsTo.trans (.tail .refl found) (ih later)

theorem IsPlain.element {elements : List Value} (plain : heap.IsPlain value)
    (spine : heap.Spine value elements) : ∀ element ∈ elements, heap.IsPlain element :=
  fun _ member part leads => plain part ((spine.leadsTo member).trans leads)

/-! ## Dumps -/

theorem exists_name_of_dumpWithin {depth level id : Nat} {lines : List DumpLine}
    (dumped : heap.dumpWithin (depth + 1) level (.symbol id) = .ok lines) :
    ∃ name, lines = (Value.symbol id).word.dump level ++
      [⟨level, "symbol value", Text.quoted name⟩] := by
  simp only [dumpWithin] at dumped
  obtain ⟨name, -, dumped⟩ := exists_of_bind_eq_ok dumped
  cases dumped
  exact ⟨name, rfl⟩

theorem exists_dumps_of_dumpWithin {depth level cell : Nat} {lines : List DumpLine}
    (dumped : heap.dumpWithin (depth + 1) level (.list cell) = .ok lines) :
    ∃ elements dumps, heap.elements (.list cell) = .ok elements ∧
      elements.mapM (heap.dumpWithin depth (level + 1)) = .ok dumps ∧
      lines = (Value.list cell).word.dump level ++
        ⟨level, "list count", toString elements.length⟩ :: ⟨level, "list values", ""⟩ ::
          dumps.flatMap (⟨level + 1, "--------", ""⟩ :: ·) := by
  simp only [dumpWithin] at dumped
  obtain ⟨elements, listed, dumped⟩ := exists_of_bind_eq_ok dumped
  obtain ⟨dumps, walked, dumped⟩ := exists_of_bind_eq_ok dumped
  cases dumped
  exact ⟨elements, dumps, listed, walked, rfl⟩

/-- Dumps that list the outlines of the elements, each behind a separator, list all of them. -/
theorem OutlinesEach.lists {level bound : Nat} (within : level < bound)
    {walk : Value → Checked (List DumpLine)} {elements : List Value} {parts : List Outline}
    {dumps : List (List DumpLine)} (each : heap.OutlinesEach elements parts)
    (lists : ∀ element ∈ elements, ∀ outline lines, heap.Outlines element outline →
      walk element = .ok lines →
      Outline.Lists level bound (outline.preorder level) (outline.partCounts level) lines)
    (walked : elements.mapM walk = .ok dumps) :
    Outline.Lists level bound (Outline.preorderEach level parts)
      (Outline.partCountsEach level parts) (dumps.flatMap (⟨level, "--------", ""⟩ :: ·)) := by
  induction elements generalizing parts dumps with
  | nil =>
      cases each
      cases walked
      exact Outline.lists_nil
  | cons element elements ih =>
      cases each with
      | cons first rest =>
          rw [List.mapM_cons] at walked
          obtain ⟨lines, firstWalked, walked⟩ := exists_of_bind_eq_ok walked
          obtain ⟨later, restWalked, walked⟩ := exists_of_bind_eq_ok walked
          cases walked
          have head := lists element List.mem_cons_self _ _ first firstWalked
          have tail := ih rest (fun other member =>
            lists other (List.mem_cons_of_mem _ member)) restWalked
          exact head.cons within tail

theorem Outlines.lists {depth level : Nat} {outline : Outline} {lines : List DumpLine}
    (plain : heap.IsPlain value) (outlines : heap.Outlines value outline)
    (dumped : heap.dumpWithin depth level value = .ok lines) :
    Outline.Lists level (level + depth) (outline.preorder level) (outline.partCounts level) lines := by
  induction depth generalizing level value outline lines with
  | zero => cases dumped
  | succ depth ih =>
      have within : level < level + (depth + 1) := by omega
      obtain ⟨details, shape, isDetail⟩ := value.word.exists_dump_eq level
      cases outlines with
      | @node _ elements parts spine each =>
          cases value with
          | emptyList =>
              cases spine
              cases each
              cases dumped
              rw [List.append_nil, shape]
              exact Outline.lists_leaf within isDetail
          | symbol id =>
              obtain ⟨name, rfl⟩ := exists_name_of_dumpWithin dumped
              cases spine
              cases each
              rw [shape, List.append_assoc]
              refine Outline.lists_leaf within (List.forall_mem_append.mpr ⟨isDetail, ?_⟩)
              exact List.forall_mem_singleton.mpr
                (isDetail_of (by decide) (Text.isOneLine_quoted name))
          | list cell =>
              obtain ⟨_, dumps, listed, walked, rfl⟩ := exists_dumps_of_dumpWithin dumped
              cases (elements_eq_ok_iff.mp listed).unique spine
              -- A list has elements, so their dumps have taken some of the depth.
              have deeper : 0 < depth := by
                rcases Nat.eq_zero_or_pos depth with rfl | positive
                · cases spine with
                  | stop outside => cases outside
                  | link => cases walked
                · exact positive
              have parts := each.lists (by omega : level + 1 < level + 1 + depth)
                (fun element member outline lines outlines dumped =>
                  ih (plain.element spine element member) outlines dumped) walked
              rw [Nat.add_right_comm] at parts
              rw [shape, List.append_assoc, each.length_eq]
              cases spine with
              | stop outside => cases outside
              | link =>
                  cases each with
                  | cons => exact Outline.Lists.list within isDetail parts
          | _ => exact absurd (plain _ .refl) (by simp [Value.isList, Value.symbol?])

/-- The text of a dump can be read, and its lines list the words of the outline in preorder. There is just
one outline with this listing. Every word is said two times more, every list says how many blocks are
those of its elements, and indentations have the width that their level asks for. -/
theorem WellFormed.describe_lists_preorder (wellFormed : heap.WellFormed)
    (contained : heap.contains value = true) (plain : heap.IsPlain value) :
    ∃ text lines outline, heap.describe value = .ok text ∧ ofText? text = some lines ∧
      heap.Outlines value outline ∧ words lines = outline.preorder 0 ∧
      (∀ other : Outline, words lines = other.preorder 0 → other = outline) ∧
      counts lines = outline.partCounts 0 ∧ Agree lines ∧
      ∀ line ∈ lines, (indentation line.level).length = 8 * line.level ∧
        line.level ≤ heap.cells.size := by
  obtain ⟨tree, unfolds⟩ := wellFormed.exists_unfolds contained
  obtain ⟨outline, outlines⟩ := unfolds.exists_outlines
  obtain ⟨lines, dumped⟩ := unfolds.exists_dumpWithin (Nat.lt_succ_of_le unfolds.height_le) 0
  have lists := outlines.lists plain dumped
  have described : heap.describe value = .ok (String.join (lines.map render)) := by
    simp only [describe, dumpLines, dumped]
    rfl
  refine ⟨_, lines, outline, described, ofText?_render lists.readable, outlines, lists.words, ?_,
    lists.counts, ?_, fun line member => ⟨length_indentation line.level, ?_⟩⟩
  · intro other same
    exact Outline.preorder_injective 0 (same.symm.trans lists.words)
  · have agree := lists.agree [] agree_nil (Outline.startsBy_nil 0)
    rwa [List.append_nil] at agree
  · have := lists.level_lt line member
    omega

/-- A list that holds one list twice, of a symbol whose name looks like a line of a dump. -/
theorem describe_lists_preorder_of_shared_list :
    ∃ (heap : Heap) (value : Value) (text : String) (lines : List DumpLine),
      heap.WellFormed ∧ heap.contains value = true ∧ heap.IsPlain value ∧
      heap.describe value = .ok text ∧ ofText? text = some lines ∧
      words lines = [(0, ⟨29⟩), (1, ⟨5⟩), (2, ⟨19⟩), (1, ⟨5⟩), (2, ⟨19⟩), (1, ⟨2⟩)] ∧
      counts lines = [(0, 3), (1, 1), (1, 1)] ∧ Agree lines := by
  have created : Heap.new {} = .ok ((Heap.new {}).toOption.get (by decide)) := rfl
  let named := (((Heap.new {}).toOption.get (by decide)).symbol "a\ndecimal          7").2
  let inner := (named.listOf [.symbol 2]).2
  let heap := (inner.listOf [.list 0, .list 0, .emptyList]).2
  have wellFormed : heap.WellFormed := by
    have first : named.WellFormed := ((wellFormed_new created).keeps_symbol _).wellFormed
    have second : inner.WellFormed := (first.keeps_listOf (by decide +kernel)).wellFormed
    exact (second.keeps_listOf (by decide +kernel)).wellFormed
  have contained : heap.contains (.list 3) = true := by decide +kernel
  have found : heap.cells = #[⟨.symbol 2, .emptyList⟩, ⟨.emptyList, .emptyList⟩,
      ⟨.list 0, .list 1⟩, ⟨.list 0, .list 2⟩] := by
    decide +kernel
  generalize heap = heap at wellFormed contained found
  have plain : heap.IsPlain (.list 3) := by
    have links : ∀ link ∈ heap.cells, (link.head.isList = true ∨ link.head.symbol?.isSome = true) ∧
        link.tail.isList = true := by
      rw [found]
      decide
    intro part leads
    cases leads with
    | refl => exact .inl rfl
    | head _ met => exact (links _ (Array.mem_of_getElem? met)).1
    | tail _ met => exact .inl (links _ (Array.mem_of_getElem? met)).2
  have symbolList : heap.Outlines (.list 0) (.node ⟨5⟩ [.node ⟨19⟩ []]) := by
    have inside : heap.cells[0]? = some ⟨.symbol 2, .emptyList⟩ := by rw [found]; rfl
    exact .node (.link inside (.stop rfl)) (.cons (.node (.stop rfl) .nil) .nil)
  have outlines : heap.Outlines (.list 3)
      (.node ⟨29⟩ [.node ⟨5⟩ [.node ⟨19⟩ []], .node ⟨5⟩ [.node ⟨19⟩ []], .node ⟨2⟩ []]) := by
    have last : heap.cells[1]? = some ⟨.emptyList, .emptyList⟩ := by rw [found]; rfl
    have second : heap.cells[2]? = some ⟨.list 0, .list 1⟩ := by rw [found]; rfl
    have first : heap.cells[3]? = some ⟨.list 0, .list 2⟩ := by rw [found]; rfl
    exact .node (.link first (.link second (.link last (.stop rfl))))
      (.cons symbolList (.cons symbolList (.cons (.node (.stop rfl) .nil) .nil)))
  obtain ⟨text, lines, outline, described, read, others, listed, -, counted, agree, -⟩ :=
    wellFormed.describe_lists_preorder contained plain
  cases others.unique outlines
  exact ⟨heap, _, text, lines, wellFormed, contained, plain, described, read, listed, counted, agree⟩

end Heap

end TaggedLisp
