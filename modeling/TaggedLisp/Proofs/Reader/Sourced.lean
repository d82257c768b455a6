import TaggedLisp.Proofs.Heap.Spine
import TaggedLisp.Proofs.Reader.Effects
import TaggedLisp.Proofs.Reader.Printed

/-! A value is sourced if it consists of lists and of symbols that can be written in a source, and all
cells that can be reached from it are from a given set. What the reader builds is sourced in the cells
that it allocates. Parts of sourced values are sourced, so nothing that takes forms apart leads out of
them. -/

set_option autoImplicit false

namespace TaggedLisp

namespace Heap

/-- The value consists of lists and readable symbols, in cells of the set. -/
inductive Sourced (heap : Heap) (parsed : Set Nat) : Value → Prop where
  | emptyList : Sourced heap parsed .emptyList
  | symbol {id : Nat} {name : String} :
      heap.symbols.name? id = some name → Token.isSymbolText name.toList = true →
      Sourced heap parsed (.symbol id)
  | list {cell : Nat} {link : Cell} :
      cell ∈ parsed → heap.cells[cell]? = some link → Sourced heap parsed link.head →
      link.tail.isList = true → Sourced heap parsed link.tail →
      Sourced heap parsed (.list cell)

variable {heap after : Heap} {parsed other : Set Nat} {value : Value}

theorem Sourced.grow (growth : heap.GrowsTo after) (sourced : heap.Sourced parsed value) :
    after.Sourced parsed value := by
  induction sourced with
  | emptyList => exact .emptyList
  | symbol named isSymbol => exact .symbol (growth.symbols.names named) isSymbol
  | list member found _ isList _ headIH tailIH =>
      exact .list member (growth.cells found) headIH isList tailIH

/-- Only those cells of the set matter that are in the heap. -/
theorem Sourced.mono (subset : ∀ cell ∈ parsed, cell < heap.cells.size → cell ∈ other)
    (sourced : heap.Sourced parsed value) : heap.Sourced other value := by
  induction sourced with
  | emptyList => exact .emptyList
  | symbol named isSymbol => exact .symbol named isSymbol
  | list member found _ isList _ headIH tailIH =>
      have inside := (Array.getElem?_eq_some_iff.mp found).1
      exact .list (subset _ member inside) found headIH isList tailIH

theorem Sourced.exists_unfolds (sourced : heap.Sourced parsed value) :
    ∃ tree, heap.Unfolds value tree ∧ tree.isReadable = true := by
  induction sourced with
  | emptyList => exact ⟨.list [], .emptyList, rfl⟩
  | @symbol id name named isSymbol =>
      refine ⟨.symbol name, .symbol named, ?_⟩
      rw [Tree.isReadable]
      exact isSymbol
  | @list cell link _ found _ isList _ headIH tailIH =>
      obtain ⟨element, head, headReadable⟩ := headIH
      obtain ⟨rest, tail, tailReadable⟩ := tailIH
      obtain ⟨elements, rfl⟩ : ∃ elements, rest = .list elements := by
        generalize link.tail = next at isList tail
        cases tail with
        | emptyList => exact ⟨[], rfl⟩
        | list => exact ⟨_, rfl⟩
        | _ => cases isList
      rw [Tree.isReadable] at tailReadable
      refine ⟨.list (element :: elements), .list found head tail, ?_⟩
      rw [Tree.isReadable, Tree.isReadableEach, headReadable, tailReadable]
      rfl

/-! ### Taking apart -/

theorem Sourced.head (sourced : heap.Sourced parsed value) {element : Value}
    (read : heap.head value = .ok (.ok element)) : heap.Sourced parsed element := by
  cases sourced with
  | emptyList | symbol => cases read
  | list _ found head =>
      rw [Heap.head, cell_of_some found] at read
      cases read
      exact head

theorem Sourced.tail (sourced : heap.Sourced parsed value) {rest : Value}
    (read : heap.tail value = .ok (.ok rest)) : heap.Sourced parsed rest := by
  cases sourced with
  | emptyList | symbol => cases read
  | list _ found _ _ tail =>
      rw [Heap.tail, cell_of_some found] at read
      cases read
      exact tail

theorem Sourced.of_spine (sourced : heap.Sourced parsed value) {elements : List Value}
    (spine : heap.Spine value elements) : ∀ element ∈ elements, heap.Sourced parsed element := by
  induction spine with
  | stop => simp
  | link linked _ ih =>
      cases sourced with
      | list _ found head _ tail =>
          cases linked.symm.trans found
          exact List.forall_mem_cons.mpr ⟨head, ih tail⟩

theorem Sourced.unquote (sourced : heap.Sourced parsed value) {inner : Value}
    (unquoted : heap.unquote value = .ok (.ok inner)) : heap.Sourced parsed inner :=
  sourced.of_spine (unquote_eq_ok_iff.mp unquoted) inner (by simp)

/-- The symbol that a definition binds is as readable as its body. -/
theorem Sourced.definition? (sourced : heap.Sourced parsed value) {symbol : Nat} {body : Value}
    (read : heap.definition? value = .ok (some (symbol, body))) :
    heap.Sourced parsed (.symbol symbol) ∧ heap.Sourced parsed body := by
  have each := sourced.of_spine (definition?_eq_some_iff.mp read)
  exact ⟨each _ (by simp), each _ (by simp)⟩

/-- The arguments of an application are what follows its head. -/
theorem Sourced.arguments {cell : Nat} {head tail : Value}
    (sourced : heap.Sourced parsed (.list cell)) (found : heap.cell cell = .ok ⟨head, tail⟩)
    {forms : List Value} (listed : heap.toList tail = .ok (.ok forms)) :
    ∀ form ∈ forms, heap.Sourced parsed form := by
  intro form member
  have spine := Spine.link (some_of_cell found) (toList_eq_ok_iff.mp listed).2
  exact sourced.of_spine spine form (List.mem_cons_of_mem _ member)

/-! ### Building lists -/

/-- A list of sourced elements is sourced if the set has all cells that are to come. -/
theorem Sourced.listOf (fresh : ∀ cell, heap.cells.size ≤ cell → cell ∈ parsed)
    {values : List Value} (each : ∀ element ∈ values, heap.Sourced parsed element) {list : Value}
    (built : (heap.listOf values).1 = .ok list) :
    list.isList = true ∧ (heap.listOf values).2.Sourced parsed list := by
  induction values generalizing list with
  | nil =>
      cases built
      exact ⟨rfl, .emptyList⟩
  | cons element values ih =>
      obtain ⟨first, others⟩ := List.forall_mem_cons.mp each
      have growth := heap.listOf_growsTo values
      rw [listOf_cons] at built ⊢
      generalize heap.listOf values = result at ih growth built ⊢
      obtain ⟨outcome, middle⟩ := result
      cases outcome with
      | error error => cases built
      | ok tail =>
          obtain ⟨-, sourced⟩ := ih others rfl
          have lastGrowth := middle.cons_growsTo element tail
          have consed := middle.cons_conses element tail
          dsimp only at built ⊢
          generalize middle.cons element tail = result at consed built lastGrowth ⊢
          cases consed with
          | refused | full => cases built
          | added isList =>
              cases built
              refine ⟨rfl, .list (fresh _ growth.cells_size_le) (Array.getElem?_push_size ..) ?_
                isList (sourced.grow lastGrowth)⟩
              exact (first.grow growth).grow lastGrowth

theorem Sourced.quote (keywords : heap.KeywordsNamed)
    (fresh : ∀ cell, heap.cells.size ≤ cell → cell ∈ parsed) (sourced : heap.Sourced parsed value)
    {quoted : Value} (built : (heap.quote value).1 = .ok quoted) :
    (heap.quote value).2.Sourced parsed quoted := by
  refine (Sourced.listOf fresh (fun element member => ?_) built).2
  rcases List.mem_cons.mp member with rfl | member
  · exact .symbol keywords.quote (by decide)
  · exact List.mem_singleton.mp member ▸ sourced

end Heap

/-! ## Reading -/

namespace Reader

theorem Reads.sourced {goal : Goal} {heap : Heap} {depth : Nat} {tokens : List Token}
    {outcome : Except Error Value} {after : Reader}
    (reads : Reads goal heap depth tokens outcome after) (keywords : heap.KeywordsNamed)
    (spelled : ∀ token ∈ goal.input tokens, token.IsSpelled) {parsed : Set Nat}
    (fresh : ∀ cell, heap.cells.size ≤ cell → cell ∈ parsed)
    (readSoFar : ∀ elements, goal = .elements elements →
      ∀ element ∈ elements, heap.Sourced parsed element)
    {value : Value} (succeeded : outcome = .ok value) : after.heap.Sourced parsed value := by
  induction reads generalizing value with
  | @symbol heap _ token _ kind =>
      obtain ⟨id, rfl, named⟩ := Heap.named_of_symbol succeeded
      exact .symbol named (spelled token List.mem_cons_self kind)
  | unexpectedEnd | invalid | quoteAtEnd | quoteBeforeListEnd | quoteFailed | unterminated
  | elementFailed => cases succeeded
  | list _ _ ih =>
      have inside := (List.forall_mem_cons.mp spelled).2
      refine ih keywords inside fresh ?_ succeeded
      intro elements same element member
      cases same
      cases member
  | quote _ _ inner ih =>
      have inside := (List.forall_mem_cons.mp spelled).2
      have quoted := ih keywords inside fresh (fun _ other => by cases other) rfl
      refine quoted.quote (keywords.grow inner.growsTo) ?_ succeeded
      intro cell newer
      exact fresh cell (Nat.le_trans inner.growsTo.cells_size_le newer)
  | close =>
      refine (Heap.Sourced.listOf fresh ?_ succeeded).2
      intro element member
      exact readSoFar _ rfl element (List.mem_reverse.mp member)
  | @element heap _ elements token rest value after _ _ _ first _ firstIH othersIH =>
      have sourced := firstIH keywords spelled fresh (fun _ other => by cases other) rfl
      obtain ⟨front, split, -⟩ := first.interns
      have later : ∀ token ∈ after.tokens, token.IsSpelled := by
        intro next member
        have whole : token :: rest = front ++ after.tokens := split
        exact spelled next (whole ▸ List.mem_append_right front member)
      refine othersIH (keywords.grow first.growsTo) later ?_ ?_ succeeded
      · intro cell newer
        exact fresh cell (Nat.le_trans first.growsTo.cells_size_le newer)
      · intro elements same element member
        cases same
        rcases List.mem_cons.mp member with rfl | old
        · exact sourced
        · exact (readSoFar _ rfl element old).grow first.growsTo

theorem ReadsForms.sourced {heap : Heap} {depth : Nat} {tokens : List Token}
    {outcome : Except Error (List Value)} {after : Reader}
    (reads : ReadsForms heap depth tokens outcome after) (keywords : heap.KeywordsNamed)
    (spelled : ∀ token ∈ tokens, token.IsSpelled) {parsed : Set Nat}
    (fresh : ∀ cell, heap.cells.size ≤ cell → cell ∈ parsed) {forms : List Value}
    (succeeded : outcome = .ok forms) : ∀ form ∈ forms, after.heap.Sourced parsed form := by
  induction reads generalizing forms with
  | done =>
      cases succeeded
      simp
  | failed => cases succeeded
  | @more _ _ token rest _ middle outcome _ first others ih =>
      cases outcome with
      | error => cases succeeded
      | ok later =>
          cases succeeded
          have sourced := first.sourced keywords spelled fresh (fun _ other => by cases other) rfl
          obtain ⟨front, split, -⟩ := first.interns
          have left : ∀ token ∈ middle.tokens, token.IsSpelled := by
            intro next member
            have whole : token :: rest = front ++ middle.tokens := split
            exact spelled next (whole ▸ List.mem_append_right front member)
          refine List.forall_mem_cons.mpr ⟨sourced.grow others.growsTo, ?_⟩
          refine ih (keywords.grow first.growsTo) left ?_ rfl
          intro cell newer
          exact fresh cell (Nat.le_trans first.growsTo.cells_size_le newer)

end Reader

namespace Heap

/-- The forms of a source are sourced in the cells that reading it allocates. -/
theorem KeywordsNamed.sourced_of_readForms {heap after : Heap} (keywords : heap.KeywordsNamed)
    {source : String} {forms : List Value} (read : heap.readForms source = (.ok forms, after)) :
    ∀ form ∈ forms, after.Sourced (Set.Ico heap.cells.size after.cells.size) form := by
  have reads := Reader.forms_reads (Reader.ofSource heap source)
  unfold readForms at read
  generalize (Reader.ofSource heap source).forms = result at reads read
  obtain ⟨outcome, reader⟩ := result
  cases read
  intro form member
  have sourced : reader.heap.Sourced (Set.Ici heap.cells.size) form :=
    reads.sourced keywords (fun _ => Token.isSpelled_of_mem_ofSource) (fun _ newer => newer) rfl form
      member
  exact sourced.mono fun cell newer inside => ⟨newer, inside⟩

end Heap

end TaggedLisp
