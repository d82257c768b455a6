import TaggedLisp.Proofs.Heap.Shape
import TaggedLisp.Proofs.Reader.Pushdown
import TaggedLisp.Proofs.Token

/-! The reader does what the automaton does, token for token, as long as no store fills up. It calls
itself for every form, so its state is the state of the automaton together with what its callers
keep: a caller in the middle of a list keeps the elements read so far, and one behind a quote mark
keeps the mark. -/

set_option autoImplicit false

namespace TaggedLisp

def Error.isLimit : Error → Bool
  | .outOfMemory | .symbolLimitExceeded _ => true
  | _ => false

namespace Reader

/-! ## Tokens are consumed from the front -/

theorem Reads.tokens_suffix {goal : Goal} {heap : Heap} {depth : Nat} {tokens : List Token}
    {outcome : Except Error Value} {after : Reader}
    (reads : Reads goal heap depth tokens outcome after) : after.tokens <:+ tokens := by
  induction reads with
  | symbol | unexpectedEnd | invalid | quoteAtEnd | unterminated => exact List.suffix_refl _
  | quoteBeforeListEnd | close => exact List.suffix_cons _ _
  | list _ _ ih => exact ih
  | quoteFailed _ _ _ ih | quote _ _ _ ih | elementFailed _ _ ih =>
      exact ih.trans (List.suffix_cons _ _)
  | element _ _ _ firstIH othersIH =>
      exact othersIH.trans (firstIH.trans (List.suffix_cons _ _))

/-! ## The automaton inside a goal -/

def Goal.input : Goal → List Token → List Token
  | .form token, tokens => token :: tokens
  | .elements _, tokens => tokens

/-- Where the callers of a goal have brought the automaton to the given outer state, the goal itself
is at the inner state. -/
inductive Goal.Within (heap : Heap) : Goal → Pushdown → Pushdown → Prop where
  | form {token : Token} {outer : Pushdown} :
      (token.kind = .listEnd → outer.pending = []) → Within heap (.form token) outer outer
  | elements {readSoFar : List Value} {elements : List Tree} {outer : Pushdown} :
      List.Forall₂ heap.Unfolds readSoFar elements →
      Within heap (.elements readSoFar) outer ⟨.list elements :: outer.pending, outer.forms⟩

/-- The reader and the automaton agree: a value of the reader stands for the tree that the automaton
delivers to the callers, and an error is the one where the automaton is stuck, unless a store is
full. -/
def Follows (outer : Pushdown) (expected : Except Error (List Tree))
    (outcome : Except Error Value) (after : Reader) : Prop :=
  match outcome with
  | .ok value => ∃ tree, after.heap.Unfolds value tree ∧
      expected = (Pushdown.deliver outer.forms outer.pending tree).run after.tokens
  | .error error => error.isLimit = true ∨ expected = .error error

/-- A form that does not start with a closing parenthesis may stand anywhere. -/
private theorem within_of_ne_listEnd {heap : Heap} {token : Token} (opens : token.kind ≠ .listEnd)
    (outer : Pushdown) : Goal.Within heap (.form token) outer outer :=
  .form fun closes => absurd closes opens

/-- An error goes through to all callers. -/
private theorem Follows.of_error {outer : Pushdown} {expected : Except Error (List Tree)}
    {error : Error} {after : Reader} (follows : Follows outer expected (.error error) after)
    (caller : Pushdown) : Follows caller expected (.error error) after :=
  follows

private theorem follows_symbol {heap : Heap} {depth : Nat} {token : Token} {tokens : List Token}
    (kind : token.kind = .symbol) (spelled : token.IsSpelled) (outer : Pushdown) :
    Follows outer (outer.run (token :: tokens)) (heap.symbol token.text).1
      ⟨tokens, (heap.symbol token.text).2, depth⟩ := by
  have interned := heap.symbols.intern_interned token.text
  have length := Token.utf8ByteSize_of_isSymbolText (spelled kind)
  rw [Pushdown.run_symbol kind]
  simp only [Heap.symbol, Heap.intern]
  generalize heap.symbols.intern token.text = result at interned ⊢
  cases interned with
  | refused badLength =>
      rcases badLength with empty | tooLong
      · rw [length.1] at empty
        cases empty
      · exact absurd tooLong (Nat.not_lt_of_le length.2)
  | present found =>
      exact ⟨_, .symbol (SymbolTable.name?_eq_some_iff_find?.mpr found), rfl⟩
  | full => exact .inl rfl
  | added absent => exact ⟨_, .symbol (heap.symbols.name?_push_size _ absent), rfl⟩

private theorem follows_listOf {heap : Heap} {depth : Nat} {tokens : List Token}
    {values : List Value} {trees : List Tree} (each : List.Forall₂ heap.Unfolds values trees)
    {outer : Pushdown} {expected : Except Error (List Tree)}
    (delivers : expected =
      (Pushdown.deliver outer.forms outer.pending (.list trees)).run tokens) :
    Follows outer expected (heap.listOf values).1 ⟨tokens, (heap.listOf values).2, depth⟩ := by
  rcases Heap.listOf_outOfMemory_or_unfolds each with ⟨full, -⟩ | ⟨list, built, unfolds, -⟩
  · rw [full]
    exact .inl rfl
  · rw [built]
    exact ⟨_, unfolds, delivers⟩

theorem Reads.follows {goal : Goal} {heap : Heap} {depth : Nat} {tokens : List Token}
    {outcome : Except Error Value} {after : Reader}
    (reads : Reads goal heap depth tokens outcome after) (keywords : heap.KeywordsNamed)
    (spelled : ∀ token ∈ goal.input tokens, token.IsSpelled) {outer state : Pushdown}
    (within : goal.Within heap outer state) :
    Follows outer (state.run (goal.input tokens)) outcome after := by
  induction reads generalizing outer state with
  | symbol kind =>
      cases within
      exact follows_symbol kind (spelled _ List.mem_cons_self) outer
  | unexpectedEnd kind =>
      cases within with
      | form top =>
          obtain ⟨pending, forms⟩ := outer
          cases top kind
          exact .inr (Pushdown.run_listEnd_of_empty kind forms)
  | invalid kind =>
      cases within
      exact .inr (Pushdown.run_invalid kind)
  | list opens _ ih =>
      cases within
      rw [Goal.input, Pushdown.run_listStart opens]
      exact ih keywords (List.forall_mem_cons.mp spelled).2 (.elements .nil)
  | quoteAtEnd marks =>
      cases within
      exact .inr (Pushdown.run_quote marks)
  | quoteBeforeListEnd marks closes =>
      cases within
      refine .inr ?_
      rw [Goal.input, Pushdown.run_quote marks, Pushdown.run_listEnd_of_quote closes]
  | quoteFailed marks opens _ ih =>
      cases within
      rw [Goal.input, Pushdown.run_quote marks]
      have failed := ih keywords (List.forall_mem_cons.mp spelled).2
        (within_of_ne_listEnd opens ⟨.quote :: outer.pending, outer.forms⟩)
      exact failed.of_error outer
  | quote marks opens inner ih =>
      cases within
      rw [Goal.input, Pushdown.run_quote marks]
      obtain ⟨tree, unfolds, delivers⟩ :=
        ih keywords (List.forall_mem_cons.mp spelled).2 (within_of_ne_listEnd opens _)
      have keyword := (keywords.grow inner.growsTo).quote
      exact follows_listOf (.cons (.symbol keyword) (.cons unfolds .nil)) delivers
  | unterminated =>
      cases within
      exact .inr rfl
  | close closes =>
      cases within with
      | elements each =>
          exact follows_listOf (List.forall₂_reverse_iff.mpr each)
            (Pushdown.run_listEnd closes _ _ _)
  | elementFailed opens _ ih =>
      cases within
      exact (ih keywords spelled (within_of_ne_listEnd opens _)).of_error outer
  | element opens first others firstIH othersIH =>
      cases within with
      | @elements _ elements _ each =>
          -- For the element this list is the caller; after it the list goes on with one tree more.
          obtain ⟨tree, unfolds, delivers⟩ := firstIH keywords spelled
            (within_of_ne_listEnd opens ⟨.list elements :: outer.pending, outer.forms⟩)
          have each := Heap.unfoldsEach_grow first.growsTo each
          simp only [Goal.input] at delivers ⊢
          rw [delivers]
          exact othersIH (keywords.grow first.growsTo)
            (fun token member =>
              spelled token (List.mem_cons_of_mem _ (first.tokens_suffix.subset member)))
            (.elements (.cons unfolds each))

/-- The same for top-level forms, after the given ones. -/
def FollowsEach (forms : List Tree) (expected : Except Error (List Tree))
    (outcome : Except Error (List Value)) (after : Reader) : Prop :=
  match outcome with
  | .ok values => ∃ trees, List.Forall₂ after.heap.Unfolds values trees ∧
      expected = .ok (forms.reverse ++ trees)
  | .error error => error.isLimit = true ∨ expected = .error error

theorem ReadsForms.follows {heap : Heap} {depth : Nat} {tokens : List Token}
    {outcome : Except Error (List Value)} {after : Reader}
    (reads : ReadsForms heap depth tokens outcome after) (keywords : heap.KeywordsNamed)
    (spelled : ∀ token ∈ tokens, token.IsSpelled) (forms : List Tree) :
    FollowsEach forms (Pushdown.run ⟨[], forms⟩ tokens) outcome after := by
  induction reads generalizing forms with
  | done => exact ⟨[], .nil, by simp [Pushdown.run, Pushdown.finish]⟩
  | failed first => exact first.follows keywords spelled (.form fun _ => rfl)
  | @more heap _ token rest value _ outcome _ first others ih =>
      have top : Goal.Within heap (.form token) ⟨[], forms⟩ ⟨[], forms⟩ := .form fun _ => rfl
      obtain ⟨tree, unfolds, delivers⟩ := first.follows keywords spelled top
      have later := ih (keywords.grow first.growsTo) (fun token member =>
        spelled token (List.mem_cons_of_mem _ (first.tokens_suffix.subset member))) (tree :: forms)
      rw [Goal.input] at delivers
      rw [delivers]
      cases outcome with
      | error error => exact later
      | ok values =>
          obtain ⟨trees, each, accepted⟩ := later
          refine ⟨tree :: trees, .cons (unfolds.grow others.growsTo) each, ?_⟩
          simpa [Pushdown.deliver] using accepted

/-! ## Room

A token never costs more than three cells and one symbol: two cells for a quote mark, one for a form
as an element of a list. -/

def Goal.demand : Goal → List Token → Nat
  | .form _, tokens => 3 * (tokens.length + 1)
  | .elements readSoFar, tokens => readSoFar.length + 3 * tokens.length

/-- What is left of that in the end. A form leaves a cell for itself as an element. -/
def Goal.left : Goal → List Token → Nat
  | .form _, tokens => 3 * tokens.length + 1
  | .elements _, tokens => 3 * tokens.length

/-- A goal keeps to its demand, and a store is full only if there was less room than that. -/
def KeepsToDemand {α : Type} (heap : Heap) (demand names : Nat) (left : α → List Token → Nat)
    (outcome : Except Error α) (after : Reader) : Prop :=
  match outcome with
  | .ok result => after.heap.cells.size + left result after.tokens ≤ heap.cells.size + demand ∧
      after.heap.symbols.size + after.tokens.length ≤ heap.symbols.size + names
  | .error .outOfMemory => heap.maxCells < heap.cells.size + demand
  | .error (.symbolLimitExceeded _) => heap.symbols.capacity < heap.symbols.size + names
  | .error _ => True

private theorem keepsToDemand_listOf {start heap : Heap} {demand names : Nat}
    {left : List Token → Nat} {depth : Nat} {tokens : List Token} {values : List Value}
    (growth : start.GrowsTo heap)
    (cells : heap.cells.size + values.length + left tokens ≤ start.cells.size + demand)
    (symbols : heap.symbols.size + tokens.length ≤ start.symbols.size + names) :
    KeepsToDemand start demand names (fun _ => left) (heap.listOf values).1
      ⟨tokens, (heap.listOf values).2, depth⟩ := by
  have lists := heap.listOf_lists values
  generalize heap.listOf values = result at lists ⊢
  cases lists with
  | built _ size =>
      refine ⟨?_, symbols⟩
      simp only [size]
      omega
  | full noRoom =>
      rw [growth.maxCells] at noRoom
      simp only [KeepsToDemand]
      omega

private theorem keepsToDemand_symbol (heap : Heap) {demand names depth : Nat}
    {left : List Token → Nat} {tokens : List Token} (name : String)
    (cells : left tokens ≤ demand) (symbols : tokens.length + 1 ≤ names) :
    KeepsToDemand heap demand names (fun _ => left) (heap.symbol name).1
      ⟨tokens, (heap.symbol name).2, depth⟩ := by
  have interned := heap.symbols.intern_interned name
  simp only [Heap.symbol, Heap.intern]
  generalize heap.symbols.intern name = result at interned ⊢
  cases interned with
  | refused => trivial
  | present => exact ⟨Nat.add_le_add_left cells _, by simp only; omega⟩
  | full absent noRoom =>
      simp only [Except.map, KeepsToDemand]
      omega
  | added absent =>
      refine ⟨Nat.add_le_add_left cells _, ?_⟩
      simp only [SymbolTable.size_push]
      omega

/-- What fails in a goal fails in its caller, which may have started at an earlier heap. -/
private theorem KeepsToDemand.of_error {α β : Type} {start heap : Heap} {demand names : Nat}
    {callerDemand callerNames : Nat} {left : α → List Token → Nat}
    {callerLeft : β → List Token → Nat} {error : Error} {after callerAfter : Reader}
    (keeps : KeepsToDemand heap demand names left (.error error) after)
    (growth : start.GrowsTo heap)
    (cells : heap.cells.size + demand ≤ start.cells.size + callerDemand)
    (symbols : heap.symbols.size + names ≤ start.symbols.size + callerNames) :
    KeepsToDemand start callerDemand callerNames callerLeft (.error error) callerAfter := by
  have maxCells := growth.maxCells
  have capacity := growth.symbols.capacity
  cases error <;> simp only [KeepsToDemand] at keeps ⊢ <;> omega

/-- A goal that ends its caller. -/
private theorem KeepsToDemand.of_last {start heap : Heap} {demand names : Nat}
    {callerDemand callerNames : Nat} {left callerLeft : List Token → Nat}
    {outcome : Except Error Value} {after : Reader}
    (keeps : KeepsToDemand heap demand names (fun _ => left) outcome after)
    (growth : start.GrowsTo heap)
    (cells : heap.cells.size + demand ≤ start.cells.size + callerDemand)
    (spare : heap.cells.size + demand + callerLeft after.tokens ≤
      start.cells.size + callerDemand + left after.tokens)
    (symbols : heap.symbols.size + names ≤ start.symbols.size + callerNames) :
    KeepsToDemand start callerDemand callerNames (fun _ => callerLeft) outcome after := by
  cases outcome with
  | error error => exact keeps.of_error growth cells symbols
  | ok value =>
      simp only [KeepsToDemand] at keeps ⊢
      omega

theorem Reads.keepsToDemand {goal : Goal} {heap : Heap} {depth : Nat} {tokens : List Token}
    {outcome : Except Error Value} {after : Reader}
    (reads : Reads goal heap depth tokens outcome after) :
    KeepsToDemand heap (goal.demand tokens) (goal.input tokens).length (fun _ => goal.left) outcome
      after := by
  induction reads with
  | symbol =>
      refine keepsToDemand_symbol _ _ ?_ ?_
      · simp only [Goal.left, Goal.demand]
        omega
      · simp [Goal.input]
  | unexpectedEnd | invalid | quoteAtEnd | quoteBeforeListEnd | unterminated => trivial
  | list _ _ ih =>
      refine ih.of_last (.refl _) ?_ ?_ ?_ <;>
        simp only [Goal.demand, Goal.left, Goal.input, List.length_nil, List.length_cons] <;> omega
  | quoteFailed _ _ _ ih | elementFailed _ _ ih =>
      refine ih.of_error (.refl _) ?_ ?_ <;>
        simp only [Goal.demand, Goal.input, List.length_cons] <;> omega
  | quote _ _ inner ih =>
      obtain ⟨cells, symbols⟩ := ih
      simp only [Goal.demand, Goal.left, Goal.input, List.length_cons] at cells symbols
      refine keepsToDemand_listOf inner.growsTo ?_ ?_ <;>
        simp only [Goal.demand, Goal.left, Goal.input, List.length_cons, List.length_nil] <;> omega
  | close =>
      refine keepsToDemand_listOf (.refl _) ?_ ?_ <;>
        simp only [Goal.demand, Goal.left, Goal.input, List.length_cons, List.length_reverse] <;>
        omega
  | element _ first _ firstIH othersIH =>
      obtain ⟨cells, symbols⟩ := firstIH
      simp only [Goal.demand, Goal.left, Goal.input, List.length_cons] at cells symbols
      refine othersIH.of_last first.growsTo ?_ ?_ ?_ <;>
        simp only [Goal.demand, Goal.left, Goal.input, List.length_cons] <;> omega

theorem ReadsForms.keepsToDemand {heap : Heap} {depth : Nat} {tokens : List Token}
    {outcome : Except Error (List Value)} {after : Reader}
    (reads : ReadsForms heap depth tokens outcome after) :
    KeepsToDemand heap (3 * tokens.length) tokens.length (fun values _ => values.length) outcome
      after := by
  induction reads with
  | done => exact ⟨Nat.le_refl _, Nat.le_refl _⟩
  | failed first => exact first.keepsToDemand.of_error (.refl _) (Nat.le_refl _) (Nat.le_refl _)
  | @more _ _ _ rest _ middle outcome _ first _ ih =>
      obtain ⟨cells, symbols⟩ := first.keepsToDemand
      simp only [Goal.demand, Goal.left, Goal.input, List.length_cons] at cells symbols
      cases outcome with
      | error error =>
          refine ih.of_error first.growsTo ?_ ?_ <;> simp only [List.length_cons] <;> omega
      | ok values =>
          obtain ⟨laterCells, laterSymbols⟩ := ih
          simp only at laterCells
          simp only [KeepsToDemand, Except.map, List.length_cons]
          omega

theorem parse_keepsToDemand (heap : Heap) (source : String) :
    KeepsToDemand heap (3 * (Token.ofSource source).length) (Token.ofSource source).length
      (fun _ _ => 0) (heap.parse source).1 ⟨[], (heap.parse source).2, 0⟩ := by
  have reads := forms_reads (ofSource heap source)
  have keeps := reads.keepsToDemand
  unfold Heap.parse Heap.readForms
  generalize (ofSource heap source).forms = result at reads keeps ⊢
  obtain ⟨outcome, reader⟩ := result
  cases outcome with
  | error error => exact keeps.of_error (.refl _) (Nat.le_refl _) (Nat.le_refl _)
  | ok values =>
      obtain ⟨cells, symbols⟩ := keeps
      exact keepsToDemand_listOf reads.growsTo cells (Nat.le_trans (Nat.le_add_right _ _) symbols)

end Reader

/-! ## Whole sources -/

namespace Heap

theorem parse_follows {heap : Heap} (keywords : heap.KeywordsNamed) (source : String)
    (notFull : ∀ error, (heap.parse source).1 = .error error → error.isLimit = false) :
    (heap.parse source).2.Agrees (heap.parse source).1
      ((Pushdown.start.run (Token.ofSource source)).map Tree.list) := by
  have reads := Reader.forms_reads (Reader.ofSource heap source)
  have follows := reads.follows keywords (fun _ => Token.isSpelled_of_mem_ofSource) []
  change Reader.FollowsEach [] (Pushdown.start.run (Token.ofSource source)) _ _ at follows
  revert notFull
  unfold parse readForms
  generalize (Reader.ofSource heap source).forms = result at follows ⊢
  obtain ⟨outcome, reader⟩ := result
  intro notFull
  cases outcome with
  | error error =>
      rcases follows with full | same
      · rw [notFull error rfl] at full
        cases full
      · rw [same]
        exact .error
  | ok values =>
      obtain ⟨trees, each, accepted⟩ := follows
      rw [accepted]
      dsimp only at notFull ⊢
      rcases listOf_outOfMemory_or_unfolds each with ⟨full, -⟩ | ⟨list, built, unfolds, -⟩
      · cases notFull _ full
      · rw [built]
        exact .ok unfolds

/-- A source that cannot be read meets a limit, or the automaton is stuck in its tokens. -/
theorem KeywordsNamed.stuck_of_unread {heap after : Heap} (keywords : heap.KeywordsNamed)
    {source : String} {error : Error} (unread : heap.readForms source = (.error error, after)) :
    error.isLimit = true ∨ Pushdown.start.run (Token.ofSource source) = .error error := by
  have reads := Reader.forms_reads (Reader.ofSource heap source)
  have follows := reads.follows keywords (fun _ => Token.isSpelled_of_mem_ofSource) []
  unfold readForms at unread
  generalize (Reader.ofSource heap source).forms = result at follows unread
  obtain ⟨outcome, reader⟩ := result
  cases unread
  exact follows

/-- Reading a source is running the automaton on its tokens, and the automaton accepts what the
grammar derives. Only a full store makes a difference. It takes fewer than three cells or less than
one symbol for each token to fill a store. -/
theorem parse_agrees_with_pushdown {heap : Heap} (keywords : heap.KeywordsNamed)
    (source : String) :
    ((∀ error, (heap.parse source).1 = .error error → error.isLimit = false) →
      (heap.parse source).2.Agrees (heap.parse source).1
          ((Pushdown.start.run (Token.ofSource source)).map Tree.list) ∧
        ((heap.parse source).1.isOk = true ↔
          ∃ trees, SpellsEach (Token.ofSource source) trees)) ∧
      (∀ trees, Pushdown.start.run (Token.ofSource source) = .ok trees ↔
        SpellsEach (Token.ofSource source) trees) ∧
      (heap.cells.size + 3 * (Token.ofSource source).length ≤ heap.maxCells →
        heap.symbols.size + (Token.ofSource source).length ≤ heap.symbols.capacity →
        ∀ error, (heap.parse source).1 = .error error → error.isLimit = false) := by
  refine ⟨fun notFull => ⟨parse_follows keywords source notFull, ?_⟩,
    fun trees => Pushdown.run_start_eq_ok_iff, fun cells symbols error failed => ?_⟩
  · have agrees := parse_follows keywords source notFull
    simp only [← Pushdown.run_start_eq_ok_iff]
    generalize (heap.parse source).1 = outcome at agrees ⊢
    generalize Pushdown.start.run (Token.ofSource source) = expected at agrees ⊢
    cases expected with
    | ok trees =>
        cases agrees
        simp [Except.isOk, Except.toBool]
    | error error =>
        cases agrees
        simp [Except.isOk, Except.toBool]
  · have keeps := Reader.parse_keepsToDemand heap source
    rw [failed] at keeps
    cases error with
    | outOfMemory => exact absurd keeps (Nat.not_lt_of_le cells)
    | symbolLimitExceeded => exact absurd keeps (Nat.not_lt_of_le symbols)
    | _ => rfl

theorem parse_agrees_with_pushdown_on_quoted_element :
    ∃ heap list after, Heap.new {} = .ok heap ∧ heap.parse "(a 'b)" = (.ok list, after) ∧
      after.Unfolds list (.list [.list [.symbol "a", (Tree.symbol "b").quoted]]) := by
  have created : Heap.new {} = .ok ((Heap.new {}).toOption.get (by decide)) := rfl
  have tokens : (Token.ofSource "(a 'b)").length = 5 := by decide
  have accepted : Pushdown.start.run (Token.ofSource "(a 'b)") =
      .ok [.list [.symbol "a", (Tree.symbol "b").quoted]] := rfl
  have cells : ((Heap.new {}).toOption.get (by decide)).cells.size + 3 * 5 ≤
      ((Heap.new {}).toOption.get (by decide)).maxCells := by decide
  have symbols : ((Heap.new {}).toOption.get (by decide)).symbols.size + 5 ≤
      ((Heap.new {}).toOption.get (by decide)).symbols.capacity := by decide
  generalize (Heap.new {}).toOption.get (by decide) = heap at created cells symbols
  have agreement := parse_agrees_with_pushdown (wellFormed_new created).keywords "(a 'b)"
  rw [tokens] at agreement
  obtain ⟨agrees, -⟩ := agreement.1 (agreement.2.2 cells symbols)
  rw [accepted] at agrees
  generalize parsed : heap.parse "(a 'b)" = result at agrees
  obtain ⟨outcome, after⟩ := result
  cases agrees with
  | ok unfolds => exact ⟨heap, _, after, created, parsed, unfolds⟩

end Heap

end TaggedLisp
