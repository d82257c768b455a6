import TaggedLisp.Proofs.Heap.Growth
import TaggedLisp.Reader

/-! What the reader does, one constructor for each of its cases. The reader itself is recursive on
the number of tokens left and carries a bound for them in its results; derivations have neither, so
what holds of reading is shown by induction on them. -/

set_option autoImplicit false

namespace TaggedLisp

namespace Reader

inductive Goal where
  | form (token : Token)
  /-- Read up to the end of the innermost open list, with these elements read, last first. -/
  | elements (readSoFar : List Value)

/-- In the given heap, at the given depth and before the given tokens, a goal ends with an outcome
and leaves a reader behind. -/
inductive Reads : Goal → Heap → Nat → List Token → Except Error Value → Reader → Prop where
  | symbol {heap depth token tokens} :
      token.kind = .symbol →
      Reads (.form token) heap depth tokens (heap.symbol token.text).1
        ⟨tokens, (heap.symbol token.text).2, depth⟩
  | unexpectedEnd {heap depth token tokens} :
      token.kind = .listEnd →
      Reads (.form token) heap depth tokens (.error (.malformed .unexpectedListEnd))
        ⟨tokens, heap, depth⟩
  | invalid {heap depth token tokens} :
      token.kind = .invalid →
      Reads (.form token) heap depth tokens (.error (.invalidToken token.text))
        ⟨tokens, heap, depth⟩
  | list {heap depth token tokens outcome after} :
      token.kind = .listStart →
      Reads (.elements []) heap (depth + 1) tokens outcome after →
      Reads (.form token) heap depth tokens outcome after
  | quoteAtEnd {heap depth token} :
      token.kind = .quote →
      Reads (.form token) heap depth [] (.error (.malformed .danglingQuote)) ⟨[], heap, depth⟩
  | quoteBeforeListEnd {heap depth token next rest} :
      token.kind = .quote → next.kind = .listEnd →
      Reads (.form token) heap depth (next :: rest) (.error (.malformed .danglingQuote))
        ⟨rest, heap, depth⟩
  | quoteFailed {heap depth token next rest error after} :
      token.kind = .quote → next.kind ≠ .listEnd →
      Reads (.form next) heap depth rest (.error error) after →
      Reads (.form token) heap depth (next :: rest) (.error error) after
  | quote {heap depth token next rest value after} :
      token.kind = .quote → next.kind ≠ .listEnd →
      Reads (.form next) heap depth rest (.ok value) after →
      Reads (.form token) heap depth (next :: rest) (after.heap.quote value).1
        ⟨after.tokens, (after.heap.quote value).2, after.depth⟩
  | unterminated {heap depth readSoFar} :
      Reads (.elements readSoFar) heap depth [] (.error (.malformed .unterminatedList))
        ⟨[], heap, depth⟩
  | close {heap depth readSoFar token rest} :
      token.kind = .listEnd →
      Reads (.elements readSoFar) heap depth (token :: rest) (heap.listOf readSoFar.reverse).1
        ⟨rest, (heap.listOf readSoFar.reverse).2, depth - 1⟩
  | elementFailed {heap depth readSoFar token rest error after} :
      token.kind ≠ .listEnd →
      Reads (.form token) heap depth rest (.error error) after →
      Reads (.elements readSoFar) heap depth (token :: rest) (.error error) after
  | element {heap depth readSoFar token rest value after outcome final} :
      token.kind ≠ .listEnd →
      Reads (.form token) heap depth rest (.ok value) after →
      Reads (.elements (value :: readSoFar)) after.heap after.depth after.tokens outcome final →
      Reads (.elements readSoFar) heap depth (token :: rest) outcome final

/-- Top-level forms are read up to the first that fails. -/
inductive ReadsForms : Heap → Nat → List Token → Except Error (List Value) → Reader → Prop where
  | done {heap depth} : ReadsForms heap depth [] (.ok []) ⟨[], heap, depth⟩
  | failed {heap depth token rest error after} :
      Reads (.form token) heap depth rest (.error error) after →
      ReadsForms heap depth (token :: rest) (.error error) after
  | more {heap depth token rest value after outcome final} :
      Reads (.form token) heap depth rest (.ok value) after →
      ReadsForms after.heap after.depth after.tokens outcome final →
      ReadsForms heap depth (token :: rest) (outcome.map (value :: ·)) final

mutual

theorem form_reads (heap : Heap) (depth : Nat) (token : Token) (tokens : List Token) :
    Reads (.form token) heap depth tokens (form heap depth token tokens).outcome
      (form heap depth token tokens).reader := by
  unfold form
  split
  · next kind => exact .symbol kind
  · next kind => exact .list kind (elements_reads heap (depth + 1) [] tokens)
  · next kind => exact .unexpectedEnd kind
  · next kind => exact .invalid kind
  · next kind =>
    cases tokens with
    | nil => exact .quoteAtEnd kind
    | cons next rest =>
        dsimp only
        split
        · next closes => exact .quoteBeforeListEnd kind closes
        · next opens =>
          have inner := form_reads heap depth next rest
          split
          · next error after length_le failed =>
            rw [failed] at inner
            exact .quoteFailed kind opens inner
          · next value after length_le succeeded =>
            rw [succeeded] at inner
            exact .quote kind opens inner
termination_by 2 * tokens.length + 1

theorem elements_reads (heap : Heap) (depth : Nat) (readSoFar : List Value)
    (tokens : List Token) :
    Reads (.elements readSoFar) heap depth tokens (elements heap depth readSoFar tokens).outcome
      (elements heap depth readSoFar tokens).reader := by
  unfold elements
  cases tokens with
  | nil => exact .unterminated
  | cons token rest =>
      dsimp only
      split
      · next closes => exact .close closes
      · next opens =>
        have first := form_reads heap depth token rest
        split
        · next error after length_le failed =>
          rw [failed] at first
          exact .elementFailed opens first
        · next value after length_le succeeded =>
          rw [succeeded] at first
          have others := elements_reads after.heap after.depth (value :: readSoFar) after.tokens
          exact .element opens first others
termination_by 2 * tokens.length

end

theorem forms_reads (reader : Reader) :
    ReadsForms reader.heap reader.depth reader.tokens reader.forms.1 reader.forms.2 := by
  fun_induction forms reader with
  | case1 heap depth => exact .done
  | case2 token rest heap depth error after length_le failed =>
      have first := form_reads heap depth token rest
      rw [failed] at first
      exact .failed first
  | case3 token rest heap depth value after length_le read values final others ih =>
      have first := form_reads heap depth token rest
      rw [read] at first
      rw [others] at ih
      exact .more first ih
  | case4 token rest heap depth value after length_le read error final others ih =>
      have first := form_reads heap depth token rest
      rw [read] at first
      rw [others] at ih
      exact .more first ih

/-! ## Inversions

Which token comes next decides which case it is. -/

section Inversions

variable {heap : Heap} {depth : Nat} {token next : Token} {tokens rest : List Token}
  {readSoFar : List Value} {outcome : Except Error Value} {after : Reader}

theorem Reads.of_symbol (reads : Reads (.form token) heap depth tokens outcome after)
    (kind : token.kind = .symbol) :
    outcome = (heap.symbol token.text).1 ∧ after = ⟨tokens, (heap.symbol token.text).2, depth⟩ := by
  cases reads with
  | symbol => exact ⟨rfl, rfl⟩
  | _ => simp_all

theorem Reads.of_listStart (reads : Reads (.form token) heap depth tokens outcome after)
    (kind : token.kind = .listStart) :
    Reads (.elements []) heap (depth + 1) tokens outcome after := by
  cases reads with
  | list _ inner => exact inner
  | _ => simp_all

theorem Reads.of_quote (reads : Reads (.form token) heap depth (next :: rest) outcome after)
    (kind : token.kind = .quote) (opens : next.kind ≠ .listEnd) :
    (∃ error, outcome = .error error ∧ Reads (.form next) heap depth rest (.error error) after) ∨
      ∃ value middle, Reads (.form next) heap depth rest (.ok value) middle ∧
        outcome = (middle.heap.quote value).1 ∧
        after = ⟨middle.tokens, (middle.heap.quote value).2, middle.depth⟩ := by
  cases reads with
  | quoteFailed _ _ inner => exact .inl ⟨_, rfl, inner⟩
  | quote _ _ inner => exact .inr ⟨_, _, inner, rfl, rfl⟩
  | _ => simp_all

theorem Reads.of_listEnd (reads : Reads (.elements readSoFar) heap depth (token :: rest) outcome after)
    (kind : token.kind = .listEnd) :
    outcome = (heap.listOf readSoFar.reverse).1 ∧
      after = ⟨rest, (heap.listOf readSoFar.reverse).2, depth - 1⟩ := by
  cases reads with
  | close => exact ⟨rfl, rfl⟩
  | _ => simp_all

theorem Reads.of_ne_listEnd
    (reads : Reads (.elements readSoFar) heap depth (token :: rest) outcome after)
    (opens : token.kind ≠ .listEnd) :
    (∃ error, outcome = .error error ∧ Reads (.form token) heap depth rest (.error error) after) ∨
      ∃ value middle, Reads (.form token) heap depth rest (.ok value) middle ∧
        Reads (.elements (value :: readSoFar)) middle.heap middle.depth middle.tokens outcome
          after := by
  cases reads with
  | close closes => exact absurd closes opens
  | elementFailed _ first => exact .inl ⟨_, rfl, first⟩
  | element _ first others => exact .inr ⟨_, _, first, others⟩

end Inversions

theorem Reads.growsTo {goal : Goal} {heap : Heap} {depth : Nat} {tokens : List Token}
    {outcome : Except Error Value} {after : Reader}
    (reads : Reads goal heap depth tokens outcome after) : heap.GrowsTo after.heap := by
  induction reads with
  | symbol => exact Heap.symbol_growsTo _ _
  | unexpectedEnd | invalid | quoteAtEnd | quoteBeforeListEnd | unterminated => exact .refl _
  | list _ _ ih | quoteFailed _ _ _ ih | elementFailed _ _ ih => exact ih
  | quote _ _ _ ih => exact ih.trans (Heap.quote_growsTo _ _)
  | close => exact Heap.listOf_growsTo _ _
  | element _ _ _ firstIH othersIH => exact firstIH.trans othersIH

theorem ReadsForms.growsTo {heap : Heap} {depth : Nat} {tokens : List Token}
    {outcome : Except Error (List Value)} {after : Reader}
    (reads : ReadsForms heap depth tokens outcome after) : heap.GrowsTo after.heap := by
  induction reads with
  | done => exact .refl _
  | failed first => exact first.growsTo
  | more first _ ih => exact first.growsTo.trans ih

end Reader

end TaggedLisp
