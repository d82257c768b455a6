import TaggedLisp.Proofs.Reader.Effects

/-! Pulling forms past errors. An error may leave lists open, at any depth, and the tokens behind it
are read as if nothing had been before them. Still each token belongs to exactly one pull, and the
depth is what the tokens themselves tell: a pull goes down by the lists that it opens, and comes
back up by those of them that it closes. -/

set_option autoImplicit false

namespace TaggedLisp

/-! ## Counting lists -/

def Token.listStarts (tokens : List Token) : Nat :=
  tokens.countP (·.kind = .listStart)

/-- How many lists some tokens leave open, and whether the last of them is a quote mark. -/
structure Nesting where
  opened : Nat
  quoted : Bool

namespace Nesting

/-- Nothing is open where a pull begins, whatever earlier pulls have left open. -/
def start : Nesting :=
  ⟨0, false⟩

/-- Whether a token closes a list that is open. An end without such a list closes nothing, and a
quote mark takes an end that follows it. -/
def closes (nesting : Nesting) (token : Token) : Bool :=
  token.kind = .listEnd && 0 < nesting.opened && !nesting.quoted

def step (nesting : Nesting) (token : Token) : Nesting where
  opened :=
    if token.kind = .listStart then nesting.opened + 1
    else if nesting.closes token then nesting.opened - 1
    else nesting.opened
  quoted := token.kind = .quote

def run (nesting : Nesting) : List Token → Nesting
  | [] => nesting
  | token :: tokens => (nesting.step token).run tokens

/-- The number of tokens that close a list. -/
def listEnds (nesting : Nesting) : List Token → Nat
  | [] => 0
  | token :: tokens =>
    (if nesting.closes token then 1 else 0) + (nesting.step token).listEnds tokens

variable {nesting : Nesting} {token : Token}

theorem step_of_listStart (kind : token.kind = .listStart) :
    nesting.step token = ⟨nesting.opened + 1, false⟩ := by
  simp [step, kind]

theorem step_of_quote (kind : token.kind = .quote) :
    nesting.step token = ⟨nesting.opened, true⟩ := by
  simp [step, closes, kind]

theorem step_of_closes (closes : nesting.closes token = true) :
    nesting.step token = ⟨nesting.opened - 1, false⟩ := by
  have kind : token.kind = .listEnd := by
    simp only [Nesting.closes, Bool.and_eq_true, decide_eq_true_eq] at closes
    exact closes.1.1
  simp [step, closes, kind]

/-- All other tokens leave the lists as they are. -/
theorem step_of_plain (noStart : token.kind ≠ .listStart) (noQuote : token.kind ≠ .quote)
    (keeps : nesting.closes token = false) : nesting.step token = ⟨nesting.opened, false⟩ := by
  simp [step, noStart, noQuote, keeps]

theorem run_append (nesting : Nesting) (tokens others : List Token) :
    nesting.run (tokens ++ others) = (nesting.run tokens).run others := by
  induction tokens generalizing nesting with
  | nil => rfl
  | cons token tokens ih => exact ih (nesting.step token)

theorem step_opened (nesting : Nesting) (token : Token) :
    (if nesting.closes token then 1 else 0) + (nesting.step token).opened =
      nesting.opened + if token.kind = .listStart then 1 else 0 := by
  by_cases kind : token.kind = .listStart
  · simp [step, closes, kind]
  · cases closes : nesting.closes token with
    | false => simp [step, closes, kind]
    | true =>
        have opened : 0 < nesting.opened := by
          simp only [Nesting.closes, Bool.and_eq_true, decide_eq_true_eq] at closes
          exact closes.1.2
        simp only [step, closes, kind, ↓reduceIte]
        omega

/-- Each list that was opened is closed or still open. -/
theorem listEnds_add_opened (nesting : Nesting) (tokens : List Token) :
    nesting.listEnds tokens + (nesting.run tokens).opened =
      nesting.opened + Token.listStarts tokens := by
  induction tokens generalizing nesting with
  | nil => exact Nat.zero_add _
  | cons token tokens ih =>
      have first := nesting.step_opened token
      have later := ih (nesting.step token)
      simp only [Token.listStarts, List.countP_cons, decide_eq_true_eq] at later ⊢
      simp only [listEnds, run]
      omega

end Nesting

/-! ## The depth of a single form -/

namespace Reader

/-- The lists that are open before a goal and closed when it succeeds. -/
def Goal.unclosed : Goal → Nat
  | .form _ => 0
  | .elements _ => 1

/-- Where a goal can come up: an end is read as a form only if no list is open, and elements are
read inside of a list. -/
def Goal.Fits (goal : Goal) (nesting : Nesting) (depth : Nat) : Prop :=
  match goal with
  | .form token => token.kind = .listEnd → nesting.opened = 0
  | .elements _ => nesting.quoted = false ∧ 0 < nesting.opened ∧ 0 < depth

/-- The depth moves with the lists that the tokens of a goal open and close. -/
structure Goal.Tracks (goal : Goal) (nesting : Nesting) (depth : Nat) (segment : List Token)
    (outcome : Except Error Value) (after : Reader) : Prop where
  depth_eq : after.depth + nesting.opened = depth + (nesting.run segment).opened
  opened_le : nesting.opened ≤ (nesting.run segment).opened + goal.unclosed
  succeeded : ∀ value, outcome = .ok value →
    nesting.run segment = ⟨nesting.opened - goal.unclosed, false⟩

section Tracks

variable {heap : Heap} {depth : Nat} {token next : Token} {tokens rest segment : List Token}
  {nesting : Nesting} {outcome : Except Error Value} {error : Error} {after : Reader}

/-- Unless a form goes on behind its first token, it leaves the lists as they are. -/
theorem Goal.Fits.step_eq (fits : (Goal.form token).Fits nesting depth)
    (noStart : token.kind ≠ .listStart) (noQuote : token.kind ≠ .quote) :
    nesting.step token = ⟨nesting.opened, false⟩ := by
  refine Nesting.step_of_plain noStart noQuote ?_
  by_cases ends : token.kind = .listEnd
  · simp [Nesting.closes, fits ends]
  · simp [Nesting.closes, ends]

theorem Goal.tracks_plain (plain : nesting.step token = ⟨nesting.opened, false⟩) :
    (Goal.form token).Tracks nesting depth [token] outcome ⟨tokens, heap, depth⟩ := by
  have behind : nesting.run [token] = ⟨nesting.opened, false⟩ := plain
  constructor
  · rw [behind]
  · rw [behind]
    exact Nat.le_refl _
  · intro value same
    exact behind

theorem Goal.tracks_error (same : (nesting.run segment).opened = nesting.opened) {goal : Goal} :
    goal.Tracks nesting depth segment (.error error) ⟨tokens, heap, depth⟩ := by
  constructor
  · rw [same]
  · rw [same]
    exact Nat.le_add_right _ _
  · intro value failed
    cases failed

/-- What follows a quote mark opens and closes lists as it would without the mark. -/
theorem Goal.Tracks.quoted (kind : token.kind = .quote)
    (tracks : (Goal.form next).Tracks ⟨nesting.opened, true⟩ depth segment outcome after) :
    (Goal.form token).Tracks nesting depth (token :: segment) outcome after := by
  have behind : nesting.run (token :: segment) =
      (⟨nesting.opened, true⟩ : Nesting).run segment := by
    rw [Nesting.run, Nesting.step_of_quote kind]
  constructor
  · rw [behind]
    exact tracks.depth_eq
  · rw [behind]
    exact tracks.opened_le
  · intro value same
    exact behind.trans (tracks.succeeded value same)

/-- The elements of a list are read inside of it. -/
theorem Goal.Tracks.list (kind : token.kind = .listStart)
    (tracks : (Goal.elements []).Tracks ⟨nesting.opened + 1, false⟩ (depth + 1) segment outcome
      after) :
    (Goal.form token).Tracks nesting depth (token :: segment) outcome after := by
  obtain ⟨depth_eq, opened_le, succeeded⟩ := tracks
  have behind : nesting.run (token :: segment) =
      (⟨nesting.opened + 1, false⟩ : Nesting).run segment := by
    rw [Nesting.run, Nesting.step_of_listStart kind]
  constructor
  · dsimp only at depth_eq
    rw [behind]
    omega
  · rw [behind]
    exact Nat.le_of_succ_le_succ opened_le
  · intro value same
    exact behind.trans (succeeded value same)

theorem Goal.tracks_close {readSoFar : List Value}
    (fits : (Goal.elements readSoFar).Fits nesting depth) (kind : token.kind = .listEnd) :
    (Goal.elements readSoFar).Tracks nesting depth [token] outcome ⟨tokens, heap, depth - 1⟩ := by
  obtain ⟨unquoted, opened, deep⟩ := fits
  have behind : nesting.run [token] = ⟨nesting.opened - 1, false⟩ :=
    Nesting.step_of_closes (by simp [Nesting.closes, kind, unquoted, opened])
  constructor
  · rw [behind]
    dsimp only
    omega
  · rw [behind]
    exact Nat.le_add_of_sub_le (Nat.le_refl _)
  · intro value same
    exact behind

/-- A form that was read leaves the lists and the depth as they were. -/
theorem Goal.Tracks.unchanged {value : Value}
    (tracks : (Goal.form token).Tracks nesting depth segment (.ok value) after)
    (unquoted : nesting.quoted = false) :
    nesting.run segment = nesting ∧ after.depth = depth := by
  have behind : nesting.run segment = nesting := by
    rw [tracks.succeeded value rfl, ← unquoted]
    rfl
  have moved := tracks.depth_eq
  rw [behind] at moved
  exact ⟨behind, Nat.add_right_cancel moved⟩

/-- The elements of a list may follow others that leave the lists as they are. -/
theorem Goal.Tracks.behind {readBefore readSoFar : List Value} {front : List Token}
    (tracks : (Goal.elements readSoFar).Tracks nesting depth segment outcome after)
    (behind : nesting.run front = nesting) :
    (Goal.elements readBefore).Tracks nesting depth (front ++ segment) outcome after := by
  have whole : nesting.run (front ++ segment) = nesting.run segment := by
    rw [Nesting.run_append, behind]
  constructor
  · rw [whole]
    exact tracks.depth_eq
  · rw [whole]
    exact tracks.opened_le
  · intro value same
    exact whole.trans (tracks.succeeded value same)

end Tracks

theorem Reads.tracks {goal : Goal} {heap : Heap} {depth : Nat} {tokens : List Token}
    {outcome : Except Error Value} {after : Reader}
    (reads : Reads goal heap depth tokens outcome after) {nesting : Nesting}
    (fits : goal.Fits nesting depth) :
    ∃ segment, goal.input tokens = segment ++ after.tokens ∧
      goal.Tracks nesting depth segment outcome after := by
  induction reads generalizing nesting with
  | @symbol heap depth token tokens kind | @unexpectedEnd heap depth token tokens kind
  | @invalid heap depth token tokens kind =>
      have plain := fits.step_eq (by simp [kind]) (by simp [kind])
      exact ⟨[token], rfl, Goal.tracks_plain plain⟩
  | @list heap depth token tokens outcome after kind _ ih =>
      have inside : (Goal.elements []).Fits ⟨nesting.opened + 1, false⟩ (depth + 1) :=
        ⟨rfl, Nat.succ_pos _, Nat.succ_pos _⟩
      obtain ⟨segment, split, tracks⟩ := ih inside
      exact ⟨token :: segment, congrArg (token :: ·) split, tracks.list kind⟩
  | @quoteAtEnd heap depth token kind =>
      refine ⟨[token], rfl, Goal.tracks_error ?_⟩
      rw [Nesting.run, Nesting.step_of_quote kind]
      rfl
  | @quoteBeforeListEnd heap depth token next rest kind closes =>
      refine ⟨[token, next], rfl, Goal.tracks_error ?_⟩
      rw [Nesting.run, Nesting.step_of_quote kind, Nesting.run,
        Nesting.step_of_plain (by simp [closes]) (by simp [closes]) (by simp [Nesting.closes])]
      rfl
  | @quoteFailed heap depth token next rest error after kind opens _ ih =>
      have inside : (Goal.form next).Fits ⟨nesting.opened, true⟩ depth := (absurd · opens)
      obtain ⟨segment, split, tracks⟩ := ih inside
      exact ⟨token :: segment, congrArg (token :: ·) split, tracks.quoted kind⟩
  | @quote heap depth token next rest value after kind opens _ ih =>
      have inside : (Goal.form next).Fits ⟨nesting.opened, true⟩ depth := (absurd · opens)
      obtain ⟨segment, split, tracks⟩ := ih inside
      have quoted := tracks.quoted kind
      exact ⟨token :: segment, congrArg (token :: ·) split, quoted.depth_eq, quoted.opened_le,
        fun _ _ => quoted.succeeded value rfl⟩
  | unterminated => exact ⟨[], rfl, Goal.tracks_error rfl⟩
  | @close heap depth readSoFar token rest kind =>
      exact ⟨[token], rfl, Goal.tracks_close fits kind⟩
  | @elementFailed heap depth readSoFar token rest error after opens _ ih =>
      have inside : (Goal.form token).Fits nesting depth := (absurd · opens)
      obtain ⟨segment, split, tracks⟩ := ih inside
      exact ⟨segment, split, tracks.depth_eq, Nat.le_succ_of_le tracks.opened_le,
        fun _ failed => nomatch failed⟩
  | @element heap depth readSoFar token rest value after outcome final opens _ _ firstIH othersIH =>
      obtain ⟨unquoted, opened, deep⟩ := fits
      have inside : (Goal.form token).Fits nesting depth := (absurd · opens)
      obtain ⟨front, frontSplit, first⟩ := firstIH inside
      obtain ⟨behind, sameDepth⟩ := first.unchanged unquoted
      obtain ⟨back, backSplit, others⟩ := othersIH ⟨unquoted, opened, sameDepth ▸ deep⟩
      refine ⟨front ++ back, ?_, ?_⟩
      · rw [List.append_assoc, ← backSplit]
        exact frontSplit
      · rw [← sameDepth]
        exact others.behind behind

theorem Reads.depth_eq_of_ok {heap : Heap} {depth : Nat} {token : Token} {tokens : List Token}
    {value : Value} {after : Reader}
    (reads : Reads (.form token) heap depth tokens (.ok value) after)
    (noEnd : token.kind ≠ .listEnd) : after.depth = depth := by
  have fits : (Goal.form token).Fits Nesting.start depth := fun ends => absurd ends noEnd
  obtain ⟨segment, -, tracks⟩ := reads.tracks fits
  have moved := tracks.depth_eq
  rw [tracks.succeeded value rfl] at moved
  simpa [Nesting.start] using moved

/-! ## Reading further down -/

/-- The reader with more lists around it. -/
def deepened (extra : Nat) (reader : Reader) : Reader :=
  { reader with depth := reader.depth + extra }

mutual

/-- Around a form there may be more lists: it ends as many lists further down, so the depth is never
cut off at zero. -/
theorem form_deepened (heap : Heap) (depth extra : Nat) (token : Token) (tokens : List Token) :
    (form heap (depth + extra) token tokens).outcome = (form heap depth token tokens).outcome ∧
      (form heap (depth + extra) token tokens).reader =
        (form heap depth token tokens).reader.deepened extra := by
  unfold form
  cases token.kind with
  | symbol | listEnd | invalid => exact ⟨rfl, rfl⟩
  | listStart =>
      have inner := elements_deepened heap extra (Nat.succ_pos depth) [] tokens
      rwa [Nat.succ_add] at inner
  | quote =>
      cases tokens with
      | nil => exact ⟨rfl, rfl⟩
      | cons next rest =>
          dsimp only
          by_cases closes : next.kind = .listEnd
          · rw [if_pos closes, if_pos closes]
            exact ⟨rfl, rfl⟩
          · rw [if_neg closes, if_neg closes]
            have inner := form_deepened heap depth extra next rest
            generalize form heap (depth + extra) next rest = deep at inner ⊢
            generalize form heap depth next rest = shallow at inner ⊢
            obtain ⟨outcome, after, length_le⟩ := shallow
            obtain ⟨deepOutcome, deepAfter, deep_le⟩ := deep
            dsimp only at inner
            obtain ⟨rfl, rfl⟩ := inner
            cases deepOutcome <;> exact ⟨rfl, rfl⟩
termination_by 2 * tokens.length + 1

theorem elements_deepened (heap : Heap) {depth : Nat} (extra : Nat) (deep : 0 < depth)
    (readSoFar : List Value) (tokens : List Token) :
    (elements heap (depth + extra) readSoFar tokens).outcome =
        (elements heap depth readSoFar tokens).outcome ∧
      (elements heap (depth + extra) readSoFar tokens).reader =
        (elements heap depth readSoFar tokens).reader.deepened extra := by
  unfold elements
  cases tokens with
  | nil => exact ⟨rfl, rfl⟩
  | cons token rest =>
      dsimp only
      by_cases closes : token.kind = .listEnd
      · have oneLess : depth + extra - 1 = depth - 1 + extra := by omega
        rw [if_pos closes, if_pos closes, oneLess]
        exact ⟨rfl, rfl⟩
      · rw [if_neg closes, if_neg closes]
        have inner := form_deepened heap depth extra token rest
        have reads := form_reads heap depth token rest
        generalize form heap (depth + extra) token rest = deeper at inner ⊢
        generalize form heap depth token rest = shallow at inner reads ⊢
        obtain ⟨outcome, after, length_le⟩ := shallow
        obtain ⟨deepOutcome, deepAfter, deep_le⟩ := deeper
        dsimp only at inner
        obtain ⟨rfl, rfl⟩ := inner
        cases deepOutcome with
        | error => exact ⟨rfl, rfl⟩
        | ok value =>
            have sameDepth : after.depth = depth := reads.depth_eq_of_ok closes
            have deep : 0 < after.depth := sameDepth ▸ deep
            exact elements_deepened after.heap extra deep (value :: readSoFar) after.tokens
termination_by 2 * tokens.length

end

/-! ## A single pull -/

/-- What a pull takes from the reader before it, and what it leaves. -/
structure Accounts (before : Reader) (segment : List Token) (outcome : Except Error Value)
    (after : Reader) : Prop where
  nonempty : segment ≠ []
  tokens : before.tokens = segment ++ after.tokens
  symbols : after.heap.symbols = before.heap.symbols.internEach (Token.symbolTexts segment)
  depth_eq : after.depth + Nesting.start.listEnds segment = before.depth + Token.listStarts segment
  depth_le : before.depth ≤ after.depth
  depth_of_ok : ∀ value, outcome = .ok value → after.depth = before.depth
  /-- Further down the pull is the same, so no list end has been counted at depth zero. -/
  deepened : ∀ extra, (before.deepened extra).next? = some (outcome, after.deepened extra)

theorem exists_accounts {before after : Reader} {outcome : Except Error Value}
    (pulled : before.next? = some (outcome, after)) :
    ∃ segment, before.Accounts segment outcome after := by
  obtain ⟨tokens, heap, depth⟩ := before
  cases tokens with
  | nil => cases pulled
  | cons token rest =>
      have reads := form_reads heap depth token rest
      have length_le := (form heap depth token rest).length_le
      have deeper := fun extra => form_deepened heap depth extra token rest
      obtain ⟨rfl, rfl⟩ := Prod.mk.inj (Option.some.inj pulled)
      have fits : (Goal.form token).Fits Nesting.start depth := fun _ => rfl
      obtain ⟨segment, split, tracks⟩ := reads.tracks fits
      obtain ⟨front, frontSplit, symbols⟩ := reads.interns
      obtain rfl : front = segment := List.append_cancel_right (frontSplit.symm.trans split)
      have counted := Nesting.start.listEnds_add_opened front
      have depth_eq := tracks.depth_eq
      have opened : Nesting.start.opened = 0 := rfl
      refine ⟨front, ?_, split, symbols, ?_, ?_, ?_, ?_⟩
      · rintro rfl
        have lengths := congrArg List.length split
        simp only [Goal.input, List.length_cons, List.nil_append] at lengths
        omega
      · dsimp only
        omega
      · dsimp only
        omega
      · intro value succeeded
        rw [tracks.succeeded value succeeded] at depth_eq
        simpa [Nesting.start, Goal.unclosed] using depth_eq
      · intro extra
        obtain ⟨outcome, reader⟩ := deeper extra
        simp only [Reader.deepened, next?, outcome, reader]

/-! ## All pulls -/

/-- Pulling until there is nothing more: the outcome of each pull with the depth after it, and the
tokens that each pull takes. -/
inductive AccountsAll :
    Reader → List (Except Error Value × Nat) → List (List Token) → Reader → Prop where
  | done {reader : Reader} : reader.next? = none → AccountsAll reader [] [] reader
  | pull {before after last : Reader} {outcome : Except Error Value} {segment : List Token}
      {items : List (Except Error Value × Nat)} {segments : List (List Token)} :
      before.next? = some (outcome, after) → before.Accounts segment outcome after →
      AccountsAll after items segments last →
      AccountsAll before ((outcome, after.depth) :: items) (segment :: segments) last

theorem exists_accountsAll (reader : Reader) :
    ∃ segments, AccountsAll reader reader.pulls.1 segments reader.pulls.2 := by
  fun_induction pulls reader with
  | case1 heap depth => exact ⟨[], .done rfl⟩
  | case2 token rest heap depth outcome after length_le pulled others final later ih =>
      have pulled : (⟨token :: rest, heap, depth⟩ : Reader).next? = some (outcome, after) := by
        rw [next?, pulled]
      obtain ⟨segment, accounts⟩ := exists_accounts pulled
      obtain ⟨segments, accountsAll⟩ := ih
      rw [later] at accountsAll
      exact ⟨segment :: segments, .pull pulled accounts accountsAll⟩

namespace AccountsAll

variable {before last : Reader} {items : List (Except Error Value × Nat)}
  {segments : List (List Token)}

theorem tokens_eq (accounts : AccountsAll before items segments last) :
    segments.flatten = before.tokens := by
  induction accounts with
  | @done reader ended =>
      obtain ⟨tokens, heap, depth⟩ := reader
      cases tokens with
      | nil => rfl
      | cons => cases ended
  | pull _ first _ ih => rw [List.flatten_cons, ih, first.tokens]

theorem length_le (accounts : AccountsAll before items segments last) :
    items.length ≤ before.tokens.length := by
  induction accounts with
  | done => exact Nat.zero_le _
  | pull _ first _ ih =>
      have positive := List.length_pos_of_ne_nil first.nonempty
      rw [first.tokens, List.length_append, List.length_cons]
      omega

theorem symbols_eq (accounts : AccountsAll before items segments last) :
    last.heap.symbols =
      before.heap.symbols.internEach (Token.symbolTexts segments.flatten) := by
  induction accounts with
  | done => rfl
  | pull _ first _ ih =>
      rw [ih, first.symbols, List.flatten_cons, Token.symbolTexts_append,
        SymbolTable.internEach_append]

theorem depth_le (accounts : AccountsAll before items segments last) :
    ∀ item ∈ items, before.depth ≤ item.2 := by
  induction accounts with
  | done =>
      intro item member
      cases member
  | pull _ first _ ih =>
      refine List.forall_mem_cons.mpr ⟨first.depth_le, ?_⟩
      intro item member
      exact Nat.le_trans first.depth_le (ih item member)

theorem depths_increase (accounts : AccountsAll before items segments last) :
    (items.map Prod.snd).Pairwise (· ≤ ·) := by
  induction accounts with
  | done => exact .nil
  | pull _ _ later ih => exact .cons (List.forall_mem_map.mpr later.depth_le) ih

end AccountsAll

/-- Pulling all forms of a source, whichever of them fail, takes its tokens in segments one after
the other. All its symbols are interned in their order, and no pull ends less deep than the one
before it. -/
theorem ofSource_pulls (heap : Heap) (source : String) :
    ∃ segments, AccountsAll (ofSource heap source) (ofSource heap source).pulls.1 segments
        (ofSource heap source).pulls.2 ∧
      segments.flatten = Token.ofSource source ∧
      (ofSource heap source).pulls.1.length ≤ (Token.ofSource source).length ∧
      (ofSource heap source).pulls.2.heap.symbols =
        heap.symbols.internEach (Token.symbolTexts (Token.ofSource source)) ∧
      ((ofSource heap source).pulls.1.map Prod.snd).Pairwise (· ≤ ·) := by
  obtain ⟨segments, accounts⟩ := exists_accountsAll (ofSource heap source)
  have flatten : segments.flatten = Token.ofSource source := accounts.tokens_eq
  refine ⟨segments, accounts, flatten, accounts.length_le, ?_, accounts.depths_increase⟩
  rw [accounts.symbols_eq, flatten]
  rfl

end Reader

end TaggedLisp
