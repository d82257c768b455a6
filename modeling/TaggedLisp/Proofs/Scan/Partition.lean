import TaggedLisp.Proofs.Scan.LongestMatch

/-! The tokens of a text are its parentheses, the quote marks outside all runs, and the runs that no
other run reaches around. The longest matches from the left give these and nothing else: each match
ends at a boundary, where every run that starts before it has ended. Together the tokens cover
everything that is not blank. -/

set_option autoImplicit false

namespace TaggedLisp

namespace Token

/-! ## Tokens by their place in the text -/

/-- A run of the text `before ++ part ++ after` that reaches around the part, or is the part. -/
structure IsRunAround (before part after front run back : List Char) : Prop where
  same : front ++ run ++ back = before ++ part ++ after
  isRun : isRun run = true
  reachesFront : front.length ≤ before.length
  reachesBack : back.length ≤ after.length

/-- What is a token of the text `before ++ lexeme ++ after`, without any order in which a scanner
takes tokens. -/
inductive IsLexeme : List Char → List Char → List Char → TokenKind → Prop where
  | parenthesis {before after : List Char} {c : Char} {kind : TokenKind} :
      parenthesis? c = some kind → IsLexeme before [c] after kind
  | quote {before after : List Char} :
      (∀ front run back, ¬ IsRunAround before [quoteMark] after front run back) →
      IsLexeme before [quoteMark] after .quote
  | run {before lexeme after : List Char} :
      isRun lexeme = true →
      (∀ front run back, IsRunAround before lexeme after front run back → run = lexeme) →
      IsLexeme before lexeme after
        (if isSymbolShape lexeme ∧ byteLength lexeme ≤ maxSymbolLength then .symbol else .invalid)

/-- The token of some kind with this text, behind these characters. -/
def behind (before lexeme : List Char) (kind : TokenKind) : Token where
  kind := kind
  text := String.ofList lexeme
  start := byteLength before
  stop := byteLength before + byteLength lexeme

/-- How the tokens lie in a text. -/
structure Partitions (text : List Char) (tokens : List Token) : Prop where
  nonempty : ∀ token ∈ tokens, token.start < token.stop
  ordered : tokens.Pairwise (fun earlier later => earlier.stop ≤ later.start)
  /-- The text of a token is encoded by the bytes between its ends. -/
  sliced : ∀ token ∈ tokens,
    (String.ofList text).toByteArray.extract token.start token.stop = token.text.toByteArray
  /-- A byte lies in a token exactly if its character is not blank. -/
  covered : ∀ before c after, text = before ++ c :: after →
    ∀ byte, byteLength before ≤ byte → byte < byteLength before + c.utf8Size →
      ((∃ token ∈ tokens, token.start ≤ byte ∧ byte < token.stop) ↔ isBlank c = false)
  lexemes : ∀ token, token ∈ tokens ↔
    ∃ before lexeme after kind, text = before ++ lexeme ++ after ∧
      IsLexeme before lexeme after kind ∧ token = behind before lexeme kind

end Token

open Token

/-- A cut comes after a given character or not. -/
theorem append_eq_append_cons {left right before after : List Char} {c : Char}
    (same : left ++ right = before ++ c :: after) :
    (∃ more, left = before ++ c :: more ∧ after = more ++ right) ∨
      ∃ more, before = left ++ more ∧ right = more ++ c :: after := by
  rcases List.append_eq_append_iff.mp same with ⟨more, shorter, rest⟩ | ⟨more, longer, rest⟩
  · exact .inr ⟨more, shorter, rest⟩
  · cases more with
    | nil => exact .inr ⟨[], by simpa using longer.symm, rest.symm⟩
    | cons d more =>
        obtain ⟨rfl, rfl⟩ := List.cons.inj rest
        exact .inl ⟨more, longer, rfl⟩

theorem singleton_eq_append_cons {c d : Char} {front back : List Char}
    (same : [c] = front ++ d :: back) : front = [] ∧ c = d ∧ back = [] := by
  cases front with
  | nil => exact ⟨rfl, (List.cons.inj same).1, (List.cons.inj same).2.symm⟩
  | cons e front => simp at same

namespace Token

theorem byteLength_pos {characters : List Char} (nonempty : characters ≠ []) :
    0 < byteLength characters := by
  obtain ⟨c, rest, rfl⟩ := List.exists_cons_of_ne_nil nonempty
  have positive := c.utf8Size_pos
  rw [byteLength_cons]
  omega

theorem extract_behind (before lexeme after : List Char) :
    (String.ofList (before ++ lexeme ++ after)).toByteArray.extract (byteLength before)
      (byteLength before + byteLength lexeme) = (String.ofList lexeme).toByteArray := by
  have bytes (characters : List Char) : characters.utf8Encode.size = byteLength characters :=
    utf8ByteSize_ofList characters
  have noneBefore : before.utf8Encode.extract before.utf8Encode.size
      (before.utf8Encode.size + lexeme.utf8Encode.size) = ByteArray.empty :=
    ByteArray.extract_eq_empty_iff.mpr (by omega)
  rw [← bytes, ← bytes]
  simp only [String.toByteArray_ofList, List.utf8Encode_append]
  rw [ByteArray.append_assoc, ByteArray.extract_append, noneBefore]
  simp [ByteArray.extract_append]

theorem not_isRun_of_not_isOrdinary {c : Char} (special : isOrdinary c = false)
    (others : List Char) : isRun (c :: others) = false := by
  rw [Bool.eq_false_iff]
  intro run
  cases special.symm.trans (isOrdinary_of_mem_run run List.mem_cons_self)

theorem not_isRun_of_quoteMark (others : List Char) : isRun (quoteMark :: others) = false := by
  simp [isRun]

theorem not_isOrdinary_of_isBlank {c : Char} (blank : isBlank c = true) : isOrdinary c = false := by
  simp [isOrdinary, blank]

theorem not_isOrdinary_of_parenthesis {c : Char} {kind : TokenKind}
    (found : parenthesis? c = some kind) : isOrdinary c = false := by
  simp [isOrdinary, found]

theorem not_isBlank_of_parenthesis {c : Char} {kind : TokenKind}
    (found : parenthesis? c = some kind) : isBlank c = false := by
  unfold parenthesis? at found
  split at found
  · next opening => exact opening ▸ rfl
  · split at found
    · next closing => exact closing ▸ rfl
    · cases found

end Token

/-! ## Boundaries -/

/-- Every run that starts before the boundary ends there at the latest. -/
def IsBoundary (before rest : List Char) : Prop :=
  ∀ front run back, front ++ run ++ back = before ++ rest → isRun run = true →
    front.length < before.length → front.length + run.length ≤ before.length

namespace IsBoundary

variable {before rest : List Char}

theorem start (rest : List Char) : IsBoundary [] rest := by
  intro front run back same isRun shorter
  cases shorter

theorem of_isDelimited (before : List Char) (delimited : IsDelimited rest) :
    IsBoundary before rest := by
  intro front run back same isRun shorter
  rw [List.append_assoc] at same
  rcases List.append_eq_append_iff.mp same with ⟨more, rfl, left⟩ | ⟨more, rfl, -⟩
  · have inside := length_le_of_isDelimited isRun delimited left
    rw [List.length_append]
    omega
  · rw [List.length_append] at shorter
    omega

/-- Characters that start no run move a boundary behind them. -/
theorem append {more : List Char} (boundary : IsBoundary before (more ++ rest))
    (noRun : ∀ c ∈ more, ∀ others, isRun (c :: others) = false) :
    IsBoundary (before ++ more) rest := by
  intro front run back same isRun shorter
  rw [List.length_append] at shorter ⊢
  by_cases earlier : front.length < before.length
  · have ended := boundary front run back (by rw [same, List.append_assoc]) isRun earlier
    omega
  · -- The run would start at one of the characters.
    cases run with
    | nil => cases isRun
    | cons c run =>
        rw [List.append_assoc, List.cons_append] at same
        rcases append_eq_append_cons same.symm with ⟨others, whole, -⟩ | ⟨others, rfl, -⟩
        · rcases append_eq_append_cons whole with ⟨others, rfl, -⟩ | ⟨others, -, rfl⟩
          · simp at earlier
          · cases (noRun c (by simp) run).symm.trans isRun
        · rw [List.length_append, List.length_append] at shorter
          omega

/-- No run reaches over the boundary in front of a part. -/
theorem front_eq {part after front run back : List Char}
    (boundary : IsBoundary before (part ++ after)) (nonempty : part ≠ [])
    (around : IsRunAround before part after front run back) :
    front = before ∧ run ++ back = part ++ after := by
  have same : front ++ (run ++ back) = before ++ (part ++ after) := by
    simpa using around.same
  have lengths := congrArg List.length same
  have positive := List.length_pos_of_ne_nil nonempty
  have reachesFront := around.reachesFront
  have reachesBack := around.reachesBack
  simp only [List.length_append] at lengths
  refine List.append_inj same ?_
  rcases Nat.lt_or_eq_of_le around.reachesFront with earlier | equal
  · have ended := boundary front run back (by simpa using same) around.isRun earlier
    omega
  · exact equal

/-- A run that reaches around a quote mark would start with it. -/
theorem not_isRunAround_quoteMark {after front run back : List Char}
    (boundary : IsBoundary before ([quoteMark] ++ after)) :
    ¬ IsRunAround before [quoteMark] after front run back := by
  intro around
  obtain ⟨-, same⟩ := boundary.front_eq (List.cons_ne_nil _ _) around
  have isRun := around.isRun
  cases run with
  | nil => cases isRun
  | cons c run =>
      obtain ⟨rfl, -⟩ := List.cons.inj same
      cases (not_isRun_of_quoteMark run).symm.trans isRun

/-- A run with a boundary before it and a delimiter behind it is the longest. -/
theorem eq_of_isRunAround {lexeme front run back : List Char}
    (boundary : IsBoundary before (lexeme ++ rest)) (nonempty : lexeme ≠ [])
    (delimited : IsDelimited rest) (around : IsRunAround before lexeme rest front run back) :
    run = lexeme := by
  obtain ⟨-, same⟩ := boundary.front_eq nonempty around
  have inside := length_le_of_isDelimited around.isRun delimited same
  have lengths := congrArg List.length same
  have reachesBack := around.reachesBack
  simp only [List.length_append] at lengths
  exact (List.append_inj same (by omega)).1

end IsBoundary

/-! ## Tokens by what they start with -/

namespace Token

variable {before lexeme after rest : List Char} {kind : TokenKind} {c : Char}

theorem IsLexeme.ne_nil (isLexeme : IsLexeme before lexeme after kind) : lexeme ≠ [] := by
  cases isLexeme with
  | parenthesis | quote => exact List.cons_ne_nil _ _
  | run isRun =>
      rintro rfl
      cases isRun

theorem IsLexeme.isBlank_eq_false (isLexeme : IsLexeme before (c :: lexeme) after kind) :
    isBlank c = false := by
  cases isLexeme with
  | parenthesis found => exact not_isBlank_of_parenthesis found
  | quote => rfl
  | run isRun => exact not_isBlank_of_mem_run isRun List.mem_cons_self

theorem IsLexeme.of_noRun (isLexeme : IsLexeme before (c :: lexeme) after kind)
    (noRun : isRun (c :: lexeme) = false) :
    lexeme = [] ∧ kind = (parenthesis? c).getD .quote := by
  cases isLexeme with
  | parenthesis found => exact ⟨rfl, by rw [found, Option.getD_some]⟩
  | quote => exact ⟨rfl, rfl⟩
  | run isRun => cases noRun.symm.trans isRun

/-- The longest match behind a boundary is a token of the text, and ends at a boundary again. -/
theorem IsLexeme.of_isLongest {rule : TokenRule} (boundary : IsBoundary before (lexeme ++ rest))
    (longest : rule.IsLongest lexeme rest) (named : rule.kind? lexeme = some kind) :
    IsLexeme before lexeme rest kind ∧ IsBoundary (before ++ lexeme) rest := by
  have nonempty := TokenRule.ne_nil_of_accepts longest.accepted
  rcases longest.cases named with ⟨c, rfl, found⟩ | ⟨rfl, rfl⟩ | ⟨isRun, delimited, rfl⟩
  · have noRun := not_isRun_of_not_isOrdinary (not_isOrdinary_of_parenthesis found)
    exact ⟨.parenthesis found, boundary.append (by simpa using noRun)⟩
  · have noRun := boundary.append (by simpa using not_isRun_of_quoteMark)
    exact ⟨.quote fun _ _ _ => boundary.not_isRunAround_quoteMark, noRun⟩
  · have longestRun : ∀ front run back, IsRunAround before lexeme rest front run back →
        run = lexeme := by
      intro front run back around
      exact boundary.eq_of_isRunAround nonempty delimited around
    exact ⟨.run isRun longestRun, .of_isDelimited _ delimited⟩

/-- Where a run cannot go on, no other token starts inside it. -/
theorem IsLexeme.of_inside_run {inner more : List Char}
    (isLexeme : IsLexeme (before ++ inner) (c :: lexeme) after kind)
    (run : isRun (inner ++ c :: more) = true) (delimited : IsDelimited rest)
    (same : lexeme ++ after = more ++ rest) :
    inner = [] ∧ lexeme = more ∧
      kind = if isSymbolShape (c :: lexeme) ∧ byteLength (c :: lexeme) ≤ maxSymbolLength
        then .symbol else .invalid := by
  have around (shorter : lexeme.length ≤ more.length) :
      IsRunAround (before ++ inner) (c :: lexeme) after before (inner ++ c :: more) rest := by
    have lengths := congrArg List.length same
    simp only [List.length_append] at lengths
    exact ⟨by simp [same], run, by simp, by omega⟩
  cases isLexeme with
  | parenthesis found =>
      have ordinary := isOrdinary_of_mem_run run (c := c) (by simp)
      cases (not_isOrdinary_of_parenthesis found).symm.trans ordinary
  | quote outside => cases outside _ _ _ (around (Nat.zero_le _))
  | run isRun longest =>
      have whole : c :: lexeme ++ after = c :: more ++ rest := congrArg (c :: ·) same
      have inside := length_le_of_isDelimited isRun delimited whole
      have equal := longest _ _ _ (around (Nat.le_of_succ_le_succ inside))
      have lengths := congrArg List.length equal
      simp only [List.length_append, List.length_cons] at lengths inside
      obtain rfl : inner = [] := List.length_eq_zero_iff.mp (by omega)
      exact ⟨rfl, (List.cons.inj equal).2.symm, rfl⟩

/-- Whatever starts inside a longest match is the match. -/
theorem IsLexeme.eq_of_inside_longest {rule : TokenRule} {matchedKind : TokenKind}
    {inner more : List Char} (isLexeme : IsLexeme (before ++ inner) (c :: lexeme) after kind)
    (longest : rule.IsLongest (inner ++ c :: more) rest)
    (named : rule.kind? (inner ++ c :: more) = some matchedKind)
    (same : lexeme ++ after = more ++ rest) :
    inner = [] ∧ lexeme = more ∧ kind = matchedKind := by
  rcases longest.cases named with ⟨d, whole, found⟩ | ⟨whole, rfl⟩ | ⟨run, delimited, rfl⟩
  · obtain ⟨rfl, rfl, rfl⟩ := singleton_eq_append_cons whole.symm
    obtain ⟨rfl, kind⟩ := isLexeme.of_noRun
      (not_isRun_of_not_isOrdinary (not_isOrdinary_of_parenthesis found) lexeme)
    exact ⟨rfl, rfl, by rw [kind, found, Option.getD_some]⟩
  · obtain ⟨rfl, rfl, rfl⟩ := singleton_eq_append_cons whole.symm
    obtain ⟨rfl, kind⟩ := isLexeme.of_noRun (not_isRun_of_quoteMark lexeme)
    exact ⟨rfl, rfl, kind⟩
  · obtain ⟨rfl, rfl, kind⟩ := isLexeme.of_inside_run run delimited same
    exact ⟨rfl, rfl, kind⟩

end Token

/-! ## The longest matches partition the text -/

theorem TokenRule.IsLongest.isBlank {blanks rest : List Char}
    (longest : TokenRule.blanks.IsLongest blanks rest) : ∀ c ∈ blanks, isBlank c = true := by
  simpa using (Bool.and_eq_true_iff.mp longest.accepted).2

namespace Munches

variable {position : Nat} {text : List Char} {tokens : List Token}

theorem start_le (munches : Munches position text tokens) :
    ∀ token ∈ tokens, position ≤ token.start := by
  induction munches with
  | done =>
      intro token member
      cases member
  | blanks longest later ih =>
      intro token member
      have behind := ih token member
      omega
  | @token position rule kind lexeme rest tokens longest named later ih =>
      have others : ∀ token ∈ tokens, position ≤ token.start := by
        intro token member
        have behind := ih token member
        omega
      exact List.forall_mem_cons.mpr ⟨Nat.le_refl _, others⟩

theorem nonempty (munches : Munches position text tokens) :
    ∀ token ∈ tokens, token.start < token.stop := by
  induction munches with
  | done =>
      intro token member
      cases member
  | blanks longest later ih => exact ih
  | token longest named later ih =>
      have positive := byteLength_pos (TokenRule.ne_nil_of_accepts longest.accepted)
      exact List.forall_mem_cons.mpr ⟨Nat.lt_add_of_pos_right positive, ih⟩

theorem ordered (munches : Munches position text tokens) :
    tokens.Pairwise (fun earlier later => earlier.stop ≤ later.start) := by
  induction munches with
  | done => exact .nil
  | blanks longest later ih => exact ih
  | token longest named later ih => exact .cons later.start_le ih

/-- Before the first token there is nothing that a token covers. -/
theorem not_covered (munches : Munches position text tokens) {byte : Nat}
    (earlier : byte < position) :
    ¬ ∃ token ∈ tokens, token.start ≤ byte ∧ byte < token.stop := by
  rintro ⟨token, member, started, -⟩
  have behind := munches.start_le token member
  omega

theorem covered (munches : Munches position text tokens) {before after : List Char} {c : Char}
    (split : text = before ++ c :: after) {byte : Nat}
    (started : position + byteLength before ≤ byte)
    (inside : byte < position + byteLength before + c.utf8Size) :
    (∃ token ∈ tokens, token.start ≤ byte ∧ byte < token.stop) ↔ isBlank c = false := by
  induction munches generalizing before with
  | done => simp at split
  | @blanks position blanks rest tokens longest later ih =>
      rcases append_eq_append_cons split with ⟨more, whole, -⟩ | ⟨more, rfl, rest⟩
      · have blank := longest.isBlank c (by simp [whole])
        refine iff_of_false (later.not_covered ?_) (by simp [blank])
        rw [whole, byteLength_append, byteLength_cons]
        omega
      · rw [byteLength_append] at started inside
        exact ih rest (by omega) (by omega)
  | @token position rule kind lexeme rest tokens longest named later ih =>
      simp only [List.mem_cons, exists_eq_or_imp]
      rcases append_eq_append_cons split with ⟨more, whole, -⟩ | ⟨more, rfl, rest⟩
      · have notBlank : isBlank c = false := by
          have member : c ∈ lexeme := by simp [whole]
          rcases longest.cases named with ⟨d, rfl, found⟩ | ⟨rfl, -⟩ | ⟨run, -⟩
          · cases List.mem_singleton.mp member
            exact not_isBlank_of_parenthesis found
          · cases List.mem_singleton.mp member
            rfl
          · exact not_isBlank_of_mem_run run member
        refine iff_of_true (.inl ⟨?_, ?_⟩) notBlank
        · exact Nat.le_trans (Nat.le_add_right _ _) started
        · rw [whole, byteLength_append, byteLength_cons]
          omega
      · rw [byteLength_append] at started inside
        rw [or_iff_right (by omega)]
        exact ih rest (by omega) (by omega)

theorem isLexeme (before : List Char) (munches : Munches (byteLength before) text tokens)
    (boundary : IsBoundary before text) :
    ∀ token ∈ tokens, ∃ front lexeme after kind, before ++ text = front ++ lexeme ++ after ∧
      IsLexeme front lexeme after kind ∧ token = behind front lexeme kind := by
  generalize here : byteLength before = position at munches
  induction munches generalizing before with
  | done =>
      intro token member
      cases member
  | @blanks position blanks rest tokens longest later ih =>
      have noRun : ∀ c ∈ blanks, ∀ others, isRun (c :: others) = false := by
        intro c member
        exact not_isRun_of_not_isOrdinary (not_isOrdinary_of_isBlank (longest.isBlank c member))
      rw [← List.append_assoc]
      exact ih _ (boundary.append noRun) (by rw [byteLength_append, here])
  | @token position rule kind lexeme rest tokens longest named later ih =>
      obtain ⟨isLexeme, next⟩ := IsLexeme.of_isLongest boundary longest named
      rw [← List.append_assoc]
      refine List.forall_mem_cons.mpr ⟨?_, ih _ next (by rw [byteLength_append, here])⟩
      exact ⟨before, lexeme, rest, kind, rfl, isLexeme, by rw [behind, here]⟩

/-- From the left, no token is left out. -/
theorem mem (before : List Char) (munches : Munches (byteLength before) text tokens)
    {inner lexeme after : List Char} {kind : TokenKind} (split : text = inner ++ lexeme ++ after)
    (isLexeme : IsLexeme (before ++ inner) lexeme after kind) :
    behind (before ++ inner) lexeme kind ∈ tokens := by
  obtain ⟨c, more, rfl⟩ := List.exists_cons_of_ne_nil isLexeme.ne_nil
  rw [List.append_assoc, List.cons_append] at split
  generalize here : byteLength before = position at munches
  induction munches generalizing before inner with
  | done => simp at split
  | @blanks position blanks rest tokens longest later ih =>
      rcases append_eq_append_cons split with ⟨others, rfl, -⟩ | ⟨others, rfl, rest⟩
      · have blank := longest.isBlank c (by simp)
        cases blank.symm.trans isLexeme.isBlank_eq_false
      · rw [← List.append_assoc] at isLexeme ⊢
        exact ih _ rest isLexeme (by rw [byteLength_append, here])
  | @token position rule first matched rest tokens longest named later ih =>
      rcases append_eq_append_cons split with ⟨others, whole, same⟩ | ⟨others, rfl, rest⟩
      · subst whole
        obtain ⟨rfl, rfl, rfl⟩ := isLexeme.eq_of_inside_longest longest named same
        rw [List.append_nil, List.nil_append, behind, here]
        exact List.mem_cons_self
      · rw [← List.append_assoc] at isLexeme ⊢
        exact List.mem_cons_of_mem _ (ih _ rest isLexeme (by rw [byteLength_append, here]))

theorem sliced (munches : Munches 0 text tokens) : ∀ token ∈ tokens,
    (String.ofList text).toByteArray.extract token.start token.stop = token.text.toByteArray := by
  intro token member
  obtain ⟨before, lexeme, after, kind, whole, -, rfl⟩ :=
    munches.isLexeme [] (.start text) token member
  rw [List.nil_append] at whole
  rw [whole]
  exact extract_behind before lexeme after

theorem partitions (munches : Munches 0 text tokens) : Partitions text tokens where
  nonempty := munches.nonempty
  ordered := munches.ordered
  sliced := munches.sliced
  covered before c after split byte started inside :=
    munches.covered split (by omega) (by omega)
  lexemes token := by
    constructor
    · intro member
      simpa using munches.isLexeme [] (.start text) token member
    · rintro ⟨before, lexeme, after, kind, split, isLexeme, rfl⟩
      exact munches.mem [] split isLexeme

end Munches

/-- Pulled one by one, the tokens of a source are the longest matches from the left, and the
position after each is where it stops. They are also the tokens of the text by their places in it,
and lie in order over everything that is not blank. -/
theorem Token.ofSource_partitions (source : String) :
    (∀ pulled last, Cursor.PullsAll ⟨0, readable source⟩ pulled last ↔
      pulled = (ofSource source).map (fun token => (token, token.stop)) ∧
        last = ⟨endOffset source, []⟩) ∧
      endOffset source = (String.ofList (readable source)).utf8ByteSize ∧
      Partitions (readable source) (ofSource source) := by
  refine ⟨?_, (utf8ByteSize_ofList _).symm, (munches_scan 0 (readable source)).partitions⟩
  intro pulled last
  rw [endOffset, ← Nat.zero_add (byteLength (readable source))]
  exact Cursor.pullsAll_iff

end TaggedLisp
