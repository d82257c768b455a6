import TaggedLisp.Proofs.Reader.Pieces

/-! The scanner keeps a run that it may have to go on with. The rules for tokens do not speak of
what was kept: each accepts some texts, and the next token is the longest text in front that one of
them accepts, by the rule of the highest priority if there are several. The scanner finds exactly
these tokens, and whoever pulls them one by one is after each of them where its span ends. -/

set_option autoImplicit false

namespace TaggedLisp

open Token

/-! ## Rules -/

namespace Token

/-- Characters that neither separate tokens nor are tokens of their own. -/
def isOrdinary (c : Char) : Bool :=
  !isBlank c && (parenthesis? c).isNone

def isSymbolShape : List Char → Bool
  | [] => false
  | first :: rest => isSymbolStart first && rest.all isSymbolPart

/-- A run may hold quote marks, but does not start with one. -/
def isRun : List Char → Bool
  | [] => false
  | first :: rest => first ≠ quoteMark && (first :: rest).all isOrdinary

end Token

/-- What may be taken from the front of a text. -/
inductive TokenRule where
  | listStart
  | listEnd
  | quote
  | symbol
  | run
  | blanks
deriving DecidableEq

namespace TokenRule

/-- The texts that a rule takes as a whole. -/
def accepts : TokenRule → List Char → Bool
  | .listStart, text => text = ['(']
  | .listEnd, text => text = [')']
  | .quote, text => text = [quoteMark]
  | .symbol, text => isSymbolShape text
  | .run, text => isRun text
  | .blanks, text => !text.isEmpty && text.all isBlank

/-- Which rule goes first where two accept the same text. -/
def priority : TokenRule → Nat
  | .symbol => 3
  | .listStart | .listEnd | .quote => 2
  | .run | .blanks => 1

/-- What a rule makes of a text that it accepts. Blanks are dropped. Symbols that are too long are
still symbols to the rule, and are marked as invalid only afterwards. -/
def kind? (text : List Char) : TokenRule → Option TokenKind
  | .listStart => some .listStart
  | .listEnd => some .listEnd
  | .quote => some .quote
  | .symbol => some (if byteLength text ≤ maxSymbolLength then .symbol else .invalid)
  | .run => some .invalid
  | .blanks => none

/-- Before the rest of a text, a rule accepts the longest text that any rule accepts, and no other
rule that accepts it has the same priority or a higher one. -/
structure IsLongest (rule : TokenRule) (lexeme rest : List Char) : Prop where
  accepted : rule.accepts lexeme = true
  outranks : ∀ other longer further, longer ++ further = lexeme ++ rest →
    other.accepts longer = true →
    longer.length < lexeme.length ∨
      longer = lexeme ∧ (other = rule ∨ other.priority < rule.priority)

end TokenRule

/-- Tokens are taken from the front by the longest match, from the given position on. -/
inductive Munches : Nat → List Char → List Token → Prop where
  | done {position : Nat} : Munches position [] []
  | blanks {position : Nat} {blanks rest : List Char} {tokens : List Token} :
      TokenRule.blanks.IsLongest blanks rest →
      Munches (position + byteLength blanks) rest tokens →
      Munches position (blanks ++ rest) tokens
  | token {position : Nat} {rule : TokenRule} {kind : TokenKind} {lexeme rest : List Char}
      {tokens : List Token} :
      rule.IsLongest lexeme rest → rule.kind? lexeme = some kind →
      Munches (position + byteLength lexeme) rest tokens →
      Munches position (lexeme ++ rest)
        (⟨kind, String.ofList lexeme, position, position + byteLength lexeme⟩ :: tokens)

/-! ## There is at most one longest match -/

namespace TokenRule

variable {rule other : TokenRule} {lexeme rest : List Char}

theorem ne_nil_of_accepts (accepted : rule.accepts lexeme = true) : lexeme ≠ [] := by
  rintro rfl
  cases rule <;> simp [accepts, isSymbolShape, isRun] at accepted

theorem IsLongest.append_ne_nil (longest : rule.IsLongest lexeme rest) : lexeme ++ rest ≠ [] :=
  List.append_ne_nil_of_left_ne_nil (ne_nil_of_accepts longest.accepted) rest

theorem IsLongest.unique {otherLexeme otherRest : List Char} (longest : rule.IsLongest lexeme rest)
    (otherLongest : other.IsLongest otherLexeme otherRest)
    (same : lexeme ++ rest = otherLexeme ++ otherRest) :
    rule = other ∧ lexeme = otherLexeme ∧ rest = otherRest := by
  have first := longest.outranks other otherLexeme otherRest same.symm otherLongest.accepted
  have second := otherLongest.outranks rule lexeme rest same longest.accepted
  have lexemes : lexeme = otherLexeme := by
    rcases first with shorter | ⟨equal, -⟩
    · rcases second with otherShorter | ⟨equal, -⟩
      · omega
      · exact equal
    · exact equal.symm
  subst lexemes
  refine ⟨?_, rfl, List.append_cancel_left same⟩
  rcases first with shorter | ⟨-, equal | lower⟩
  · omega
  · exact equal.symm
  · rcases second with shorter | ⟨-, equal | otherLower⟩
    · omega
    · exact equal
    · omega

/-- A match stays the longest when less follows. -/
theorem IsLongest.alone (longest : rule.IsLongest lexeme rest) : rule.IsLongest lexeme [] where
  accepted := longest.accepted
  outranks other longer further same accepted := by
    refine longest.outranks other longer (further ++ rest) ?_ accepted
    rw [← List.append_assoc, same, List.append_nil]

end TokenRule

/-! ## Runs -/

namespace Token

theorem isOrdinary_iff {c : Char} :
    isOrdinary c = true ↔ isBlank c = false ∧ parenthesis? c = none := by
  simp [isOrdinary]

theorem isOrdinary_of_isSymbolPart {c : Char} (part : isSymbolPart c = true) :
    isOrdinary c = true :=
  isOrdinary_iff.mpr ((continues_of_isSymbolPart part).imp_right And.left)

theorem isSymbolPart_of_isSymbolStart {c : Char} (start : isSymbolStart c = true) :
    isSymbolPart c = true := by
  simp [isSymbolPart, start]

theorem isRun_cons_iff {first : Char} {rest : List Char} :
    isRun (first :: rest) = true ↔
      first ≠ quoteMark ∧ ∀ c ∈ first :: rest, isOrdinary c = true := by
  simp [isRun]

theorem isOrdinary_of_mem_run {run : List Char} (isRun : isRun run = true) {c : Char}
    (member : c ∈ run) : isOrdinary c = true := by
  cases run with
  | nil => cases member
  | cons first more => exact (isRun_cons_iff.mp isRun).2 c member

theorem not_isBlank_of_mem_run {run : List Char} (isRun : isRun run = true) {c : Char}
    (member : c ∈ run) : isBlank c = false :=
  (isOrdinary_iff.mp (isOrdinary_of_mem_run isRun member)).1

theorem isRun_concat {run : List Char} {c : Char} (isRun : isRun run = true)
    (ordinary : isOrdinary c = true) : Token.isRun (run ++ [c]) = true := by
  cases run with
  | nil => cases isRun
  | cons first more =>
      obtain ⟨notMark, others⟩ := isRun_cons_iff.mp isRun
      refine isRun_cons_iff.mpr ⟨notMark, ?_⟩
      intro d member
      rcases List.mem_append (s := first :: more).mp member with inRun | last
      · exact others d inRun
      · exact List.mem_singleton.mp last ▸ ordinary

theorem isRun_of_isSymbolShape {text : List Char} (shape : isSymbolShape text = true) :
    isRun text = true := by
  cases text with
  | nil => cases shape
  | cons first rest =>
      simp only [isSymbolShape, Bool.and_eq_true, List.all_eq_true] at shape
      have start := isSymbolPart_of_isSymbolStart shape.1
      refine isRun_cons_iff.mpr ⟨(continues_of_isSymbolPart start).2.2, ?_⟩
      exact List.forall_mem_cons.mpr ⟨isOrdinary_of_isSymbolPart start,
        fun c member => isOrdinary_of_isSymbolPart (shape.2 c member)⟩

theorem isSymbolText_eq (text : List Char) :
    isSymbolText text = (isSymbolShape text && decide (byteLength text ≤ maxSymbolLength)) := by
  cases text <;> rfl

/-- A character ends every run exactly if it is not ordinary. -/
theorem isDelimited_cons_iff {c : Char} {rest : List Char} :
    IsDelimited (c :: rest) ↔ isOrdinary c = false := by
  rw [← Bool.not_eq_true, isOrdinary_iff]
  constructor
  · intro delimited ordinary
    rcases delimited c rest rfl with blank | parenthesis
    · simp [ordinary.1] at blank
    · simp [ordinary.2] at parenthesis
  · intro notOrdinary d others same
    cases same
    cases blank : isBlank c with
    | true => exact .inl rfl
    | false => exact .inr (Option.isSome_iff_ne_none.mpr fun none => notOrdinary ⟨blank, none⟩)

end Token

/-! ## What a first character decides -/

namespace TokenRule

variable {rule : TokenRule} {c : Char} {more : List Char}

/-- The rule for a character that is a token of its own, if it is one. -/
def ofMark? (c : Char) : Option TokenRule :=
  if c = '(' then some .listStart
  else if c = ')' then some .listEnd
  else if c = quoteMark then some .quote
  else none

theorem accepts_cons (accepted : rule.accepts (c :: more) = true) :
    ofMark? c = some rule ∧ more = [] ∨
      (rule = .symbol ∨ rule = .run) ∧ isRun (c :: more) = true ∨
      rule = .blanks ∧ ∀ d ∈ c :: more, isBlank d = true := by
  cases rule with
  | listStart | listEnd | quote =>
      obtain ⟨rfl, rfl⟩ := List.cons.inj (of_decide_eq_true accepted)
      exact .inl ⟨rfl, rfl⟩
  | symbol => exact .inr (.inl ⟨.inl rfl, isRun_of_isSymbolShape accepted⟩)
  | run => exact .inr (.inl ⟨.inr rfl, accepted⟩)
  | blanks => exact .inr (.inr ⟨rfl, by simpa [accepts] using accepted⟩)

theorem mark_cases (mark : ofMark? c = some rule) :
    c = '(' ∧ rule = .listStart ∨ c = ')' ∧ rule = .listEnd ∨ c = quoteMark ∧ rule = .quote := by
  unfold ofMark? at mark
  split at mark
  · next same => exact .inl ⟨same, (Option.some.inj mark).symm⟩
  · split at mark
    · next same => exact .inr (.inl ⟨same, (Option.some.inj mark).symm⟩)
    · split at mark
      · next same => exact .inr (.inr ⟨same, (Option.some.inj mark).symm⟩)
      · cases mark

theorem accepts_of_mark (mark : ofMark? c = some rule) : rule.accepts [c] = true := by
  rcases mark_cases mark with ⟨rfl, rfl⟩ | ⟨rfl, rfl⟩ | ⟨rfl, rfl⟩ <;> rfl

theorem not_isBlank_of_mark (mark : ofMark? c = some rule) : isBlank c = false := by
  rcases mark_cases mark with ⟨rfl, -⟩ | ⟨rfl, -⟩ | ⟨rfl, -⟩ <;> rfl

theorem not_isRun_of_mark (mark : ofMark? c = some rule) (more : List Char) :
    isRun (c :: more) = false := by
  rcases mark_cases mark with ⟨rfl, -⟩ | ⟨rfl, -⟩ | ⟨rfl, -⟩ <;> rfl

end TokenRule

/-! ## The longest matches -/

/-- Characters of one kind reach no further than to the first character of another kind. -/
theorem length_le_of_stops {holds : Char → Bool} {longer further lexeme rest : List Char}
    (all : ∀ c ∈ longer, holds c = true) (stops : ∀ c others, rest = c :: others → holds c = false)
    (same : longer ++ further = lexeme ++ rest) : longer.length ≤ lexeme.length := by
  rcases List.append_eq_append_iff.mp same with ⟨more, rfl, -⟩ | ⟨beyond, rfl, left⟩
  · simp
  · cases beyond with
    | nil => simp
    | cons c beyond =>
        have kept : holds c = true := all c (by simp)
        rw [stops c _ left] at kept
        cases kept

theorem length_le_of_isDelimited {run further lexeme rest : List Char} (isRun : isRun run = true)
    (delimited : IsDelimited rest) (same : run ++ further = lexeme ++ rest) :
    run.length ≤ lexeme.length := by
  have stops : ∀ c others, rest = c :: others → isOrdinary c = false := by
    rintro c others rfl
    exact isDelimited_cons_iff.mp delimited
  exact length_le_of_stops (fun _ => isOrdinary_of_mem_run isRun) stops same

namespace TokenRule

variable {rule : TokenRule} {c : Char} {more rest : List Char}

theorem isLongest_of_mark (mark : ofMark? c = some rule) (rest : List Char) :
    rule.IsLongest [c] rest where
  accepted := accepts_of_mark mark
  outranks other longer further same accepted := by
    obtain ⟨d, more, rfl⟩ := List.exists_cons_of_ne_nil (ne_nil_of_accepts accepted)
    obtain ⟨rfl, -⟩ := List.cons.inj same
    rcases accepts_cons accepted with ⟨otherMark, rfl⟩ | ⟨-, run⟩ | ⟨-, blank⟩
    · exact .inr ⟨rfl, .inl (Option.some.inj (otherMark.symm.trans mark))⟩
    · cases (not_isRun_of_mark mark more).symm.trans run
    · cases (not_isBlank_of_mark mark).symm.trans (blank d List.mem_cons_self)

theorem isLongest_blanks (blank : ∀ d ∈ c :: more, isBlank d = true)
    (stops : ∀ d others, rest = d :: others → isBlank d = false) :
    blanks.IsLongest (c :: more) rest where
  accepted := by simpa [accepts] using blank
  outranks other longer further same accepted := by
    obtain ⟨d, longerRest, rfl⟩ := List.exists_cons_of_ne_nil (ne_nil_of_accepts accepted)
    obtain ⟨rfl, -⟩ := List.cons.inj same
    have first := blank d List.mem_cons_self
    rcases accepts_cons accepted with ⟨mark, -⟩ | ⟨-, run⟩ | ⟨rfl, otherBlank⟩
    · cases (not_isBlank_of_mark mark).symm.trans first
    · cases (not_isBlank_of_mem_run run List.mem_cons_self).symm.trans first
    · rcases Nat.lt_or_eq_of_le (length_le_of_stops otherBlank stops same) with shorter | equal
      · exact .inl shorter
      · exact .inr ⟨(List.append_inj same equal).1, .inl rfl⟩

/-- The rule for a run. -/
def ofRun (run : List Char) : TokenRule :=
  if isSymbolShape run then .symbol else .run

theorem kind?_ofRun (run : List Char) :
    (ofRun run).kind? run = some (if isSymbolText run then .symbol else .invalid) := by
  unfold ofRun
  rw [isSymbolText_eq]
  cases isSymbolShape run <;> simp [kind?]

/-- A run that nothing goes on with is a symbol or not. -/
theorem isLongest_run (run : isRun (c :: more) = true) (delimited : IsDelimited rest) :
    (ofRun (c :: more)).IsLongest (c :: more) rest where
  accepted := by
    unfold ofRun
    split
    · assumption
    · exact run
  outranks other longer further same accepted := by
    obtain ⟨d, longerRest, rfl⟩ := List.exists_cons_of_ne_nil (ne_nil_of_accepts accepted)
    obtain ⟨rfl, -⟩ := List.cons.inj same
    rcases accepts_cons accepted with ⟨mark, -⟩ | ⟨either, otherRun⟩ | ⟨-, blank⟩
    · cases (not_isRun_of_mark mark more).symm.trans run
    · rcases Nat.lt_or_eq_of_le (length_le_of_isDelimited otherRun delimited same) with
        shorter | equal
      · exact .inl shorter
      · obtain ⟨sameRun, -⟩ := List.append_inj same equal
        refine .inr ⟨sameRun, ?_⟩
        unfold ofRun
        -- Both rules accept a symbol, and then the one for symbols goes first.
        rcases either with rfl | rfl
        · have shape : isSymbolShape (d :: more) = true := sameRun ▸ accepted
          rw [if_pos shape]
          exact .inl rfl
        · split
          · exact .inr (by decide)
          · exact .inl rfl
    · cases (not_isBlank_of_mem_run run List.mem_cons_self).symm.trans (blank d List.mem_cons_self)

/-- A run that could go on would not be the longest match. -/
theorem IsLongest.isDelimited {lexeme : List Char} (longest : rule.IsLongest lexeme rest)
    (run : isRun lexeme = true) : IsDelimited rest := by
  cases rest with
  | nil => exact isDelimited_nil
  | cons c others =>
      rw [isDelimited_cons_iff, Bool.eq_false_iff]
      intro ordinary
      have goesOn : TokenRule.run.accepts (lexeme ++ [c]) = true := isRun_concat run ordinary
      rcases longest.outranks .run (lexeme ++ [c]) others (by simp) goesOn with
        shorter | ⟨same, -⟩
      · rw [List.length_append] at shorter
        omega
      · simp at same

/-- What the longest match is. Only runs go by what follows them. -/
theorem IsLongest.cases {rule : TokenRule} {kind : TokenKind} {lexeme rest : List Char}
    (longest : rule.IsLongest lexeme rest) (named : rule.kind? lexeme = some kind) :
    (∃ c, lexeme = [c] ∧ parenthesis? c = some kind) ∨
      lexeme = [quoteMark] ∧ kind = .quote ∨
      isRun lexeme = true ∧ IsDelimited rest ∧
        kind = if isSymbolShape lexeme ∧ byteLength lexeme ≤ maxSymbolLength then .symbol
          else .invalid := by
  obtain ⟨c, more, rfl⟩ := List.exists_cons_of_ne_nil (ne_nil_of_accepts longest.accepted)
  rcases accepts_cons longest.accepted with ⟨mark, rfl⟩ | ⟨either, run⟩ | ⟨rfl, -⟩
  · rcases mark_cases mark with ⟨rfl, rfl⟩ | ⟨rfl, rfl⟩ | ⟨rfl, rfl⟩ <;> cases named
    · exact .inl ⟨_, rfl, rfl⟩
    · exact .inl ⟨_, rfl, rfl⟩
    · exact .inr (.inl ⟨rfl, rfl⟩)
  · have delimited := longest.isDelimited run
    obtain ⟨rfl, -, -⟩ := longest.unique (isLongest_run run delimited) rfl
    rw [kind?_ofRun, isSymbolText_eq] at named
    have sameKind := (Option.some.inj named).symm
    exact .inr (.inr ⟨run, delimited, by simpa [-byteLength_cons] using sameKind⟩)
  · cases named

end TokenRule

/-! ## The scanner takes the longest matches -/

namespace Token

variable {c : Char} {rest : List Char}

/-- A character is blank, or a token of its own, or may start a run. -/
theorem char_cases (c : Char) :
    isBlank c = true ∨ (∃ rule, TokenRule.ofMark? c = some rule) ∨
      isOrdinary c = true ∧ c ≠ quoteMark := by
  by_cases blank : isBlank c = true
  · exact .inl blank
  · by_cases opening : c = '('
    · exact .inr (.inl ⟨.listStart, if_pos opening⟩)
    · by_cases closing : c = ')'
      · exact .inr (.inl ⟨.listEnd, by rw [TokenRule.ofMark?, if_neg opening, if_pos closing]⟩)
      · by_cases mark : c = quoteMark
        · refine .inr (.inl ⟨.quote, ?_⟩)
          rw [TokenRule.ofMark?, if_neg opening, if_neg closing, if_pos mark]
        · refine .inr (.inr ⟨?_, mark⟩)
          simp [isOrdinary, parenthesis?, blank, opening, closing]

theorem scan_mark {rule : TokenRule} (mark : TokenRule.ofMark? c = some rule) (position : Nat)
    (rest : List Char) : ∃ kind, rule.kind? [c] = some kind ∧
      scan position [] (c :: rest) =
        ⟨kind, String.ofList [c], position, position + byteLength [c]⟩ ::
          scan (position + byteLength [c]) [] rest := by
  rcases TokenRule.mark_cases mark with ⟨rfl, rfl⟩ | ⟨rfl, rfl⟩ | ⟨rfl, rfl⟩ <;>
    exact ⟨_, rfl, rfl⟩

/-- Inside a run, quote marks are like all other characters. -/
theorem scan_ordinary {run : List Char} (ordinary : ∀ d ∈ run, isOrdinary d = true)
    (position : Nat) (last : Char) (pending rest : List Char) :
    scan position (last :: pending) (run ++ rest) =
      scan (position + byteLength run) (run.reverse ++ last :: pending) rest := by
  induction run generalizing position last pending with
  | nil => rfl
  | cons d run ih =>
      obtain ⟨first, others⟩ := List.forall_mem_cons.mp ordinary
      obtain ⟨notBlank, noParenthesis⟩ := isOrdinary_iff.mp first
      rw [List.cons_append, scan]
      simp only [notBlank, noParenthesis, Bool.false_eq_true, ↓reduceIte, List.isEmpty_cons,
        Bool.and_false]
      rw [ih others, byteLength_cons, Nat.add_assoc]
      simp

theorem scan_run {more : List Char} (run : isRun (c :: more) = true)
    (delimited : IsDelimited rest) (position : Nat) :
    scan position [] (c :: more ++ rest) =
      ⟨if isSymbolText (c :: more) then .symbol else .invalid, String.ofList (c :: more), position,
        position + byteLength (c :: more)⟩ ::
          scan (position + byteLength (c :: more)) [] rest := by
  obtain ⟨notMark, ordinary⟩ := isRun_cons_iff.mp run
  obtain ⟨first, others⟩ := List.forall_mem_cons.mp ordinary
  obtain ⟨notBlank, noParenthesis⟩ := isOrdinary_iff.mp first
  have started : scan position [] (c :: more ++ rest) =
      scan (position + c.utf8Size) [c] (more ++ rest) := by
    rw [List.cons_append, scan]
    simp [notBlank, noParenthesis, notMark]
  have ended := scan_ordinary others (position + c.utf8Size) c [] rest
  rw [scan_delimited delimited, Nat.add_assoc, ← byteLength_cons] at ended
  rw [started, ended]
  simp [Token.ofRun]

end Token

open Token

/-- The characters that are split off in front are followed by one of another kind. -/
theorem stops_dropWhile (holds : Char → Bool) (text : List Char) (c : Char) (others : List Char)
    (left : text.dropWhile holds = c :: others) : holds c = false := by
  have nonempty : text.dropWhile holds ≠ [] := by
    rw [left]
    exact List.cons_ne_nil c others
  have stopped := List.head_dropWhile_not holds nonempty
  simpa [left] using stopped

/-- Between tokens the scanner has kept nothing, so it takes one longest match after the other. -/
theorem munches_scan (position : Nat) (text : List Char) :
    Munches position text (scan position [] text) := by
  match text with
  | [] => exact .done
  | c :: text =>
      rcases char_cases c with blank | ⟨rule, mark⟩ | ⟨ordinary, notMark⟩
      · have isBlanks : ∀ d ∈ c :: text.takeWhile isBlank, isBlank d = true :=
          List.forall_mem_cons.mpr ⟨blank, fun d => List.mem_takeWhile_imp⟩
        have longest := TokenRule.isLongest_blanks isBlanks (stops_dropWhile isBlank text)
        have shorter : (text.dropWhile isBlank).length ≤ text.length :=
          List.length_dropWhile_le isBlank text
        have later : Munches position _ _ :=
          .blanks longest (munches_scan _ (text.dropWhile isBlank))
        rw [← scan_blanks isBlanks] at later
        rwa [List.cons_append, List.takeWhile_append_dropWhile] at later
      · obtain ⟨kind, named, scanned⟩ := scan_mark mark position text
        rw [scanned]
        exact .token (TokenRule.isLongest_of_mark mark text) named (munches_scan _ text)
      · have isRun : isRun (c :: text.takeWhile isOrdinary) = true :=
          isRun_cons_iff.mpr ⟨notMark,
            List.forall_mem_cons.mpr ⟨ordinary, fun d => List.mem_takeWhile_imp⟩⟩
        have delimited : IsDelimited (text.dropWhile isOrdinary) := by
          cases left : text.dropWhile isOrdinary with
          | nil => exact isDelimited_nil
          | cons d others =>
              exact isDelimited_cons_iff.mpr (stops_dropWhile isOrdinary text d others left)
        have shorter : (text.dropWhile isOrdinary).length ≤ text.length :=
          List.length_dropWhile_le isOrdinary text
        have later : Munches position _ _ := .token (TokenRule.isLongest_run isRun delimited)
          (TokenRule.kind?_ofRun _) (munches_scan _ (text.dropWhile isOrdinary))
        rw [← scan_run isRun delimited] at later
        rwa [List.cons_append, List.takeWhile_append_dropWhile] at later
termination_by text.length
decreasing_by all_goals simp only [List.length_cons]; omega

/-! ## Pulling tokens -/

/-- Where a pull-based scanner stands: a byte position, and the characters from there on. -/
structure Cursor where
  position : Nat
  rest : List Char

namespace Cursor

/-- A single pull. Blanks are skipped only when the next token is asked for, so those after a token
do not move the cursor yet. -/
inductive Pulls : Cursor → Option Token → Cursor → Prop where
  | finished {position : Nat} : Pulls ⟨position, []⟩ none ⟨position, []⟩
  | blanks {position : Nat} {blanks rest : List Char} {pulled : Option Token} {after : Cursor} :
      TokenRule.blanks.IsLongest blanks rest →
      Pulls ⟨position + byteLength blanks, rest⟩ pulled after →
      Pulls ⟨position, blanks ++ rest⟩ pulled after
  | token {position : Nat} {rule : TokenRule} {kind : TokenKind} {lexeme rest : List Char} :
      rule.IsLongest lexeme rest → rule.kind? lexeme = some kind →
      Pulls ⟨position, lexeme ++ rest⟩
        (some ⟨kind, String.ofList lexeme, position, position + byteLength lexeme⟩)
        ⟨position + byteLength lexeme, rest⟩

/-- Pulling until there is nothing more. With each token comes the position after it. -/
inductive PullsAll : Cursor → List (Token × Nat) → Cursor → Prop where
  | finished {cursor last : Cursor} : cursor.Pulls none last → PullsAll cursor [] last
  | token {cursor after last : Cursor} {token : Token} {later : List (Token × Nat)} :
      cursor.Pulls (some token) after → PullsAll after later last →
      PullsAll cursor ((token, after.position) :: later) last

theorem PullsAll.blanks {position : Nat} {blanks rest : List Char} {pulled : List (Token × Nat)}
    {last : Cursor} (longest : TokenRule.blanks.IsLongest blanks rest)
    (pulls : PullsAll ⟨position + byteLength blanks, rest⟩ pulled last) :
    PullsAll ⟨position, blanks ++ rest⟩ pulled last := by
  cases pulls with
  | finished pulls => exact .finished (.blanks longest pulls)
  | token pulls later => exact .token (.blanks longest pulls) later

end Cursor

/-- Pulling gives the tokens, and ends behind the text. -/
theorem Munches.pullsAll {position : Nat} {text : List Char} {tokens : List Token}
    (munches : Munches position text tokens) :
    Cursor.PullsAll ⟨position, text⟩ (tokens.map fun token => (token, token.stop))
      ⟨position + byteLength text, []⟩ := by
  induction munches with
  | done => exact .finished .finished
  | blanks longest later ih =>
      rw [byteLength_append, ← Nat.add_assoc]
      exact ih.blanks longest
  | token longest named later ih =>
      rw [byteLength_append, ← Nat.add_assoc]
      exact .token (.token longest named) ih

namespace Cursor

variable {before after last : Cursor}

theorem Pulls.unique {pulled otherPulled : Option Token} {otherAfter : Cursor}
    (pulls : before.Pulls pulled after) (other : before.Pulls otherPulled otherAfter) :
    pulled = otherPulled ∧ after = otherAfter := by
  induction pulls generalizing otherPulled otherAfter with
  | finished =>
      generalize same : Cursor.mk _ _ = cursor at other
      cases other with
      | finished =>
          obtain ⟨rfl, -⟩ := Cursor.mk.inj same
          exact ⟨rfl, rfl⟩
      | blanks longest | token longest =>
          cases longest.append_ne_nil (Cursor.mk.inj same).2.symm
  | blanks longest pulls ih =>
      generalize same : Cursor.mk _ _ = cursor at other
      cases other with
      | finished => cases longest.append_ne_nil (Cursor.mk.inj same).2
      | blanks otherLongest otherPulls =>
          obtain ⟨rfl, sameText⟩ := Cursor.mk.inj same
          obtain ⟨-, rfl, rfl⟩ := longest.unique otherLongest sameText
          exact ih otherPulls
      | token otherLongest named =>
          obtain ⟨rfl, -, -⟩ := longest.unique otherLongest (Cursor.mk.inj same).2
          cases named
  | token longest named =>
      generalize same : Cursor.mk _ _ = cursor at other
      cases other with
      | finished => cases longest.append_ne_nil (Cursor.mk.inj same).2
      | blanks otherLongest =>
          obtain ⟨rfl, -, -⟩ := longest.unique otherLongest (Cursor.mk.inj same).2
          cases named
      | token otherLongest otherNamed =>
          obtain ⟨rfl, sameText⟩ := Cursor.mk.inj same
          obtain ⟨rfl, rfl, rfl⟩ := longest.unique otherLongest sameText
          cases Option.some.inj (named.symm.trans otherNamed)
          exact ⟨rfl, rfl⟩

theorem PullsAll.unique {pulled otherPulled : List (Token × Nat)} {otherLast : Cursor}
    (pulls : before.PullsAll pulled last) (other : before.PullsAll otherPulled otherLast) :
    pulled = otherPulled ∧ last = otherLast := by
  induction pulls generalizing otherPulled otherLast with
  | finished pulls =>
      cases other with
      | finished otherPulls => exact ⟨rfl, (pulls.unique otherPulls).2⟩
      | token otherPulls => cases (pulls.unique otherPulls).1
  | token pulls later ih =>
      cases other with
      | finished otherPulls => cases (pulls.unique otherPulls).1
      | token otherPulls otherLater =>
          obtain ⟨same, rfl⟩ := pulls.unique otherPulls
          obtain ⟨rfl, rfl⟩ := ih otherLater
          exact ⟨congrArg (fun token => (token, _) :: _) (Option.some.inj same), rfl⟩

end Cursor

/-- Tokens are decided by the text. -/
theorem Munches.eq_scan {position : Nat} {text : List Char} {tokens : List Token}
    (munches : Munches position text tokens) : tokens = scan position [] text := by
  have same := (munches.pullsAll.unique (munches_scan position text).pullsAll).1
  have firsts := congrArg (List.map Prod.fst) same
  simpa [Function.comp_def] using firsts

/-- The pulls from a text. -/
theorem Cursor.pullsAll_iff {position : Nat} {text : List Char} {pulled : List (Token × Nat)}
    {last : Cursor} :
    PullsAll ⟨position, text⟩ pulled last ↔
      pulled = (scan position [] text).map (fun token => (token, token.stop)) ∧
        last = ⟨position + byteLength text, []⟩ := by
  have expected := (munches_scan position text).pullsAll
  constructor
  · intro pulls
    exact pulls.unique expected
  · rintro ⟨rfl, rfl⟩
    exact expected

end TaggedLisp
