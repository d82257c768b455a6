import TaggedLisp.Proofs.Reader.Planting
import TaggedLisp.Proofs.Scan.Delimiters

/-! A quote mark before a form is a shorter way to write a list. A source can be written out without
quote marks, with the same blanks and the same text everywhere else, and then it is read to the same
values, in the same cells and with the same symbols. -/

set_option autoImplicit false

namespace TaggedLisp

namespace Token

/-! ## Tokens without quote marks -/

mutual

/-- The tokens of a form, and the tokens with which it is written out: every quote mark and the form
after it become a list. -/
inductive WritesOut : List Token → List (TokenKind × String) → Prop where
  | symbol {token : Token} : token.kind = .symbol → WritesOut [token] [token.spelling]
  | list {opening closing : Token} {tokens : List Token} {words : List (TokenKind × String)} :
      opening.kind = .listStart → WritesOutEach tokens words → closing.kind = .listEnd →
      WritesOut (opening :: (tokens ++ [closing])) (opening.spelling :: (words ++ [closing.spelling]))
  | quote {mark : Token} {tokens : List Token} {words : List (TokenKind × String)} :
      mark.kind = .quote → WritesOut tokens words →
      WritesOut (mark :: tokens)
        ((.listStart, "(") :: (.symbol, "quote") :: (words ++ [(.listEnd, ")")]))

inductive WritesOutEach : List Token → List (TokenKind × String) → Prop where
  | nil : WritesOutEach [] []
  | cons {front back : List Token} {words others : List (TokenKind × String)} :
      WritesOut front words → WritesOutEach back others →
      WritesOutEach (front ++ back) (words ++ others)

end

/-- A token of the given kind and text, at no particular place. -/
def unplaced (word : TokenKind × String) : Token :=
  ⟨word.1, word.2, 0, 0⟩

theorem spelling_unplaced (words : List (TokenKind × String)) :
    (words.map unplaced).map spelling = words := by
  rw [List.map_map]
  exact List.map_id words

/-- The tokens written out from left to right. So many quote marks wait for a form, and so many waited
for each of the open lists, innermost first. -/
def writtenOut (waiting : Nat) (outer : List Nat) : List Token → List (TokenKind × String)
  | [] => []
  | token :: tokens =>
    match token.kind with
    | .quote => (.listStart, "(") :: (.symbol, "quote") :: writtenOut (waiting + 1) outer tokens
    | .listStart => token.spelling :: writtenOut 0 (waiting :: outer) tokens
    | .listEnd =>
      token.spelling ::
        (List.replicate (outer.headD 0) (.listEnd, ")") ++ writtenOut 0 outer.tail tokens)
    | .symbol | .invalid =>
      token.spelling :: (List.replicate waiting (.listEnd, ")") ++ writtenOut 0 outer tokens)

end Token

open Token

mutual

/-- A form is written out to tokens that spell the same tree. -/
theorem Spells.exists_writesOut {tokens : List Token} {tree : Tree} (spells : Spells tokens tree) :
    ∃ words, WritesOut tokens words ∧ Spells (words.map unplaced) tree ∧
      ∀ waiting outer rest, writtenOut waiting outer (tokens ++ rest) =
        words ++ (List.replicate waiting (.listEnd, ")") ++ writtenOut 0 outer rest) := by
  cases spells with
  | @symbol token kind =>
      refine ⟨_, .symbol kind, .symbol kind, fun waiting outer rest => ?_⟩
      simp only [List.cons_append, List.nil_append, writtenOut, kind]
  | @list opening closing tokens trees opens each closes =>
      obtain ⟨words, writes, spells, whole⟩ := each.exists_writesOutEach
      refine ⟨_, .list opens writes closes, ?_, fun waiting outer rest => ?_⟩
      · rw [List.map_cons, List.map_append]
        exact .list opens spells closes
      · simp [writtenOut, opens, whole, closes]
  | @quote mark tokens tree marks inner =>
      obtain ⟨words, writes, spells, whole⟩ := inner.exists_writesOut
      refine ⟨_, .quote marks writes, ?_, fun waiting outer rest => ?_⟩
      · have keyword : Spells [unplaced (.symbol, "quote")] (.symbol "quote") := .symbol rfl
        have both := SpellsEach.cons keyword (.cons spells .nil)
        rw [List.append_nil] at both
        rw [List.map_cons, List.map_cons, List.map_append, ← List.cons_append]
        exact .list rfl both rfl
      · simp [writtenOut, marks, whole, List.replicate_succ]

theorem SpellsEach.exists_writesOutEach {tokens : List Token} {trees : List Tree}
    (spells : SpellsEach tokens trees) :
    ∃ words, WritesOutEach tokens words ∧ SpellsEach (words.map unplaced) trees ∧
      ∀ outer rest, writtenOut 0 outer (tokens ++ rest) = words ++ writtenOut 0 outer rest := by
  cases spells with
  | nil => exact ⟨[], .nil, .nil, fun _ _ => rfl⟩
  | cons first others =>
      obtain ⟨words, writes, spells, whole⟩ := first.exists_writesOut
      obtain ⟨more, writesMore, spellsMore, wholeMore⟩ := others.exists_writesOutEach
      refine ⟨_, .cons writes writesMore, ?_, fun outer rest => ?_⟩
      · rw [List.map_append]
        exact .cons spells spellsMore
      · simp [whole, wholeMore]

end

namespace Pushdown

/-- The automaton does not look at the places of tokens. -/
theorem run_congr {tokens others : List Token} (same : tokens.map spelling = others.map spelling)
    (state : Pushdown) : state.run tokens = state.run others := by
  induction tokens generalizing others state with
  | nil => rw [List.map_eq_nil_iff.mp same.symm]
  | cons token tokens ih =>
      cases others with
      | nil => cases same
      | cons other others =>
          obtain ⟨first, later⟩ := List.cons.inj same
          obtain ⟨kind, text⟩ := Prod.mk.inj first
          have stepped : state.step token = state.step other := by
            simp only [step, kind, text]
          rw [run, run, stepped]
          cases state.step other with
          | error => rfl
          | ok next => exact ih later next

end Pushdown

theorem SpellsEach.of_spelling {tokens others : List Token} {trees : List Tree}
    (spells : SpellsEach tokens trees) (same : others.map spelling = tokens.map spelling) :
    SpellsEach others trees := by
  rw [← Pushdown.run_start_eq_ok_iff] at spells ⊢
  rw [Pushdown.run_congr same, spells]

namespace Token

/-! ## Texts without quote marks -/

/-- The characters written out from left to right, in the middle of a run or not. The end of a form
closes one parenthesis for each quote mark that has waited for it. -/
def writeOut (waiting : Nat) (outer : List Nat) (inRun : Bool) : List Char → List Char
  | [] => List.replicate (if inRun then waiting else 0) ')'
  | c :: rest =>
    let ending := List.replicate (if inRun then waiting else 0) ')'
    let waitingStill := if inRun then 0 else waiting
    if isBlank c then
      ending ++ c :: writeOut waitingStill outer false rest
    else
      match parenthesis? c with
      | some .listEnd =>
        ending ++ c :: (List.replicate (outer.headD 0) ')' ++ writeOut 0 outer.tail false rest)
      | some _ => ending ++ c :: writeOut 0 (waitingStill :: outer) false rest
      | none =>
        if c = quoteMark && !inRun then
          "(quote ".toList ++ writeOut (waiting + 1) outer false rest
        else
          c :: writeOut waiting outer true rest

/-- The source with every quote mark and the form after it written as a list. -/
def withoutQuoteMarks (source : String) : String :=
  String.ofList
    (writeOut 0 [] false (readable source) ++ source.toList.dropWhile (· ≠ '\x00'))

example : withoutQuoteMarks "'a (b ''(c) 'd)" =
    "(quote a) (b (quote (quote (c))) (quote d))" := by
  decide +kernel

theorem writeOut_delimited {text : List Char} (delimited : IsDelimited text) (waiting : Nat)
    (outer : List Nat) :
    writeOut waiting outer true text =
      List.replicate waiting ')' ++ writeOut 0 outer false text := by
  cases text with
  | nil => simp [writeOut]
  | cons c rest =>
      simp only [writeOut]
      rcases delimited c rest rfl with blank | parenthesis
      · simp [blank]
      · obtain ⟨kind, found⟩ := Option.isSome_iff_exists.mp parenthesis
        cases blank : isBlank c <;> cases kind <;> simp [found]

theorem isDelimited_replicate_append {text : List Char} (delimited : IsDelimited text) (count : Nat) :
    IsDelimited (List.replicate count ')' ++ text) := by
  cases count with
  | zero => exact delimited
  | succ count => exact isDelimited_cons (.inr rfl) _

theorem isDelimited_writeOut {text : List Char} (delimited : IsDelimited text) (waiting : Nat)
    (outer : List Nat) : IsDelimited (writeOut waiting outer false text) := by
  cases text with
  | nil => exact isDelimited_nil
  | cons c rest =>
      have delimiter := delimited c rest rfl
      simp only [writeOut]
      rcases delimiter with blank | parenthesis
      · simpa [blank] using isDelimited_cons (.inl blank) _
      · obtain ⟨kind, found⟩ := Option.isSome_iff_exists.mp parenthesis
        cases blank : isBlank c <;> cases kind <;>
          simpa [found] using isDelimited_cons (.inr parenthesis) _

theorem map_spelling_scan_closing (count position : Nat) (text : List Char) :
    ∃ stop, (scan position [] (List.replicate count ')' ++ text)).map spelling =
      List.replicate count (.listEnd, ")") ++ (scan stop [] text).map spelling := by
  induction count generalizing position with
  | zero => exact ⟨position, rfl⟩
  | succ count ih =>
      obtain ⟨stop, scanned⟩ := ih (position + Char.utf8Size ')')
      refine ⟨stop, ?_⟩
      rw [List.replicate_succ, List.replicate_succ, List.cons_append, List.cons_append, ← scanned]
      rfl

theorem writtenOut_ofRun {run : List Char} (nonempty : run ≠ []) (stop waiting : Nat)
    (outer : List Nat) (tokens : List Token) :
    writtenOut waiting outer (ofRun stop run ++ tokens) =
      (ofRun stop run).map spelling ++
        (List.replicate waiting (.listEnd, ")") ++ writtenOut 0 outer tokens) := by
  have notEmpty : run.isEmpty = false := by simpa using nonempty
  cases isSymbol : isSymbolText run <;> simp [ofRun, notEmpty, isSymbol, writtenOut]

theorem map_spelling_ofRun (stop other : Nat) (run : List Char) :
    (ofRun stop run).map spelling = (ofRun other run).map spelling := by
  unfold ofRun
  split <;> rfl

/-- Between tokens, scanning the written-out text gives the written-out tokens, if it does so behind
the next character. -/
theorem map_spelling_scan_writeOut_cons {c : Char} {rest : List Char}
    (later : ∀ waiting outer position other pending,
      (scan position pending (writeOut waiting outer (!pending.isEmpty) rest)).map spelling =
        writtenOut waiting outer (scan other pending rest))
    (waiting : Nat) (outer : List Nat) (position other : Nat) :
    (scan position [] (writeOut waiting outer false (c :: rest))).map spelling =
      writtenOut waiting outer (scan other [] (c :: rest)) := by
  rcases char_cases c with blank | ⟨rule, mark⟩ | ⟨ordinary, notQuote⟩
  · simpa [writeOut, scan, blank, ofRun] using later waiting outer _ _ []
  · rcases TokenRule.mark_cases mark with ⟨rfl, -⟩ | ⟨rfl, -⟩ | ⟨rfl, -⟩
    · exact congrArg ((.listStart, "(") :: ·) (later 0 (waiting :: outer) _ _ [])
    · obtain ⟨stop, closed⟩ := map_spelling_scan_closing (outer.headD 0)
        (position + Char.utf8Size ')') (writeOut 0 outer.tail false rest)
      exact congrArg ((.listEnd, ")") :: ·)
        (closed.trans (congrArg (_ ++ ·) (later 0 outer.tail stop _ [])))
    · exact congrArg ((.listStart, "(") :: (.symbol, "quote") :: ·)
        (later (waiting + 1) outer _ _ [])
  · obtain ⟨notBlank, noParenthesis⟩ := isOrdinary_iff.mp ordinary
    simpa [writeOut, scan, notBlank, noParenthesis, notQuote] using later waiting outer _ _ [c]

/-- The end of a run ends the form that quote marks before it wait for. -/
theorem map_spelling_scan_writeOut_of_isDelimited {text : List Char} (delimited : IsDelimited text)
    (between : ∀ waiting outer position other,
      (scan position [] (writeOut waiting outer false text)).map spelling =
        writtenOut waiting outer (scan other [] text))
    (waiting : Nat) (outer : List Nat) (position other : Nat) {pending : List Char}
    (nonempty : pending ≠ []) :
    (scan position pending (writeOut waiting outer true text)).map spelling =
      writtenOut waiting outer (scan other pending text) := by
  obtain ⟨stop, closed⟩ :=
    map_spelling_scan_closing waiting position (writeOut 0 outer false text)
  rw [writeOut_delimited delimited,
    scan_delimited (isDelimited_replicate_append (isDelimited_writeOut delimited 0 outer) waiting),
    List.map_append, closed, between 0 outer stop other, scan_delimited delimited other pending,
    writtenOut_ofRun (by simpa using nonempty), map_spelling_ofRun position other]

/-- The tokens of the written-out text are the written-out tokens. -/
theorem map_spelling_scan_writeOut (text : List Char) (waiting : Nat) (outer : List Nat)
    (position other : Nat) (pending : List Char) :
    (scan position pending (writeOut waiting outer (!pending.isEmpty) text)).map spelling =
      writtenOut waiting outer (scan other pending text) := by
  induction text generalizing waiting outer position other pending with
  | nil =>
      cases pending with
      | nil => rfl
      | cons last pending =>
          exact map_spelling_scan_writeOut_of_isDelimited isDelimited_nil (fun _ _ _ _ => rfl)
            waiting outer position other (List.cons_ne_nil last pending)
  | cons c rest ih =>
      have between := map_spelling_scan_writeOut_cons (c := c) ih
      cases pending with
      | nil => exact between waiting outer position other
      | cons last pending =>
          cases ordinary : isOrdinary c with
          | true =>
              obtain ⟨notBlank, noParenthesis⟩ := isOrdinary_iff.mp ordinary
              simpa [writeOut, scan, notBlank, noParenthesis] using
                ih waiting outer _ _ (c :: last :: pending)
          | false =>
              exact map_spelling_scan_writeOut_of_isDelimited (isDelimited_cons_iff.mpr ordinary)
                between waiting outer position other (List.cons_ne_nil last pending)

theorem not_mem_writeOut {text : List Char} (noNul : '\x00' ∉ text) (waiting : Nat)
    (outer : List Nat) (inRun : Bool) : '\x00' ∉ writeOut waiting outer inRun text := by
  have notClosing (count : Nat) : '\x00' ∉ List.replicate count ')' := by
    simp [List.mem_replicate]
  induction text generalizing waiting outer inRun with
  | nil => exact notClosing _
  | cons c rest ih =>
      obtain ⟨notHere, notLater⟩ := not_or.mp (mt List.mem_cons.mpr noNul)
      simp only [writeOut]
      split
      · simp [notClosing, notHere, ih notLater]
      · split
        · simp [notClosing, notHere, ih notLater]
        · simp [notClosing, notHere, ih notLater]
        · split <;> simp [notHere, ih notLater]

theorem readable_withoutQuoteMarks (source : String) :
    readable (withoutQuoteMarks source) = writeOut 0 [] false (readable source) := by
  have noNul := not_mem_writeOut (not_mem_readable source) 0 [] false
  have all : ∀ c ∈ writeOut 0 [] false (readable source), decide (c ≠ '\x00') = true :=
    fun c member => decide_eq_true fun same => noNul (same ▸ member)
  have none : (source.toList.dropWhile (· ≠ '\x00')).takeWhile (· ≠ '\x00') = [] := by
    cases behind : source.toList.dropWhile (· ≠ '\x00') with
    | nil => rfl
    | cons c others =>
        have stops := stops_dropWhile _ source.toList c others behind
        exact List.takeWhile_cons_of_neg (Bool.eq_false_iff.mp stops)
  rw [readable, withoutQuoteMarks, String.toList_ofList, List.takeWhile_append_of_pos all, none,
    List.append_nil]

theorem map_spelling_ofSource_withoutQuoteMarks (source : String) :
    (ofSource (withoutQuoteMarks source)).map spelling = writtenOut 0 [] (ofSource source) := by
  rw [ofSource, readable_withoutQuoteMarks]
  exact map_spelling_scan_writeOut (readable source) 0 [] 0 0 []

end Token

namespace Heap

/-- A source is read to the same words and to the same heap when every quote mark and the form after
it are written as a list, whatever blanks it is written with. -/
theorem KeywordsNamed.parse_without_quote_marks {heap : Heap} (keywords : heap.KeywordsNamed)
    {source : String} {trees : List Tree} (spells : SpellsEach (ofSource source) trees) :
    heap.parse (withoutQuoteMarks source) = heap.parse source ∧
    ∃ words, WritesOutEach (ofSource source) words ∧
      (ofSource (withoutQuoteMarks source)).map spelling = words ∧
      ∀ rewritten, (ofSource rewritten).map spelling = words →
        heap.parse rewritten = heap.parse source := by
  obtain ⟨words, writes, unplaced, whole⟩ := spells.exists_writesOutEach
  have written : (ofSource (withoutQuoteMarks source)).map spelling = words := by
    rw [map_spelling_ofSource_withoutQuoteMarks, ← List.append_nil (ofSource source), whole]
    exact List.append_nil words
  have same : ∀ rewritten, (ofSource rewritten).map spelling = words →
      heap.parse rewritten = heap.parse source := by
    intro rewritten spelled
    have spellsSame := unplaced.of_spelling (spelled.trans (spelling_unplaced words).symm)
    rw [keywords.parse_eq_plant spellsSame, keywords.parse_eq_plant spells]
  exact ⟨same _ written, words, writes, written, same⟩

theorem parse_without_quote_marks_of_nested_marks :
    ∃ heap trees, Heap.new {} = .ok heap ∧ heap.KeywordsNamed ∧
      SpellsEach (ofSource "(a ''b) 'c") trees ∧
      heap.parse "(a (quote (quote b))) (quote c)" = heap.parse "(a ''b) 'c" := by
  have created : Heap.new {} = .ok ((Heap.new {}).toOption.get (by decide)) := rfl
  have keywords := (wellFormed_new created).keywords
  have accepted : Pushdown.start.run (ofSource "(a ''b) 'c") =
      .ok [.list [.symbol "a", (Tree.symbol "b").quoted.quoted], (Tree.symbol "c").quoted] := rfl
  have spells := Pushdown.run_start_eq_ok_iff.mp accepted
  have written : withoutQuoteMarks "(a ''b) 'c" = "(a (quote (quote b))) (quote c)" := by
    decide +kernel
  have same := (keywords.parse_without_quote_marks spells).1
  rw [written] at same
  exact ⟨_, _, created, keywords, spells, same⟩

end Heap

end TaggedLisp
