import TaggedLisp.Proofs.Reader.Pushdown
import TaggedLisp.Proofs.Token
import TaggedLisp.Proofs.Walks
import Mathlib.Data.List.TakeWhile

/-! The text of a tree of lists and symbols spells the tree. A symbol in the text is followed by a
blank or by a closing parenthesis, so the scanner ends its run exactly there; every proof about the
text of a part therefore speaks of the characters that follow it too. -/

set_option autoImplicit false

namespace TaggedLisp

namespace Tree

mutual

/-- Whether a tree consists of lists and of symbols that can be written in a source. -/
def isReadable : Tree → Bool
  | .symbol name => Token.isSymbolText name.toList
  | .list elements => isReadableEach elements
  | _ => false

def isReadableEach : List Tree → Bool
  | [] => true
  | element :: elements => element.isReadable && isReadableEach elements

end

def spacedText (trees : List Tree) : List Char :=
  [' '].intercalate ((textEach trees).map String.toList)

theorem text_list (elements : List Tree) :
    (Tree.list elements).text.toList = '(' :: (spacedText elements ++ [')']) := by
  simp [text, spacedText, String.toList_intercalate]

theorem spacedText_singleton (tree : Tree) : spacedText [tree] = tree.text.toList := by
  simp [spacedText, textEach]

theorem spacedText_cons_cons (first second : Tree) (trees : List Tree) :
    spacedText (first :: second :: trees) =
      first.text.toList ++ ' ' :: spacedText (second :: trees) := by
  simp [spacedText, textEach]

end Tree

namespace Token

/-! ## Runs of symbol characters -/

theorem isSymbolPart_of_mem {characters : List Char} (isSymbol : isSymbolText characters = true)
    {c : Char} (member : c ∈ characters) : isSymbolPart c = true := by
  cases characters with
  | nil => cases member
  | cons first rest =>
      simp only [isSymbolText, Bool.and_eq_true, List.all_eq_true] at isSymbol
      rcases List.mem_cons.mp member with rfl | later
      · simp [isSymbolPart, isSymbol.1.1]
      · exact isSymbol.1.2 c later

theorem ne_of_isSymbolPart {c special : Char} (part : isSymbolPart c = true)
    (notPart : isSymbolPart special = false) : c ≠ special := by
  intro same
  rw [← same, part] at notPart
  cases notPart

/-- Characters of symbols never end a run. -/
theorem continues_of_isSymbolPart {c : Char} (part : isSymbolPart c = true) :
    isBlank c = false ∧ parenthesis? c = none ∧ c ≠ quoteMark := by
  refine ⟨?_, ?_, ne_of_isSymbolPart part (by decide)⟩
  · have apart : ∀ blank ∈ [' ', '\t', '\n', '\r', '\x0b', '\x0c'], c ≠ blank := by
      intro blank member
      refine ne_of_isSymbolPart part ?_
      simp only [List.mem_cons, List.not_mem_nil, or_false] at member
      rcases member with rfl | rfl | rfl | rfl | rfl | rfl <;> decide
    simpa [isBlank] using apart
  · rw [parenthesis?, if_neg (ne_of_isSymbolPart part (by decide)),
      if_neg (ne_of_isSymbolPart part (by decide))]

theorem scan_symbolParts {run : List Char} (parts : ∀ c ∈ run, isSymbolPart c = true)
    (position : Nat) (pending rest : List Char) :
    ∃ stop, scan position pending (run ++ rest) = scan stop (run.reverse ++ pending) rest := by
  induction run generalizing position pending with
  | nil => exact ⟨position, rfl⟩
  | cons c run ih =>
      obtain ⟨stop, scanned⟩ := ih (fun other member => parts other (List.mem_cons_of_mem _ member))
        (position + c.utf8Size) (c :: pending)
      obtain ⟨notBlank, noParenthesis, notMark⟩ :=
        continues_of_isSymbolPart (parts c List.mem_cons_self)
      refine ⟨stop, ?_⟩
      rw [List.cons_append, scan]
      simp only [notBlank, noParenthesis, notMark]
      simpa using scanned

/-- Characters before which every run ends. -/
def IsDelimited (rest : List Char) : Prop :=
  ∀ c others, rest = c :: others → isBlank c = true ∨ (parenthesis? c).isSome = true

theorem isDelimited_nil : IsDelimited [] := by
  intro c others same
  cases same

theorem isDelimited_cons {c : Char} (delimiter : isBlank c = true ∨ (parenthesis? c).isSome = true)
    (others : List Char) : IsDelimited (c :: others) := by
  intro d rest same
  cases same
  exact delimiter

theorem scan_delimited {rest : List Char} (delimited : IsDelimited rest) (position : Nat)
    (pending : List Char) :
    scan position pending rest = ofRun position pending.reverse ++ scan position [] rest := by
  cases rest with
  | nil => simp [scan, ofRun]
  | cons c others =>
      rw [scan, scan]
      rcases delimited c others rfl with blank | parenthesis
      · simp [blank, ofRun]
      · obtain ⟨kind, found⟩ := Option.isSome_iff_exists.mp parenthesis
        cases blank : isBlank c <;> simp [found, ofRun]

/-! ## Texts of trees -/

/-- Scanning these characters, whatever stands before and after them, gives tokens of which the
predicate holds. -/
def ScansTo (holds : List Token → Prop) (characters rest : List Char) : Prop :=
  ∀ position, ∃ tokens stop, scan position [] (characters ++ rest) = tokens ++ scan stop [] rest ∧
    holds tokens

theorem scansTo_symbol {name : String} (isSymbol : isSymbolText name.toList = true)
    {rest : List Char} (delimited : IsDelimited rest) :
    ScansTo (Spells · (.symbol name)) name.toList rest := by
  intro position
  obtain ⟨stop, scanned⟩ :=
    scan_symbolParts (fun c => isSymbolPart_of_mem isSymbol) position [] rest
  have nonempty : name.toList.isEmpty = false := by
    cases characters : name.toList with
    | nil =>
        rw [characters] at isSymbol
        cases isSymbol
    | cons => rfl
  rw [List.append_nil, scan_delimited delimited, List.reverse_reverse, ofRun, nonempty] at scanned
  have spells : Spells [⟨.symbol, name, stop - byteLength name.toList, stop⟩] (.symbol name) :=
    .symbol rfl
  exact ⟨_, stop, scanned, by simpa [isSymbol] using spells⟩

theorem scansTo_list {elements : List Tree} {rest : List Char}
    (inner : ScansTo (SpellsEach · elements) (Tree.spacedText elements) (')' :: rest)) :
    ScansTo (Spells · (.list elements)) (Tree.list elements).text.toList rest := by
  intro position
  obtain ⟨tokens, stop, scanned, spells⟩ := inner (position + Char.utf8Size '(')
  have opening : scan position [] ((Tree.list elements).text.toList ++ rest) =
      ⟨.listStart, "(", position, position + Char.utf8Size '('⟩ ::
        scan (position + Char.utf8Size '(') [] (Tree.spacedText elements ++ ')' :: rest) := by
    rw [Tree.text_list, List.cons_append, List.append_assoc, scan]
    rfl
  have closing : scan stop [] (')' :: rest) =
      ⟨.listEnd, ")", stop, stop + Char.utf8Size ')'⟩ :: scan (stop + Char.utf8Size ')') [] rest := by
    rw [scan]
    rfl
  have list : Spells (⟨.listStart, "(", position, position + Char.utf8Size '('⟩ ::
      (tokens ++ [⟨.listEnd, ")", stop, stop + Char.utf8Size ')'⟩])) (.list elements) :=
    .list rfl spells rfl
  refine ⟨_, stop + Char.utf8Size ')', ?_, list⟩
  rw [opening, scanned, closing]
  simp

mutual

/-- The text of a readable tree spells the tree wherever its end is visible. -/
theorem scansTo_text (tree : Tree) (readable : tree.isReadable = true) {rest : List Char}
    (delimited : IsDelimited rest) : ScansTo (Spells · tree) tree.text.toList rest := by
  cases tree with
  | symbol name =>
      rw [Tree.text]
      exact scansTo_symbol (by simpa [Tree.isReadable] using readable) delimited
  | list elements =>
      rw [Tree.isReadable] at readable
      exact scansTo_list (scansTo_spacedText elements readable (isDelimited_cons (.inr rfl) rest))
  | _ => simp [Tree.isReadable] at readable

theorem scansTo_spacedText (trees : List Tree) (readable : Tree.isReadableEach trees = true)
    {rest : List Char} (delimited : IsDelimited rest) :
    ScansTo (SpellsEach · trees) (Tree.spacedText trees) rest := by
  intro position
  cases trees with
  | nil => exact ⟨[], position, rfl, .nil⟩
  | cons first others =>
      rw [Tree.isReadableEach, Bool.and_eq_true] at readable
      cases others with
      | nil =>
          obtain ⟨tokens, stop, scanned, spells⟩ := scansTo_text first readable.1 delimited position
          rw [Tree.spacedText_singleton]
          exact ⟨tokens, stop, scanned, by simpa using SpellsEach.cons spells .nil⟩
      | cons second trees =>
          have apart : IsDelimited (' ' :: (Tree.spacedText (second :: trees) ++ rest)) :=
            isDelimited_cons (.inl rfl) _
          obtain ⟨front, middle, firstScanned, spells⟩ :=
            scansTo_text first readable.1 apart position
          obtain ⟨back, stop, othersScanned, spellsEach⟩ := scansTo_spacedText (second :: trees)
            readable.2 delimited (middle + Char.utf8Size ' ')
          have blank : scan middle [] (' ' :: (Tree.spacedText (second :: trees) ++ rest)) =
              scan (middle + Char.utf8Size ' ') [] (Tree.spacedText (second :: trees) ++ rest) := by
            rw [scan]
            rfl
          refine ⟨front ++ back, stop, ?_, .cons spells spellsEach⟩
          rw [Tree.spacedText_cons_cons, List.append_assoc, List.cons_append, firstScanned, blank,
            othersScanned, List.append_assoc]

end

/-! ## Texts as sources -/

mutual

theorem noNul_text (tree : Tree) (readable : tree.isReadable = true) :
    ∀ c ∈ tree.text.toList, c ≠ '\x00' := by
  cases tree with
  | symbol name =>
      rw [Tree.isReadable] at readable
      rw [Tree.text]
      exact fun c member => ne_of_isSymbolPart (isSymbolPart_of_mem readable member) (by decide)
  | list elements =>
      rw [Tree.isReadable] at readable
      rw [Tree.text_list]
      have inner := noNul_spacedText elements readable
      simp only [List.mem_cons, List.mem_append, List.not_mem_nil, or_false]
      intro c member
      rcases member with rfl | member | rfl
      · decide
      · exact inner c member
      · decide
  | _ => simp [Tree.isReadable] at readable

theorem noNul_spacedText (trees : List Tree) (readable : Tree.isReadableEach trees = true) :
    ∀ c ∈ Tree.spacedText trees, c ≠ '\x00' := by
  cases trees with
  | nil => simp [Tree.spacedText, Tree.textEach]
  | cons first others =>
      rw [Tree.isReadableEach, Bool.and_eq_true] at readable
      have head := noNul_text first readable.1
      cases others with
      | nil =>
          rw [Tree.spacedText_singleton]
          exact head
      | cons second trees =>
          have tail := noNul_spacedText (second :: trees) readable.2
          rw [Tree.spacedText_cons_cons]
          simp only [List.mem_append, List.mem_cons]
          intro c member
          rcases member with member | rfl | member
          · exact head c member
          · decide
          · exact tail c member

end

theorem readable_text {tree : Tree} (readable : tree.isReadable = true) :
    Token.readable tree.text = tree.text.toList := by
  rw [Token.readable, List.takeWhile_eq_self_iff]
  exact fun c member => decide_eq_true (noNul_text tree readable c member)

/-- The tokens of the text of a readable tree spell the tree and nothing else. -/
theorem spells_ofSource_text {tree : Tree} (readable : tree.isReadable = true) :
    SpellsEach (ofSource tree.text) [tree] := by
  obtain ⟨tokens, stop, scanned, spells⟩ := scansTo_text tree readable isDelimited_nil 0
  rw [List.append_nil] at scanned
  rw [ofSource, readable_text readable, scanned]
  simpa [scan, ofRun] using SpellsEach.cons spells .nil

theorem spells_ofSource_quoted_text {tree : Tree} (readable : tree.isReadable = true) :
    SpellsEach (ofSource ("'" ++ tree.text)) [tree.quoted] := by
  have whole : Token.readable ("'" ++ tree.text) = quoteMark :: tree.text.toList := by
    rw [← readable_text readable, Token.readable, String.toList_append]
    rfl
  obtain ⟨tokens, stop, scanned, spells⟩ :=
    scansTo_text tree readable isDelimited_nil (Char.utf8Size quoteMark)
  have marked : scan 0 [] (quoteMark :: tree.text.toList) =
      ⟨.quote, quoteMark.toString, 0, Char.utf8Size quoteMark⟩ ::
        scan (Char.utf8Size quoteMark) [] tree.text.toList := by
    rw [scan]
    rfl
  rw [List.append_nil] at scanned
  rw [ofSource, whole, marked, scanned]
  have quoted : Spells
      (⟨.quote, quoteMark.toString, 0, Char.utf8Size quoteMark⟩ :: tokens) tree.quoted :=
    .quote rfl spells
  simpa [scan, ofRun] using SpellsEach.cons quoted .nil

end Token

end TaggedLisp
