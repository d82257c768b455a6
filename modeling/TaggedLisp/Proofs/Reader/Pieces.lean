import TaggedLisp.Proofs.Reader.Effects
import TaggedLisp.Proofs.Reader.Printed

/-! Scanning and reading a text in pieces. Where a text is cut at a delimiter, the tokens of the
whole are those of the pieces, further on by the distance from the cut. Neither the automaton nor
the symbols that are interned depend on where a token stands. -/

set_option autoImplicit false

namespace TaggedLisp

/-! ## Scanning -/

namespace Token

def shift (distance : Nat) (token : Token) : Token :=
  { token with start := token.start + distance, stop := token.stop + distance }

@[simp] theorem byteLength_nil : byteLength [] = 0 :=
  rfl

@[simp] theorem byteLength_cons (c : Char) (characters : List Char) :
    byteLength (c :: characters) = c.utf8Size + byteLength characters :=
  rfl

@[simp] theorem byteLength_append (characters others : List Char) :
    byteLength (characters ++ others) = byteLength characters + byteLength others := by
  induction characters with
  | nil => simp
  | cons c characters ih => simp [ih, Nat.add_assoc]

@[simp] theorem byteLength_reverse (characters : List Char) :
    byteLength characters.reverse = byteLength characters := by
  induction characters with
  | nil => simp
  | cons c characters ih => simp [ih, Nat.add_comm]

/-- Characters that end every run may be scanned on their own. -/
theorem scan_append {rest : List Char} (delimited : IsDelimited rest) (position : Nat)
    (pending characters : List Char) :
    scan position pending (characters ++ rest) =
      scan position pending characters ++ scan (position + byteLength characters) [] rest := by
  induction characters generalizing position pending with
  | nil => exact scan_delimited delimited position pending
  | cons c characters ih =>
      have next : position + byteLength (c :: characters) =
          position + c.utf8Size + byteLength characters := by
        rw [byteLength_cons, Nat.add_assoc]
      rw [List.cons_append, scan, scan, next]
      split
      · rw [ih, List.append_assoc]
      · split
        · rw [ih, List.append_assoc, List.cons_append]
        · split
          · rw [ih, List.cons_append]
          · exact ih _ _

theorem scan_blanks {blanks : List Char} (blank : ∀ c ∈ blanks, isBlank c = true) (position : Nat)
    (rest : List Char) :
    scan position [] (blanks ++ rest) = scan (position + byteLength blanks) [] rest := by
  induction blanks generalizing position with
  | nil => rfl
  | cons c blanks ih =>
      obtain ⟨first, others⟩ := List.forall_mem_cons.mp blank
      rw [List.cons_append, scan, if_pos first, ih others, byteLength_cons, Nat.add_assoc]
      rfl

theorem ofRun_shift {stop : Nat} {pending : List Char} (inside : byteLength pending ≤ stop)
    (distance : Nat) :
    ofRun (stop + distance) pending.reverse =
      (ofRun stop pending.reverse).map (shift distance) := by
  unfold ofRun
  split
  · rfl
  · have start : stop + distance - byteLength pending = stop - byteLength pending + distance := by
      omega
    simp only [List.map_cons, List.map_nil, shift, byteLength_reverse, start]

/-- The run that is pending stands before the position, so it moves along with it. -/
theorem scan_shift {position : Nat} {pending : List Char} (inside : byteLength pending ≤ position)
    (distance : Nat) (characters : List Char) :
    scan (position + distance) pending characters =
      (scan position pending characters).map (shift distance) := by
  induction characters generalizing position pending with
  | nil => exact ofRun_shift inside distance
  | cons c characters ih =>
      have next : position + distance + c.utf8Size = position + c.utf8Size + distance := by omega
      have longer : byteLength (c :: pending) ≤ position + c.utf8Size := by
        rw [byteLength_cons]
        omega
      rw [scan, scan, next, ofRun_shift inside distance, ih (Nat.zero_le _), ih longer]
      split
      · rw [List.map_append]
      · split
        · rw [List.map_append]
          rfl
        · split
          · rfl
          · rfl

theorem scan_delimiter {c : Char} (delimiter : isBlank c = true ∨ (parenthesis? c).isSome = true)
    (position : Nat) (rest : List Char) :
    scan position [] (c :: rest) =
      scan position [] [c] ++ scan (position + c.utf8Size) [] rest := by
  rw [scan, scan]
  rcases delimiter with blank | parenthesis
  · simp [blank, scan, ofRun]
  · obtain ⟨kind, found⟩ := Option.isSome_iff_exists.mp parenthesis
    cases blank : isBlank c <;> simp [found, scan, ofRun]

/-- Nothing goes on with a run behind a character that ends every run. -/
theorem scan_append_of_closed {front : List Char} (closed : IsDelimited front.reverse)
    (position : Nat) (rest : List Char) :
    scan position [] (front ++ rest) =
      scan position [] front ++ scan (position + byteLength front) [] rest := by
  rcases List.eq_nil_or_concat front with rfl | ⟨inner, c, rfl⟩
  · rfl
  · rw [List.concat_eq_append] at closed ⊢
    have delimiter := closed c inner.reverse (by simp)
    rw [List.append_assoc, List.singleton_append, scan_append (isDelimited_cons delimiter rest),
      scan_delimiter delimiter, scan_append (isDelimited_cons delimiter []), byteLength_append,
      List.append_assoc, byteLength_cons, byteLength_nil, Nat.add_zero, Nat.add_assoc]

theorem readable_append {first : String} (noNul : '\x00' ∉ first.toList) (second : String) :
    readable (first ++ second) = first.toList ++ readable second := by
  have all : ∀ c ∈ first.toList, decide (c ≠ '\x00') = true := fun c member =>
    decide_eq_true fun same => noNul (same ▸ member)
  rw [readable, String.toList_append, List.takeWhile_append_of_pos all, readable]

theorem readable_eq_toList {source : String} (noNul : '\x00' ∉ source.toList) :
    readable source = source.toList := by
  have whole := readable_append noNul ""
  rwa [String.append_empty, show readable "" = [] from rfl, List.append_nil] at whole

theorem isDelimited_readable {source : String} (delimited : IsDelimited source.toList) :
    IsDelimited (readable source) := by
  intro c others same
  unfold readable at same
  cases characters : source.toList with
  | nil => simp [characters] at same
  | cons d rest =>
      rw [characters, List.takeWhile_cons] at same
      split at same
      · obtain ⟨rfl, -⟩ := List.cons.inj same
        exact delimited d rest characters
      · cases same

/-- No token reaches over a delimiter. -/
theorem ofSource_append_of_apart {first blanks second : String} (noNul : '\x00' ∉ first.toList)
    (blank : ∀ c ∈ blanks.toList, isBlank c = true)
    (apart : blanks ≠ "" ∨ IsDelimited first.toList.reverse ∨ IsDelimited second.toList) :
    ofSource (first ++ blanks ++ second) =
      ofSource first ++
        (ofSource second).map (shift (byteLength first.toList + byteLength blanks.toList)) := by
  have blanksRead : '\x00' ∉ blanks.toList := fun member => absurd (blank _ member) (by decide)
  have cut : IsDelimited first.toList.reverse ∨
      IsDelimited (blanks.toList ++ readable second) := by
    cases characters : blanks.toList with
    | nil =>
        rcases apart with nonempty | closed | delimited
        · cases nonempty (String.toList_eq_nil_iff.mp characters)
        · exact .inl closed
        · exact .inr (isDelimited_readable delimited)
    | cons c rest => exact .inr (isDelimited_cons (.inl (blank c (by simp [characters]))) _)
  have scanned : scan 0 [] (first.toList ++ (blanks.toList ++ readable second)) =
      scan 0 [] first.toList ++
        scan (0 + byteLength first.toList) [] (blanks.toList ++ readable second) := by
    rcases cut with closed | delimited
    · exact scan_append_of_closed closed 0 _
    · exact scan_append delimited 0 [] _
  rw [ofSource, String.append_assoc, readable_append noNul, readable_append blanksRead, scanned,
    scan_blanks blank, ofSource, readable_eq_toList noNul, ofSource, ← scan_shift (Nat.zero_le 0)]
  simp only [Nat.zero_add]

/-- No token reaches over a blank. -/
theorem ofSource_append {first blanks second : String} (noNul : '\x00' ∉ first.toList)
    (nonempty : blanks ≠ "") (blank : ∀ c ∈ blanks.toList, isBlank c = true) :
    ofSource (first ++ blanks ++ second) =
      ofSource first ++
        (ofSource second).map (shift (byteLength first.toList + byteLength blanks.toList)) :=
  ofSource_append_of_apart noNul blank (.inl nonempty)

theorem symbolTexts_map_shift (distance : Nat) (tokens : List Token) :
    symbolTexts (tokens.map (shift distance)) = symbolTexts tokens := by
  simp only [symbolTexts, List.filter_map, List.map_map]
  rfl

end Token

/-! ## Reading -/

namespace Pushdown

/-- The state with forms that were read before all others. -/
def following (older : List Tree) (state : Pushdown) : Pushdown :=
  { state with forms := state.forms ++ older }

end Pushdown

end TaggedLisp
