import TaggedLisp.Dump.Value
import TaggedLisp.Proofs.Text.OneLine
import Mathlib.Data.List.DropRight

/-! The lines of a dump can be read back from its text. A line feed only ever ends a line, since symbols
are written with escapes; the blanks in front tell the level; and the name of a field fills up its
column, so what stands behind that is the content. -/

set_option autoImplicit false

namespace TaggedLisp

open Text

/-! ## Texts that are one line -/

theorem Text.isOneLine_hex (n : Nat) : IsOneLine (hex n) := by
  have digit : ∀ digit < 16, '\n' ∉ [digit.digitChar] := by decide
  rw [IsOneLine, hex, String.toList_ofList]
  induction n using Nat.strongRecOn with
  | ind n ih =>
      rw [Nat.toDigits_eq_if (by decide)]
      split
      · next small => exact digit n small
      · next large =>
        rw [List.mem_append, not_or]
        exact ⟨ih (n / 16) (by omega), digit (n % 16) (Nat.mod_lt _ (by decide))⟩

theorem Text.isOneLine_hexPadded (width n : Nat) : IsOneLine (hexPadded width n) := by
  have digits : '\n' ∉ (hex n).toList := isOneLine_hex n
  rw [hex, String.toList_ofList] at digits
  simp [IsOneLine, hexPadded, List.leftpad, digits]

theorem Word.isOneLine_bitGroups (word : Word) : IsOneLine word.bitGroups := by
  unfold bitGroups
  refine isOneLine_intercalate (by decide) fun group member => ?_
  obtain ⟨byte, -, rfl⟩ := List.mem_map.mp member
  intro feed
  rw [String.toList_ofList] at feed
  obtain ⟨bit, -, same⟩ := List.mem_map.mp feed
  split at same <;> cases same

theorem Text.isOneLine_quotedChar (c : Char) : IsOneLine (quotedChar c) := by
  unfold quotedChar
  split
  any_goals decide
  next notFeed =>
    split
    · simp only [isOneLine_append]
      exact ⟨⟨by decide, isOneLine_hex c.toNat⟩, by decide⟩
    · simpa [IsOneLine] using Ne.symm notFeed

theorem Text.isOneLine_quoted (text : String) : IsOneLine (quoted text) := by
  unfold quoted
  simp only [isOneLine_append]
  refine ⟨⟨by decide, isOneLine_join fun item member => ?_⟩, by decide⟩
  obtain ⟨c, -, rfl⟩ := List.mem_map.mp member
  exact isOneLine_quotedChar c

namespace DumpLine

/-- The level that the front of a line tells, and what stands behind it. A line of level zero has no
blanks in front; others have blanks and a mark, which together fill eight columns for each level. -/
def indented? (line : List Char) : Option (Nat × List Char) :=
  match (line.takeWhile (· = ' ')).length, line.dropWhile (· = ' ') with
  | 0, rest => some (0, rest)
  | width, '>' :: ' ' :: rest => if (width + 2) % 8 = 0 then some ((width + 2) / 8, rest) else none
  | _, _ => none

/-- Reads a line without its line feed. -/
def ofLine? (line : List Char) : Option DumpLine := do
  let (level, rest) ← indented? line
  match rest.drop 16 with
  | ' ' :: content =>
    return ⟨level, String.ofList ((rest.take 16).rdropWhile (· = ' ')), String.ofList content⟩
  | _ => none

/-- Reads a text every line of which ends in a line feed. -/
def ofText? (text : String) : Option (List DumpLine) :=
  let lines := text.toList.splitOn '\n'
  if lines.getLast? = some [] then lines.dropLast.mapM ofLine? else none

/-- A name that can be told from the blanks around it. -/
def isField (field : String) : Bool :=
  field.length ≤ 16 && field.toList.head?.any (· ≠ ' ') && field.toList.getLast?.any (· ≠ ' ') &&
    IsOneLine field

structure Readable (line : DumpLine) : Prop where
  field : isField line.field = true
  content : IsOneLine line.content

/-- A line without its line feed. -/
def body (line : DumpLine) : List Char :=
  (indentation line.level).toList ++ (line.field.toList.rightpad 16 ' ' ++ ' ' :: line.content.toList)

theorem toList_render (line : DumpLine) : line.render.toList = line.body ++ ['\n'] := by
  simp [render, body, alignLeft]

theorem toList_indentation_of_pos {level : Nat} (positive : 0 < level) :
    (indentation level).toList = List.replicate (8 * level - 2) ' ' ++ ['>', ' '] := by
  simp [indentation, Nat.ne_of_gt positive]

/-- At every level but zero there is room for the mark. -/
theorem length_indentation (level : Nat) : (indentation level).length = 8 * level := by
  rcases Nat.eq_zero_or_pos level with rfl | positive
  · rfl
  · rw [← String.length_toList, toList_indentation_of_pos positive]
    simp only [List.length_append, List.length_replicate, List.length_cons, List.length_nil]
    omega

theorem indented?_indentation {rest : List Char} (visible : rest.head?.any (· ≠ ' ') = true)
    (level : Nat) : indented? ((indentation level).toList ++ rest) = some (level, rest) := by
  rcases Nat.eq_zero_or_pos level with rfl | positive
  · obtain ⟨first, others, rfl⟩ : ∃ first others, rest = first :: others := by
      cases rest with
      | nil => cases visible
      | cons first others => exact ⟨first, others, rfl⟩
    have notBlank : first ≠ ' ' := by simpa using visible
    simp [indentation, indented?, notBlank]
  · have blanks : ((List.replicate (8 * level - 2) ' ' ++ '>' :: ' ' :: rest).takeWhile
        (· = ' ')).length = 8 * level - 2 := by
      simp
    have marked : (List.replicate (8 * level - 2) ' ' ++ '>' :: ' ' :: rest).dropWhile
        (· = ' ') = '>' :: ' ' :: rest := by
      simp
    obtain ⟨width, wide⟩ : ∃ width, 8 * level - 2 = width + 1 := ⟨8 * level - 3, by omega⟩
    rw [toList_indentation_of_pos positive, List.append_assoc, List.cons_append,
      List.singleton_append, indented?, blanks, marked, wide]
    simp only
    rw [if_pos (by omega), show (width + 1 + 2) / 8 = level by omega]

theorem isOneLine_indentation (level : Nat) : IsOneLine (indentation level) := by
  rcases Nat.eq_zero_or_pos level with rfl | positive
  · decide
  · simp [IsOneLine, toList_indentation_of_pos positive]

theorem rdropWhile_rightpad {name : List Char} (visible : name.getLast?.any (· ≠ ' ') = true)
    (width : Nat) : (name.rightpad width ' ').rdropWhile (· = ' ') = name := by
  have padding : ∀ c ∈ (List.replicate (width - name.length) ' ').reverse, decide (c = ' ') = true := by
    simp
  rw [List.rightpad, List.rdropWhile, List.reverse_append, List.dropWhile_append_of_pos padding]
  rw [← List.head?_reverse] at visible
  cases backwards : name.reverse with
  | nil => rw [List.reverse_eq_nil_iff.mp backwards]; rfl
  | cons last others =>
      rw [backwards] at visible
      have notBlank : last ≠ ' ' := by simpa using visible
      rw [List.dropWhile_cons_of_neg (by simpa using notBlank), ← backwards, List.reverse_reverse]

theorem ofLine?_body {line : DumpLine} (readable : line.Readable) :
    ofLine? line.body = some line := by
  obtain ⟨level, field, content⟩ := line
  have isField := readable.field
  simp only [DumpLine.isField, Bool.and_eq_true, decide_eq_true_eq] at isField
  obtain ⟨⟨⟨short, startsVisibly⟩, endsVisibly⟩, -⟩ := isField
  rw [← String.length_toList] at short
  have width : (field.toList.rightpad 16 ' ').length = 16 := by
    rw [List.length_rightpad, Nat.max_eq_left short]
  have visible : (field.toList.rightpad 16 ' ' ++ ' ' :: content.toList).head?.any (· ≠ ' ') =
      true := by
    cases name : field.toList with
    | nil =>
        rw [name] at startsVisibly
        cases startsVisibly
    | cons first others =>
        rw [name] at startsVisibly
        simpa [List.rightpad] using startsVisibly
  rw [ofLine?, body, indented?_indentation visible]
  simp only [bind, Option.bind]
  rw [List.drop_left' width, List.take_left' width, rdropWhile_rightpad endsVisibly]
  simp only [String.ofList_toList]
  rfl

theorem newline_not_mem_body {line : DumpLine} (readable : line.Readable) : '\n' ∉ line.body := by
  have isField := readable.field
  simp only [DumpLine.isField, Bool.and_eq_true, decide_eq_true_eq] at isField
  have indentation : '\n' ∉ (indentation line.level).toList := isOneLine_indentation line.level
  have field : '\n' ∉ line.field.toList := isField.2
  have content : '\n' ∉ line.content.toList := readable.content
  simp [body, List.rightpad, indentation, field, content]

theorem splitOn_bodies {lines : List DumpLine} (readable : ∀ line ∈ lines, line.Readable) :
    (lines.flatMap (·.body ++ ['\n'])).splitOn '\n' = lines.map body ++ [[]] := by
  induction lines with
  | nil => rfl
  | cons line lines ih =>
      obtain ⟨first, others⟩ := List.forall_mem_cons.mp readable
      have unbroken : ∀ c ∈ line.body, (c == '\n') = false := by
        intro c member
        exact beq_eq_false_iff_ne.mpr fun same => newline_not_mem_body first (same ▸ member)
      have rest := ih others
      rw [List.splitOn_eq_splitOnP] at rest ⊢
      rw [List.flatMap_cons, List.append_assoc, List.singleton_append,
        List.splitOnP_append_cons_of_forall_mem unbroken _ (beq_self_eq_true _), rest]
      rfl

theorem mapM_ofLine?_bodies {lines : List DumpLine} (readable : ∀ line ∈ lines, line.Readable) :
    (lines.map body).mapM ofLine? = some lines := by
  induction lines with
  | nil => rfl
  | cons line lines ih =>
      obtain ⟨first, others⟩ := List.forall_mem_cons.mp readable
      simp [ofLine?_body first, ih others]

theorem ofText?_render {lines : List DumpLine} (readable : ∀ line ∈ lines, line.Readable) :
    ofText? (String.join (lines.map render)) = some lines := by
  have text : (String.join (lines.map render)).toList = lines.flatMap (·.body ++ ['\n']) := by
    simp [String.toList_join, List.flatMap_map, toList_render]
  simp [ofText?, text, splitOn_bodies readable, mapM_ofLine?_bodies readable]

end DumpLine

end TaggedLisp
