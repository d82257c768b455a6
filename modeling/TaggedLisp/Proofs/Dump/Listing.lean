import TaggedLisp.Proofs.Dump.Lines
import TaggedLisp.Proofs.Dump.Numerals

/-! What the lines of a dump say. A block of lines shows a word, and the blocks of the parts follow one
level deeper. So the words come in preorder, every count of a list can be checked against the blocks
behind it, and the levels alone tell which block belongs to which. -/

set_option autoImplicit false

namespace TaggedLisp

/-- A word, and the outlines of the parts of what it stands for. -/
inductive Outline where
  | node (word : Word) (parts : List Outline)

/-! ## Preorder -/

namespace Outline

mutual

/-- The words of an outline, each before those of its parts, and how deep they lie. -/
def preorder (level : Nat) : Outline → List (Nat × Word)
  | .node word parts => (level, word) :: preorderEach (level + 1) parts

def preorderEach (level : Nat) : List Outline → List (Nat × Word)
  | [] => []
  | part :: parts => part.preorder level ++ preorderEach level parts

end

mutual

/-- The numbers of parts in the same order, where there are any. -/
def partCounts (level : Nat) : Outline → List (Nat × Nat)
  | .node _ parts =>
    (if parts.isEmpty then [] else [(level, parts.length)]) ++ partCountsEach (level + 1) parts

def partCountsEach (level : Nat) : List Outline → List (Nat × Nat)
  | [] => []
  | part :: parts => part.partCounts level ++ partCountsEach level parts

end

/-- The list starts no deeper than at the level, if it starts at all. -/
def StartsBy (level : Nat) (listing : List (Nat × Word)) : Prop :=
  ∀ entry ∈ listing.head?, entry.1 ≤ level

theorem startsBy_nil (level : Nat) : StartsBy level [] := by
  simp [StartsBy]

theorem startsBy_cons {level other : Nat} {word : Word} {listing : List (Nat × Word)} :
    StartsBy level ((other, word) :: listing) ↔ other ≤ level := by
  simp [StartsBy]

theorem StartsBy.mono {level other : Nat} {listing : List (Nat × Word)}
    (starts : StartsBy level listing) (le : level ≤ other) : StartsBy other listing :=
  fun entry member => Nat.le_trans (starts entry member) le

theorem StartsBy.preorderEach_append {level : Nat} {listing : List (Nat × Word)}
    (starts : StartsBy level listing) (parts : List Outline) :
    StartsBy level (preorderEach level parts ++ listing) := by
  cases parts with
  | nil => simpa [preorderEach] using starts
  | cons part parts =>
      cases part
      simp only [preorderEach, preorder, List.cons_append]
      exact startsBy_cons.mpr (Nat.le_refl level)

theorem StartsBy.takeWhile_eq_nil {level : Nat} {listing : List (Nat × Word)}
    (starts : StartsBy level listing) : listing.takeWhile (level < ·.1) = [] := by
  cases listing with
  | nil => rfl
  | cons entry listing =>
      have le := starts entry rfl
      rw [List.takeWhile_cons_of_neg (by simpa using le)]

mutual

/-- Where an outline ends in a listing can be told from the levels: behind it the listing goes on no
deeper than it began. -/
theorem eq_of_preorder_append {level : Nat} {listing listing' : List (Nat × Word)}
    (outline other : Outline) (starts : StartsBy level listing) (starts' : StartsBy level listing')
    (same : outline.preorder level ++ listing = other.preorder level ++ listing') :
    outline = other ∧ listing = listing' := by
  cases outline with
  | node word parts =>
      cases other with
      | node otherWord others =>
          simp only [preorder, List.cons_append, List.cons.injEq, Prod.mk.injEq, true_and] at same
          obtain ⟨rfl, same⟩ := same
          obtain ⟨rfl, rest⟩ := eq_of_preorderEach_append parts others starts starts' same
          exact ⟨rfl, rest⟩

theorem eq_of_preorderEach_append {level : Nat} {listing listing' : List (Nat × Word)}
    (parts others : List Outline) (starts : StartsBy level listing)
    (starts' : StartsBy level listing')
    (same : preorderEach (level + 1) parts ++ listing = preorderEach (level + 1) others ++ listing') :
    parts = others ∧ listing = listing' := by
  cases parts with
  | nil =>
      cases others with
      | nil => exact ⟨rfl, same⟩
      | cons other others =>
          cases other
          simp only [preorderEach, preorder, List.nil_append, List.cons_append] at same
          exact absurd (startsBy_cons.mp (same ▸ starts)) (by omega)
  | cons part parts =>
      cases others with
      | nil =>
          cases part
          simp only [preorderEach, preorder, List.nil_append, List.cons_append] at same
          exact absurd (startsBy_cons.mp (same ▸ starts')) (by omega)
      | cons other others =>
          simp only [preorderEach, List.append_assoc] at same
          have deeper := starts.mono (Nat.le_succ level)
          have deeper' := starts'.mono (Nat.le_succ level)
          obtain ⟨rfl, sameRest⟩ := eq_of_preorder_append part other
            (deeper.preorderEach_append parts) (deeper'.preorderEach_append others) same
          obtain ⟨rfl, rest⟩ := eq_of_preorderEach_append parts others starts starts' sameRest
          exact ⟨rfl, rest⟩

end

theorem preorder_injective (level : Nat) : Function.Injective (preorder level) := by
  intro outline other same
  have nothing := startsBy_nil level
  exact (eq_of_preorder_append outline other nothing nothing (by simpa using same)).1

mutual

theorem level_le_of_mem_preorder {level : Nat} {entry : Nat × Word} (outline : Outline)
    (member : entry ∈ outline.preorder level) : level ≤ entry.1 := by
  cases outline with
  | node word parts =>
      rw [preorder] at member
      rcases List.mem_cons.mp member with rfl | below
      · exact Nat.le_refl level
      · exact Nat.le_of_succ_le (level_le_of_mem_preorderEach parts below)

theorem level_le_of_mem_preorderEach {level : Nat} {entry : Nat × Word} (parts : List Outline)
    (member : entry ∈ preorderEach level parts) : level ≤ entry.1 := by
  cases parts with
  | nil => simp [preorderEach] at member
  | cons part parts =>
      rw [preorderEach] at member
      rcases List.mem_append.mp member with first | later
      · exact level_le_of_mem_preorder part first
      · exact level_le_of_mem_preorderEach parts later

end

theorem countP_preorder (level : Nat) (outline : Outline) :
    (outline.preorder level).countP (·.1 = level) = 1 := by
  cases outline with
  | node word parts =>
      have below : (preorderEach (level + 1) parts).countP (·.1 = level) = 0 := by
        rw [List.countP_eq_zero]
        intro entry member
        have := level_le_of_mem_preorderEach parts member
        simp only [decide_eq_true_eq]
        omega
      rw [preorder, List.countP_cons_of_pos (by simp), below]

theorem countP_preorderEach (level : Nat) (parts : List Outline) :
    (preorderEach level parts).countP (·.1 = level) = parts.length := by
  induction parts with
  | nil => simp [preorderEach]
  | cons part parts ih =>
      rw [preorderEach, List.countP_append, countP_preorder, ih, List.length_cons, Nat.add_comm]

end Outline

/-! ## What single lines say -/

namespace DumpLine

/-- What the line says, and at which level, if it is of the field. -/
def reading? {α : Type} (field : String) (read : String → Option α) (line : DumpLine) :
    Option (Nat × α) :=
  if line.field = field then (read line.content).map (line.level, ·) else none

def words (lines : List DumpLine) : List (Nat × Word) :=
  lines.filterMap (reading? "decimal" Word.ofDecimal?)

def counts (lines : List DumpLine) : List (Nat × Nat) :=
  lines.filterMap (reading? "list count" fun content => Text.decimal? content.toList)

/-- The number of blocks one level below the given one, up to the first block that is not below it. -/
def blocksBelow (level : Nat) (lines : List DumpLine) : Nat :=
  ((words lines).takeWhile (level < ·.1)).countP (·.1 = level + 1)

/-- What is said behind a line bears it out. The word of a decimal line is said twice more, and the count
of a list is the number of blocks that belong to it. -/
structure AgreesWith (line : DumpLine) (after : List DumpLine) : Prop where
  word : line.field = "decimal" →
    ∃ word hexadecimal bits others,
      after = ⟨line.level, "hexadecimal", hexadecimal⟩ :: ⟨line.level, "bits", bits⟩ :: others ∧
        Word.ofDecimal? line.content = some word ∧ Word.ofHexadecimal? hexadecimal = some word ∧
        Word.ofBits? bits = some word
  count : line.field = "list count" →
    Text.decimal? line.content.toList = some (blocksBelow line.level after)

/-- Every line agrees with the lines after it. -/
def Agree (lines : List DumpLine) : Prop :=
  ∀ line after, line :: after <:+ lines → line.AgreesWith after

/-- A line that says neither a word nor a count. -/
structure IsDetail (level : Nat) (line : DumpLine) : Prop where
  level : line.level = level
  readable : line.Readable
  notWord : line.field ≠ "decimal"
  notCount : line.field ≠ "list count"

theorem isDetail_of {level : Nat} {field content : String}
    (name : isField field = true ∧ field ≠ "decimal" ∧ field ≠ "list count")
    (oneLine : Text.IsOneLine content) : IsDetail level ⟨level, field, content⟩ :=
  ⟨rfl, ⟨name.1, oneLine⟩, name.2.1, name.2.2⟩

theorem isDetail_separator (level : Nat) : IsDetail level ⟨level, "--------", ""⟩ :=
  isDetail_of (by decide) (by decide)

theorem isDetail_values (level : Nat) : IsDetail level ⟨level, "list values", ""⟩ :=
  isDetail_of (by decide) (by decide)

theorem agree_nil : Agree [] := by
  intro line after suffix
  cases List.suffix_nil.mp suffix

theorem agree_cons {line : DumpLine} {after : List DumpLine} :
    Agree (line :: after) ↔ line.AgreesWith after ∧ Agree after := by
  constructor
  · intro agree
    exact ⟨agree line after (List.suffix_refl _),
      fun other rest suffix => agree other rest (List.suffix_cons_iff.mpr (.inr suffix))⟩
  · rintro ⟨first, others⟩ other rest suffix
    rcases List.suffix_cons_iff.mp suffix with same | later
    · cases same
      exact first
    · exact others other rest later

section Details

variable {level : Nat} {line : DumpLine} {details others : List DumpLine}

theorem words_append (lines others : List DumpLine) :
    words (lines ++ others) = words lines ++ words others :=
  List.filterMap_append

theorem counts_append (lines others : List DumpLine) :
    counts (lines ++ others) = counts lines ++ counts others :=
  List.filterMap_append

theorem IsDetail.words_cons (detail : line.IsDetail level) (lines : List DumpLine) :
    words (line :: lines) = words lines :=
  List.filterMap_cons_none (if_neg detail.notWord)

theorem IsDetail.counts_cons (detail : line.IsDetail level) (lines : List DumpLine) :
    counts (line :: lines) = counts lines :=
  List.filterMap_cons_none (if_neg detail.notCount)

theorem readable_details (each : ∀ line ∈ details, line.IsDetail level) :
    ∀ line ∈ details, line.Readable :=
  fun line member => (each line member).readable

theorem level_lt_details {bound : Nat} (within : level < bound)
    (each : ∀ line ∈ details, line.IsDetail level) : ∀ line ∈ details, line.level < bound :=
  fun line member => (each line member).level ▸ within

theorem words_details (each : ∀ line ∈ details, line.IsDetail level) : words details = [] :=
  List.filterMap_eq_nil_iff.mpr fun line member => if_neg (each line member).notWord

theorem counts_details (each : ∀ line ∈ details, line.IsDetail level) : counts details = [] :=
  List.filterMap_eq_nil_iff.mpr fun line member => if_neg (each line member).notCount

theorem words_cons_count (level number : Nat) (lines : List DumpLine) :
    words (⟨level, "list count", toString number⟩ :: lines) = words lines := by
  have notWord : "list count" ≠ "decimal" := by decide
  exact List.filterMap_cons_none (if_neg notWord)

theorem counts_cons_count (level number : Nat) (lines : List DumpLine) :
    counts (⟨level, "list count", toString number⟩ :: lines) = (level, number) :: counts lines := by
  refine List.filterMap_cons_some ?_
  rw [reading?, if_pos rfl, Text.decimal?_toString, Option.map_some]

theorem IsDetail.agreesWith (detail : line.IsDetail level) (after : List DumpLine) :
    line.AgreesWith after :=
  ⟨fun same => absurd same detail.notWord, fun same => absurd same detail.notCount⟩

theorem Agree.details_append (agree : Agree others) (each : ∀ line ∈ details, line.IsDetail level) :
    Agree (details ++ others) := by
  induction details with
  | nil => exact agree
  | cons line details ih =>
      obtain ⟨first, rest⟩ := List.forall_mem_cons.mp each
      exact agree_cons.mpr ⟨first.agreesWith _, ih rest⟩

end Details

end DumpLine

open DumpLine

/-! ## Blocks -/

namespace Word

/-- The lines that every block begins with. -/
def heading (level : Nat) (word : Word) : List DumpLine :=
  [⟨level, "decimal", toString word.toNat⟩,
    ⟨level, "hexadecimal", "0x" ++ Text.hexPadded 16 word.toNat⟩, ⟨level, "bits", word.bitGroups⟩]

/-- The tags of a word and the index in it are shown as well. -/
theorem exists_dump_eq (level : Nat) (word : Word) :
    ∃ details, word.dump level = word.heading level ++ details ∧
      ∀ line ∈ details, line.IsDetail level := by
  refine ⟨⟨level, "storage", s!"{word.storage.name} ({word.storage.code})"⟩ :: (_ ++ _), rfl, ?_⟩
  refine List.forall_mem_cons.mpr ⟨?_, List.forall_mem_append.mpr ⟨?_, ?_⟩⟩
  · cases word.storage <;> exact isDetail_of (by decide) (by decide)
  · cases word.immediateKind? with
    | none => simp
    | some kind =>
        refine List.forall_mem_singleton.mpr ?_
        cases kind <;> exact isDetail_of (by decide) (by decide)
  · cases word.boxedKind? with
    | none => simp
    | some kind =>
        refine List.forall_mem_cons.mpr ⟨?_, List.forall_mem_singleton.mpr ?_⟩
        · cases kind <;> exact isDetail_of (by decide) (by decide)
        · exact isDetail_of (by decide) (Text.isOneLine_toString _)

/-- Behind its first line a heading looks like details. -/
theorem exists_heading_eq (level : Nat) (word : Word) :
    ∃ details, word.heading level = ⟨level, "decimal", toString word.toNat⟩ :: details ∧
      ∀ line ∈ details, line.IsDetail level := by
  refine ⟨_, rfl, List.forall_mem_cons.mpr ⟨isDetail_of (by decide) ?_, ?_⟩⟩
  · exact Text.isOneLine_append.mpr ⟨by decide, Text.isOneLine_hexPadded 16 _⟩
  · exact List.forall_mem_singleton.mpr (isDetail_of (by decide) word.isOneLine_bitGroups)

theorem readable_heading (level : Nat) (word : Word) :
    ∀ line ∈ word.heading level, line.Readable := by
  obtain ⟨details, shape, each⟩ := word.exists_heading_eq level
  have name : isField "decimal" = true := by decide
  rw [shape]
  exact List.forall_mem_cons.mpr
    ⟨⟨name, Text.isOneLine_toString _⟩, readable_details each⟩

theorem words_heading (level : Nat) (word : Word) : words (word.heading level) = [(level, word)] := by
  have first : reading? "decimal" ofDecimal? ⟨level, "decimal", toString word.toNat⟩ =
      some (level, word) := by
    rw [reading?, if_pos rfl, ofDecimal?_toString, Option.map_some]
  rw [words, heading, List.filterMap_cons_some first]
  rfl

theorem counts_heading (level : Nat) (word : Word) : counts (word.heading level) = [] :=
  rfl

theorem level_lt_heading {level bound : Nat} {word : Word} (within : level < bound) :
    ∀ line ∈ word.heading level, line.level < bound := by
  obtain ⟨details, shape, each⟩ := word.exists_heading_eq level
  rw [shape]
  exact List.forall_mem_cons.mpr ⟨within, level_lt_details within each⟩

theorem agree_heading_append (level : Nat) (word : Word) {others : List DumpLine}
    (agree : Agree others) : Agree (word.heading level ++ others) := by
  obtain ⟨details, shape, each⟩ := word.exists_heading_eq level
  have notCount : "decimal" ≠ "list count" := by decide
  have first : AgreesWith ⟨level, "decimal", toString word.toNat⟩ (details ++ others) := by
    refine ⟨fun _ => ?_, fun same => absurd same notCount⟩
    cases shape
    exact ⟨word, _, _, others, rfl, word.ofDecimal?_toString, word.ofHexadecimal?_hexPadded,
      word.ofBits?_bitGroups⟩
  rw [shape, List.cons_append]
  exact agree_cons.mpr ⟨first, agree.details_append each⟩

end Word

/-! ## Listings -/

namespace Outline

/-- The count of a list agrees with the blocks of its elements, if nothing deeper follows them. -/
theorem agreesWith_count {level : Nat} {parts : List Outline} {after : List DumpLine}
    {listing : List (Nat × Word)} (shown : words after = preorderEach (level + 1) parts ++ listing)
    (starts : StartsBy level listing) :
    AgreesWith ⟨level, "list count", toString parts.length⟩ after := by
  have notWord : "list count" ≠ "decimal" := by decide
  refine ⟨fun same => absurd same notWord, fun _ => ?_⟩
  have deeper : ∀ entry ∈ preorderEach (level + 1) parts, decide (level < entry.1) = true :=
    fun entry member => decide_eq_true (level_le_of_mem_preorderEach parts member)
  rw [blocksBelow, shown, List.takeWhile_append_of_pos deeper, starts.takeWhile_eq_nil,
    List.append_nil, countP_preorderEach, Text.decimal?_toString]

/-- The lines say just these words and these counts, and what they say agrees, whatever follows that does
not go on deeper than the level. No line lies as deep as the bound. -/
structure Lists (level bound : Nat) (listing : List (Nat × Word)) (partCounts : List (Nat × Nat))
    (lines : List DumpLine) : Prop where
  words : words lines = listing
  counts : counts lines = partCounts
  readable : ∀ line ∈ lines, line.Readable
  level_lt : ∀ line ∈ lines, line.level < bound
  agree : ∀ others, Agree others → StartsBy level (DumpLine.words others) → Agree (lines ++ others)

variable {level bound : Nat} {word : Word} {part : Outline} {parts : List Outline}
  {details lines others : List DumpLine}

theorem lists_leaf (within : level < bound) (each : ∀ line ∈ details, line.IsDetail level) :
    Lists level bound ((node word []).preorder level) ((node word []).partCounts level)
      (word.heading level ++ details) where
  words := by
    rw [words_append, word.words_heading, words_details each]
    simp [preorder, preorderEach]
  counts := by
    rw [counts_append, word.counts_heading, counts_details each]
    simp [partCounts, partCountsEach]
  readable := List.forall_mem_append.mpr
    ⟨word.readable_heading level, readable_details each⟩
  level_lt := List.forall_mem_append.mpr
    ⟨Word.level_lt_heading within, level_lt_details within each⟩
  agree others agree _ := by
    rw [List.append_assoc]
    exact word.agree_heading_append level (agree.details_append each)

/-- The block of a list, in front of the blocks of its elements. -/
theorem Lists.list (within : level < bound) (each : ∀ line ∈ details, line.IsDetail level)
    (below : Lists (level + 1) bound (preorderEach (level + 1) (part :: parts))
      (partCountsEach (level + 1) (part :: parts)) lines) :
    Lists level bound ((node word (part :: parts)).preorder level)
      ((node word (part :: parts)).partCounts level)
      (word.heading level ++ (details ++ ⟨level, "list count", toString (part :: parts).length⟩ ::
        ⟨level, "list values", ""⟩ :: lines)) where
  words := by
    rw [words_append, word.words_heading, words_append, words_details each, words_cons_count,
      (isDetail_values level).words_cons, below.words, preorder]
    rfl
  counts := by
    rw [counts_append, word.counts_heading, counts_append, counts_details each, counts_cons_count,
      (isDetail_values level).counts_cons, below.counts, partCounts]
    rfl
  readable := by
    have count : isField "list count" = true := by decide
    refine List.forall_mem_append.mpr ⟨word.readable_heading level, List.forall_mem_append.mpr
      ⟨readable_details each, List.forall_mem_cons.mpr ⟨?_, ?_⟩⟩⟩
    · exact ⟨count, Text.isOneLine_toString _⟩
    · exact List.forall_mem_cons.mpr ⟨(isDetail_values level).readable, below.readable⟩
  level_lt := List.forall_mem_append.mpr ⟨Word.level_lt_heading within, List.forall_mem_append.mpr
    ⟨level_lt_details within each, List.forall_mem_cons.mpr
      ⟨within, List.forall_mem_cons.mpr ⟨within, below.level_lt⟩⟩⟩⟩
  agree others agree starts := by
    have shown : DumpLine.words (⟨level, "list values", ""⟩ :: (lines ++ others)) =
        preorderEach (level + 1) (part :: parts) ++ DumpLine.words others := by
      rw [(isDetail_values level).words_cons, words_append, below.words]
    have counted := agree_cons.mpr ⟨agreesWith_count shown starts, agree_cons.mpr
      ⟨(isDetail_values level).agreesWith _, below.agree others agree (starts.mono (Nat.le_succ level))⟩⟩
    rw [List.append_assoc, List.append_assoc]
    exact word.agree_heading_append level (Agree.details_append counted each)

theorem lists_nil : Lists level bound (preorderEach level []) (partCountsEach level []) [] where
  words := by rw [preorderEach]; rfl
  counts := by rw [partCountsEach]; rfl
  readable := by simp
  level_lt := by simp
  agree _ agree _ := agree

theorem Lists.cons (within : level < bound)
    (first : Lists level bound (part.preorder level) (part.partCounts level) lines)
    (rest : Lists level bound (preorderEach level parts) (partCountsEach level parts) others) :
    Lists level bound (preorderEach level (part :: parts)) (partCountsEach level (part :: parts))
      (⟨level, "--------", ""⟩ :: lines ++ others) where
  words := by
    rw [words_append, (isDetail_separator level).words_cons, first.words, rest.words, preorderEach]
  counts := by
    rw [counts_append, (isDetail_separator level).counts_cons, first.counts, rest.counts,
      partCountsEach]
  readable := List.forall_mem_append.mpr
    ⟨List.forall_mem_cons.mpr ⟨(isDetail_separator level).readable, first.readable⟩, rest.readable⟩
  level_lt := List.forall_mem_append.mpr
    ⟨List.forall_mem_cons.mpr ⟨within, first.level_lt⟩, rest.level_lt⟩
  agree after agree starts := by
    have later : StartsBy level (DumpLine.words (others ++ after)) := by
      rw [words_append, rest.words]
      exact starts.preorderEach_append parts
    rw [List.append_assoc]
    exact agree_cons.mpr ⟨(isDetail_separator level).agreesWith _,
      first.agree _ (rest.agree after agree starts) later⟩

end Outline

end TaggedLisp
