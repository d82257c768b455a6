import TaggedLisp.Json.Text
import TaggedLisp.Proofs.Json.Grammar
import Mathlib.Data.List.Forall2

/-! Texts that are written as JSON spell what they stand for, so reading gets it back: numbers digit by
digit and strings character by character, whatever characters they have. -/

set_option autoImplicit false

namespace TaggedLisp

theorem Text.decimal?_toDigits (n : Nat) : decimal? (Nat.toDigits 10 n) = some n := by
  have digits : (Nat.toDigits 10 n).all Char.isDigit = true :=
    List.all_eq_true.mpr fun _ => Nat.isDigit_of_mem_toDigits (by decide) (by decide)
  have value : Nat.ofDigitChars 10 (Nat.toDigits 10 n) 0 = n := Nat.ofDigitChars_ten_toDigits
  simpa [decimal?, Nat.toDigits_ne_nil, digits, Nat.ofDigitChars] using value

namespace Json

/-! ## Numbers and words -/

theorem head?_toDigits {n : Nat} (positive : 0 < n) : (Nat.toDigits 10 n).head? ≠ some '0' := by
  induction n using Nat.strongRecOn with
  | ind n ih =>
      rw [Nat.toDigits_eq_if (by decide)]
      split
      · next small =>
        have first : ∀ digit < 10, 0 < digit → [digit.digitChar].head? ≠ some '0' := by decide
        exact first n small positive
      · next large =>
        have rest := ih (n / 10) (by omega) (by omega)
        have notEmpty : Nat.toDigits 10 (n / 10) ≠ [] := Nat.toDigits_ne_nil
        obtain ⟨first, others, same⟩ := List.exists_cons_of_ne_nil notEmpty
        rw [same] at rest ⊢
        exact rest

theorem isNumber_toDigits (n : Nat) : IsNumber (Nat.toDigits 10 n) := by
  have whole : IsWhole (Nat.toDigits 10 n) := by
    rcases Nat.eq_zero_or_pos n with rfl | positive
    · exact .zero
    · exact .run ⟨Nat.toDigits_ne_nil, fun _ => Nat.isDigit_of_mem_toDigits (by decide) (by decide)⟩
        (head?_toDigits positive)
  simpa using IsNumber.positive whole .absent .absent

theorem spells_natural (n : Nat) :
    Spells (.node (.number (Nat.toDigits 10 n))) (natural n).toList := by
  have number := Spells.number (isNumber_toDigits n)
  rwa [natural, Nat.toString_eq_ofList_toDigits, String.toList_ofList]

theorem spells_null : Spells (.node .null) "null".toList :=
  Spells.null

theorem spells_bool (value : Bool) : Spells (.node (.bool value)) (bool value).toList := by
  cases value with
  | true => exact Spells.true
  | false => exact Spells.false

/-! ## Strings -/

theorem decode_code {number : Nat} (small : number < 0xd800) (units : List StringUnit) :
    decode (.code number :: units) = (decode units).map (.ofNat number :: ·) := by
  have notHigh : isHighSurrogate number = false := by simp [isHighSurrogate]; omega
  have notLow : isLowSurrogate number = false := by simp [isLowSurrogate]; omega
  cases units with
  | nil => simp [decode, notHigh, notLow]
  | cons unit units => cases unit <;> simp [decode, notHigh, notLow]

/-- Every character is written as one unit that stands for it alone. -/
theorem exists_unit (c : Char) :
    ∃ unit, SpellsUnit unit (escapedChar c).toList ∧
      ∀ units, decode (unit :: units) = (decode units).map (c :: ·) := by
  have control : ∀ code < 0x20, (Text.hexPadded 4 code).toList =
      ['0', '0', (code / 16).digitChar, (code % 16).digitChar] ∧
      hexCode? '0' '0' (code / 16).digitChar (code % 16).digitChar = some code := by decide
  unfold escapedChar
  split
  any_goals exact ⟨.char _, .escape rfl, fun units => by rw [decode]⟩
  next notQuote notBackslash _ _ _ _ _ =>
    split
    · next isControl =>
      obtain ⟨written, code⟩ := control c.toNat isControl
      refine ⟨.code c.toNat, ?_, fun units => ?_⟩
      · rw [String.toList_append, written]
        exact .code code
      · rw [decode_code (by omega), Char.ofNat_toNat]
    · next printable =>
      refine ⟨.char c, ?_, fun units => by rw [decode]⟩
      rw [Char.toString, String.toList_singleton]
      exact .plain (Nat.le_of_not_lt printable) notQuote notBackslash

theorem exists_content (text : List Char) :
    ∃ units, SpellsContent units (text.flatMap (fun c => (escapedChar c).toList) ++ ['\x22']) ∧
      decode units = some text := by
  induction text with
  | nil => exact ⟨[], .close, by rw [decode]⟩
  | cons c text ih =>
      obtain ⟨units, content, decoded⟩ := ih
      obtain ⟨unit, spells, first⟩ := exists_unit c
      refine ⟨unit :: units, ?_, ?_⟩
      · rw [List.flatMap_cons, List.append_assoc]
        exact .unit spells content
      · rw [first, decoded]
        rfl

/-- What is written between the double quotes, with the one that ends it. -/
theorem exists_written (text : String) :
    ∃ units content, SpellsContent units content ∧ text? units = some text ∧
      (string text).toList = '\x22' :: content := by
  obtain ⟨units, content, decoded⟩ := exists_content text.toList
  refine ⟨units, _, content, ?_, ?_⟩
  · rw [text?, decoded, Option.map_some, String.ofList_toList]
  · simp [string, String.toList_join, List.flatMap_map]

theorem spells_string (text : String) :
    Spells (.node (.string (some text))) (string text).toList := by
  obtain ⟨units, content, spells, decoded, written⟩ := exists_written text
  rw [written, ← decoded]
  exact .string spells

theorem isMark_singleton (mark : Char) : IsMark mark [mark] :=
  ⟨[], by simp [IsBlanks], rfl⟩

theorem spellsKey_string (key : String) : SpellsKey (some key) (string key ++ ":").toList := by
  obtain ⟨units, content, spells, decoded, written⟩ := exists_written key
  rw [String.toList_append, written, ← decoded]
  exact .intro (isMark_singleton '\x22') spells (isMark_singleton ':')

/-! ## Arrays and objects -/

def SpellsItem (node : Node) (item : String) : Prop :=
  Spells (.node node) item.toList

def SpellsMember (member : Option String × Node) (written : String × String) : Prop :=
  member.1 = some written.1 ∧ Spells (.node member.2) written.2.toList

theorem Spells.member_of_key {node : Node} {text : String} (spells : Spells (.node node) text.toList)
    (key : String) : SpellsMember (some key, node) (key, text) :=
  ⟨rfl, spells⟩

theorem spells_array {nodes : List Node} {items : List String}
    (each : List.Forall₂ SpellsItem nodes items) :
    Spells (.node (.array nodes)) (array items).toList := by
  have inside : ∀ {first : Node} {others : List Node} {item : String} {items : List String},
      SpellsItem first item → List.Forall₂ SpellsItem others items →
      Spells (.elements (first :: others)) ((",".intercalate (item :: items)).toList ++ [']']) := by
    intro first others item items spells each
    induction each generalizing first item with
    | nil => exact .lastElement spells (isMark_singleton ']')
    | cons second _ ih =>
        rw [String.intercalate_cons_cons]
        simpa using Spells.element spells (isMark_singleton ',') (ih second)
  cases each with
  | nil => exact .emptyArray (isMark_singleton ']')
  | cons first others => simpa [array] using Spells.array (inside first others)

def writtenMember (member : String × String) : String :=
  string member.1 ++ ":" ++ member.2

theorem object_eq (members : List (String × String)) :
    object members = "\x7b" ++ ",".intercalate (members.map writtenMember) ++ "\x7d" :=
  rfl

theorem spells_object {members : List (Option String × Node)} {written : List (String × String)}
    (each : List.Forall₂ SpellsMember members written) :
    Spells (.node (.object members)) (object written).toList := by
  have inside : ∀ {first : Option String × Node} {others : List (Option String × Node)}
      {item : String × String} {items : List (String × String)},
      SpellsMember first item → List.Forall₂ SpellsMember others items →
      Spells (.members (first :: others))
        ((",".intercalate ((item :: items).map writtenMember)).toList ++ ['\x7d']) := by
    intro first others item items spells each
    induction each generalizing first item with
    | nil =>
        obtain ⟨key?, node⟩ := first
        obtain ⟨rfl, spells⟩ := spells
        simpa [writtenMember] using
          Spells.lastMember (spellsKey_string item.1) spells (isMark_singleton '\x7d')
    | cons second _ ih =>
        obtain ⟨key?, node⟩ := first
        obtain ⟨rfl, spells⟩ := spells
        rw [List.map_cons, List.map_cons, String.intercalate_cons_cons]
        simpa [writtenMember] using
          Spells.member (spellsKey_string item.1) spells (isMark_singleton ',') (ih second)
  cases each with
  | nil => exact .emptyObject (isMark_singleton '\x7d')
  | cons first others => simpa [object_eq] using Spells.object (inside first others)

/-- What spells a node without white space around it spells it as a whole text. -/
theorem Spells.isSpelledBy {node : Node} {text : String} (spells : Spells (.node node) text.toList) :
    node.IsSpelledBy text :=
  ⟨text.toList, [], spells, by simp [IsBlanks], by simp⟩

end Json

end TaggedLisp
