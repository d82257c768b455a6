import TaggedLisp.Json.Node
import Mathlib.Data.List.Basic

/-! The grammar of JSON as a relation between texts and nodes, with white space wherever the standard
allows it and any of the ways to write a character in a string. All that the grammar spells is read,
and as the node that it spells. -/

set_option autoImplicit false

namespace TaggedLisp.Json

/-! ## The grammar -/

def IsBlanks (text : List Char) : Prop :=
  ∀ c ∈ text, isBlank c = true

/-- White space, and then the mark. -/
def IsMark (mark : Char) (text : List Char) : Prop :=
  ∃ blanks, IsBlanks blanks ∧ text = blanks ++ [mark]

inductive SpellsUnit : StringUnit → List Char → Prop where
  | plain {c : Char} : 0x20 ≤ c.toNat → c ≠ '\x22' → c ≠ '\\' → SpellsUnit (.char c) [c]
  | escape {escaped c : Char} : simpleEscape? escaped = some c →
      SpellsUnit (.char c) ['\\', escaped]
  | code {a b c d : Char} {number : Nat} : hexCode? a b c d = some number →
      SpellsUnit (.code number) ['\\', 'u', a, b, c, d]

/-- The content of a string with the double quote that ends it. -/
inductive SpellsContent : List StringUnit → List Char → Prop where
  | close : SpellsContent [] ['\x22']
  | unit {unit : StringUnit} {units : List StringUnit} {text more : List Char} :
      SpellsUnit unit text → SpellsContent units more →
      SpellsContent (unit :: units) (text ++ more)

def IsDigits (text : List Char) : Prop :=
  text ≠ [] ∧ ∀ c ∈ text, c.isDigit = true

inductive IsWhole : List Char → Prop where
  | zero : IsWhole ['0']
  | run {text : List Char} : IsDigits text → text.head? ≠ some '0' → IsWhole text

inductive IsFraction : List Char → Prop where
  | absent : IsFraction []
  | run {text : List Char} : IsDigits text → IsFraction ('.' :: text)

inductive IsExponent : List Char → Prop where
  | absent : IsExponent []
  | plain {mark : Char} {text : List Char} : mark ∈ ['e', 'E'] → IsDigits text →
      IsExponent (mark :: text)
  | signed {mark sign : Char} {text : List Char} : mark ∈ ['e', 'E'] → sign ∈ ['+', '-'] →
      IsDigits text → IsExponent (mark :: sign :: text)

inductive IsNumber : List Char → Prop where
  | positive {whole fraction exponent : List Char} :
      IsWhole whole → IsFraction fraction → IsExponent exponent →
      IsNumber (whole ++ fraction ++ exponent)
  | negative {whole fraction exponent : List Char} :
      IsWhole whole → IsFraction fraction → IsExponent exponent →
      IsNumber ('-' :: (whole ++ fraction ++ exponent))

/-- What texts spell: nodes, and the insides of arrays and objects up to the bracket at the end. -/
inductive Phrase where
  | node (node : Node)
  | elements (elements : List Node)
  | members (members : List (Option String × Node))

/-- A key and the colon behind it. -/
inductive SpellsKey : Option String → List Char → Prop where
  | intro {units : List StringUnit} {quote content colon : List Char} :
      IsMark '\x22' quote → SpellsContent units content → IsMark ':' colon →
      SpellsKey (text? units) (quote ++ content ++ colon)

inductive Spells : Phrase → List Char → Prop where
  | padded {node : Node} {blanks text : List Char} : IsBlanks blanks → Spells (.node node) text →
      Spells (.node node) (blanks ++ text)
  | null : Spells (.node .null) ['n', 'u', 'l', 'l']
  | true : Spells (.node (.bool true)) ['t', 'r', 'u', 'e']
  | false : Spells (.node (.bool false)) ['f', 'a', 'l', 's', 'e']
  | number {literal : List Char} : IsNumber literal → Spells (.node (.number literal)) literal
  | string {units : List StringUnit} {content : List Char} : SpellsContent units content →
      Spells (.node (.string (text? units))) ('\x22' :: content)
  | emptyArray {ending : List Char} : IsMark ']' ending →
      Spells (.node (.array [])) ('[' :: ending)
  | array {elements : List Node} {text : List Char} : Spells (.elements elements) text →
      Spells (.node (.array elements)) ('[' :: text)
  | emptyObject {ending : List Char} : IsMark '\x7d' ending →
      Spells (.node (.object [])) ('\x7b' :: ending)
  | object {members : List (Option String × Node)} {text : List Char} :
      Spells (.members members) text → Spells (.node (.object members)) ('\x7b' :: text)
  | lastElement {node : Node} {text ending : List Char} : Spells (.node node) text →
      IsMark ']' ending → Spells (.elements [node]) (text ++ ending)
  | element {node : Node} {elements : List Node} {text comma more : List Char} :
      Spells (.node node) text → IsMark ',' comma → Spells (.elements elements) more →
      Spells (.elements (node :: elements)) (text ++ comma ++ more)
  | lastMember {key? : Option String} {node : Node} {key text ending : List Char} :
      SpellsKey key? key → Spells (.node node) text → IsMark '\x7d' ending →
      Spells (.members [(key?, node)]) (key ++ text ++ ending)
  | member {key? : Option String} {node : Node} {members : List (Option String × Node)}
      {key text comma more : List Char} : SpellsKey key? key → Spells (.node node) text →
      IsMark ',' comma → Spells (.members members) more →
      Spells (.members ((key?, node) :: members)) (key ++ text ++ comma ++ more)

/-- The whole text spells one node, and there is nothing else but white space. -/
def Node.IsSpelledBy (node : Node) (text : String) : Prop :=
  ∃ spelled blanks, Spells (.node node) spelled ∧ IsBlanks blanks ∧
    text.toList = spelled ++ blanks

/-! ## Reading -/

/-- Reading found the value and left the rest. -/
def Yields {limit : Nat} {α : Type} (parsed? : Option (Parsed limit α)) (value : α)
    (rest : List Char) : Prop :=
  ∃ length_lt, parsed? = some ⟨value, rest, length_lt⟩

theorem Yields.extend {α β : Type} {limit larger : Nat} {parsed? : Option (Parsed limit α)}
    {value : α} {rest : List Char} (yields : Yields parsed? value rest) (le : limit ≤ larger)
    (convert : α → β) : Yields (parsed?.map (·.extend le convert)) (convert value) rest := by
  obtain ⟨length_lt, rfl⟩ := yields
  exact ⟨_, rfl⟩

/-- What may follow a value: the end, white space, a comma or the end of an array or object. -/
def Delimits (rest : List Char) : Prop :=
  ∀ c, rest.head? = some c → isBlank c = true ∨ c ∈ [',', ']', '\x7d']

/-! ### Marks -/

theorem expect_of_isMark {mark : Char} {text rest : List Char} (isMark : IsMark mark text)
    (notBlank : isBlank mark = false) : Yields (expect mark (text ++ rest)) () rest := by
  obtain ⟨blanks, blank, rfl⟩ := isMark
  induction blanks with
  | nil =>
      refine ⟨by simp, ?_⟩
      simp [expect, notBlank]
  | cons c blanks ih =>
      obtain ⟨first, others⟩ := List.forall_mem_cons.mp blank
      have later := (ih others).extend (Nat.le_succ _) id
      simpa only [List.cons_append, expect, first, ↓reduceIte] using later

/-- White space, and then a character that neither ends an array nor an object. -/
def Opens (text : List Char) : Prop :=
  ∃ blanks first more, IsBlanks blanks ∧ isBlank first = false ∧ first ∉ [']', '\x7d'] ∧
    text = blanks ++ first :: more

theorem expect_eq_none {wanted first : Char} {blanks more : List Char} (blank : IsBlanks blanks)
    (notBlank : isBlank first = false) (other : first ≠ wanted) :
    expect wanted (blanks ++ first :: more) = none := by
  induction blanks with
  | nil => simp [expect, notBlank, other]
  | cons c blanks ih =>
      obtain ⟨isBlank, others⟩ := List.forall_mem_cons.mp blank
      simp only [List.cons_append, expect, isBlank, ↓reduceIte, ih others, Option.map_none]

theorem Opens.append {text : List Char} (opens : Opens text) (more : List Char) :
    Opens (text ++ more) := by
  obtain ⟨blanks, first, rest, blank, notBlank, inside, rfl⟩ := opens
  exact ⟨blanks, first, rest ++ more, blank, notBlank, inside, by simp⟩

theorem Opens.expect_eq_none {text : List Char} (opens : Opens text) {ending : Char}
    (isEnding : ending ∈ [']', '\x7d']) : expect ending text = none := by
  obtain ⟨blanks, first, rest, blank, notBlank, inside, rfl⟩ := opens
  exact Json.expect_eq_none blank notBlank fun same => inside (same ▸ isEnding)

theorem expect_eq_none_of_isMark {wanted mark : Char} {text rest : List Char}
    (isMark : IsMark mark text) (notBlank : isBlank mark = false) (other : mark ≠ wanted) :
    expect wanted (text ++ rest) = none := by
  obtain ⟨blanks, blank, rfl⟩ := isMark
  rw [List.append_assoc]
  exact expect_eq_none blank notBlank other

/-! ### Strings -/

theorem SpellsUnit.yields {unit : StringUnit} {text rest after : List Char} {units : List StringUnit}
    (spells : SpellsUnit unit text) (later : Yields (stringUnits rest) units after) :
    Yields (stringUnits (text ++ rest)) (unit :: units) after := by
  cases spells with
  | @plain c printable notQuote notBackslash =>
      have notControl := Nat.not_lt.mpr printable
      have read := later.extend (Nat.le_succ _) (.char c :: ·)
      simpa [stringUnits, notQuote, notBackslash, notControl] using read
  | @escape escaped c found =>
      have notCode : escaped ≠ 'u' := by
        rintro rfl
        cases found
      have read := later.extend (Nat.le_add_right _ 2) (.char c :: ·)
      simpa [stringUnits, notCode, found] using read
  | @code a b c d number found =>
      have read := later.extend (Nat.le_add_right _ 6) (.code number :: ·)
      simpa [stringUnits, found] using read

theorem SpellsContent.yields {units : List StringUnit} {text : List Char}
    (spells : SpellsContent units text) (rest : List Char) :
    Yields (stringUnits (text ++ rest)) units rest := by
  induction spells with
  | close => exact ⟨by simp, by simp [stringUnits]⟩
  | unit first _ ih =>
      rw [List.append_assoc]
      exact first.yields ih

/-! ### Numbers -/

theorem Delimits.head {rest : List Char} (delimits : Delimits rest) {c : Char}
    (first : rest.head? = some c) : c.isDigit = false ∧ c ≠ '.' ∧ c ∉ ['e', 'E'] := by
  have ordinary : ∀ other ∈ [' ', '\t', '\n', '\r'] ++ [',', ']', '\x7d'],
      other.isDigit = false ∧ other ≠ '.' ∧ other ∉ ['e', 'E'] := by simp
  rcases delimits c first with blank | mark
  · exact ordinary c (List.mem_append_left _ (of_decide_eq_true blank))
  · exact ordinary c (List.mem_append_right _ mark)

theorem digits_append {run rest : List Char} (isDigits : ∀ c ∈ run, c.isDigit = true)
    (ends : ∀ c, rest.head? = some c → c.isDigit = false) : digits (run ++ rest) = run := by
  have none : rest.takeWhile Char.isDigit = [] := by
    cases rest with
    | nil => rfl
    | cons c rest => rw [List.takeWhile_cons_of_neg (by simp [ends c rfl])]
  rw [digits, List.takeWhile_append_of_pos isDigits, none, List.append_nil]

theorem integerPart?_append {whole rest : List Char} (isWhole : IsWhole whole)
    (ends : ∀ c, rest.head? = some c → c.isDigit = false) :
    integerPart? (whole ++ rest) = some whole := by
  cases isWhole with
  | zero => simp [integerPart?, digits]
  | run isDigits noZero =>
      rw [integerPart?, digits_append isDigits.2 ends]
      split
      · exact absurd rfl isDigits.1
      · exact absurd rfl noZero
      · rfl

theorem fraction?_append {fraction rest : List Char} (isFraction : IsFraction fraction)
    (ends : ∀ c, rest.head? = some c → c.isDigit = false ∧ c ≠ '.') :
    fraction? (fraction ++ rest) = some fraction := by
  cases isFraction with
  | absent =>
      cases rest with
      | nil => rfl
      | cons c rest => simp [fraction?, (ends c rfl).2]
  | run isDigits =>
      have kept := digits_append isDigits.2 fun c first => (ends c first).1
      simp [fraction?, kept, isDigits.1]

theorem exponent?_append {exponent rest : List Char} (isExponent : IsExponent exponent)
    (ends : ∀ c, rest.head? = some c → c.isDigit = false ∧ c ∉ ['e', 'E']) :
    exponent? (exponent ++ rest) = some exponent := by
  have digitsOf : ∀ {run : List Char}, IsDigits run → digits (run ++ rest) = run := fun isDigits =>
    digits_append isDigits.2 fun c first => (ends c first).1
  cases isExponent with
  | absent =>
      cases rest with
      | nil => rfl
      | cons c rest =>
          have noMark := (ends c rfl).2
          simp only [List.mem_cons, List.not_mem_nil, or_false, not_or] at noMark
          simp [exponent?, noMark]
  | @plain mark run isMark isDigits =>
      have kept := digitsOf isDigits
      obtain ⟨notEmpty, isDigits⟩ := isDigits
      simp only [List.mem_cons, List.not_mem_nil, or_false] at isMark
      cases run with
      | nil => exact absurd rfl notEmpty
      | cons first others =>
          have noSign : first ≠ '+' ∧ first ≠ '-' := by
            have isDigit := isDigits first List.mem_cons_self
            constructor
            · rintro rfl
              cases isDigit
            · rintro rfl
              cases isDigit
          rw [List.cons_append] at kept
          simp [exponent?, isMark, noSign, kept]
  | @signed mark sign run isMark isSign isDigits =>
      have kept := digitsOf isDigits
      simp only [List.mem_cons, List.not_mem_nil, or_false] at isMark isSign
      simp [exponent?, isMark, isSign, kept, isDigits.1]

theorem IsWhole.exists_digit {whole : List Char} (isWhole : IsWhole whole) :
    ∃ first others, whole = first :: others ∧ first.isDigit = true := by
  cases isWhole with
  | zero => exact ⟨'0', [], rfl, rfl⟩
  | run isDigits =>
      obtain ⟨first, others, rfl⟩ := List.exists_cons_of_ne_nil isDigits.1
      exact ⟨first, others, rfl, isDigits.2 first List.mem_cons_self⟩

theorem IsExponent.head {exponent rest : List Char} (isExponent : IsExponent exponent)
    (delimits : Delimits rest) {c : Char} (first : (exponent ++ rest).head? = some c) :
    c.isDigit = false ∧ c ≠ '.' := by
  have marks : ∀ mark ∈ ['e', 'E'], mark.isDigit = false ∧ mark ≠ '.' := by simp
  cases isExponent with
  | absent => exact ⟨(delimits.head first).1, (delimits.head first).2.1⟩
  | plain isMark | signed isMark =>
      cases first
      exact marks _ isMark

theorem IsFraction.head {fraction rest : List Char} (isFraction : IsFraction fraction)
    (ends : ∀ c, rest.head? = some c → c.isDigit = false) {c : Char}
    (first : (fraction ++ rest).head? = some c) : c.isDigit = false := by
  cases isFraction with
  | absent => exact ends c first
  | run =>
      cases first
      rfl

/-- The parts of a number are found one after the other, each from the rest that the one before it
leaves. -/
theorem number?_append {literal rest : List Char} (isNumber : IsNumber literal)
    (delimits : Delimits rest) : number? (literal ++ rest) = some literal := by
  have parts : ∀ {whole fraction exponent : List Char}, IsWhole whole → IsFraction fraction →
      IsExponent exponent →
      integerPart? (whole ++ (fraction ++ (exponent ++ rest))) = some whole ∧
      fraction? (fraction ++ (exponent ++ rest)) = some fraction ∧
      exponent? (exponent ++ rest) = some exponent := by
    intro whole fraction exponent isWhole isFraction isExponent
    refine ⟨integerPart?_append isWhole fun c first => ?_,
      fraction?_append isFraction fun c first => isExponent.head delimits first,
      exponent?_append isExponent fun c first => ?_⟩
    · exact isFraction.head (fun c first => (isExponent.head delimits first).1) first
    · exact ⟨(delimits.head first).1, (delimits.head first).2.2⟩
  cases isNumber with
  | @positive whole fraction exponent isWhole isFraction isExponent =>
      obtain ⟨wholeRead, fractionRead, exponentRead⟩ := parts isWhole isFraction isExponent
      have unsigned : (whole ++ (fraction ++ (exponent ++ rest))).head? ≠ some '-' := by
        obtain ⟨first, others, rfl, isDigit⟩ := isWhole.exists_digit
        intro same
        cases same
        cases isDigit
      simp only [List.append_assoc, number?, unsigned, ↓reduceIte, List.length_nil,
        List.drop_zero, wholeRead, List.drop_left, fractionRead, exponentRead, bind, Option.bind,
        pure, List.nil_append]
  | negative isWhole isFraction isExponent =>
      obtain ⟨wholeRead, fractionRead, exponentRead⟩ := parts isWhole isFraction isExponent
      simp [number?, wholeRead, fractionRead, exponentRead]

/-! ### Phrases -/

theorem delimits_of_isMark {mark : Char} {text : List Char} (isMark : IsMark mark text)
    (closes : mark ∈ [',', ']', '\x7d']) (rest : List Char) : Delimits (text ++ rest) := by
  obtain ⟨blanks, blank, rfl⟩ := isMark
  intro c first
  cases blanks with
  | nil =>
      cases first
      exact .inr closes
  | cons space blanks =>
      cases first
      exact .inl (blank _ List.mem_cons_self)

theorem opens_cons {first : Char} (notBlank : isBlank first = false)
    (inside : first ∉ [']', '\x7d']) (more : List Char) : Opens (first :: more) :=
  ⟨[], first, more, by simp [IsBlanks], notBlank, inside, rfl⟩

theorem IsNumber.exists_first {literal : List Char} (isNumber : IsNumber literal) :
    ∃ first others, literal = first :: others ∧ (first = '-' ∨ first.isDigit = true) := by
  cases isNumber with
  | positive isWhole =>
      obtain ⟨first, others, rfl, isDigit⟩ := isWhole.exists_digit
      exact ⟨first, _, rfl, .inr isDigit⟩
  | negative => exact ⟨'-', _, rfl, .inl rfl⟩

/-- What starts a number is not skipped, and starts or ends nothing else. -/
theorem plain_of_starts_number {first : Char} (starts : first = '-' ∨ first.isDigit = true) :
    isBlank first = false ∧ first ∉ ['\x22', '[', ']', '\x7b', '\x7d'] := by
  rcases starts with rfl | isDigit
  · decide
  · have others : ∀ other ∈ [' ', '\t', '\n', '\r'] ++ ['\x22', '[', ']', '\x7b', '\x7d'],
        other.isDigit = false := by simp
    have notOther : first ∉ [' ', '\t', '\n', '\r'] ++ ['\x22', '[', ']', '\x7b', '\x7d'] := by
      intro member
      simp [others first member] at isDigit
    obtain ⟨notBlank, plain⟩ := List.mem_append.not.mp notOther |> not_or.mp
    exact ⟨decide_eq_false notBlank, plain⟩

theorem Opens.padded {blanks text : List Char} (opens : Opens text) (blank : IsBlanks blanks) :
    Opens (blanks ++ text) := by
  obtain ⟨inner, first, more, others, notBlank, inside, rfl⟩ := opens
  refine ⟨blanks ++ inner, first, more, ?_, notBlank, inside, (List.append_assoc ..).symm⟩
  exact List.forall_mem_append.mpr ⟨blank, others⟩

theorem SpellsKey.opens {key? : Option String} {text : List Char} (spells : SpellsKey key? text) :
    Opens text := by
  obtain ⟨⟨blanks, blank, rfl⟩, -, -⟩ := spells
  have quote : Opens ['\x22'] := opens_cons (by decide) (by decide) []
  exact ((quote.padded blank).append _).append _

theorem Spells.opens {phrase : Phrase} {text : List Char} (spells : Spells phrase text) :
    Opens text := by
  induction spells with
  | padded blank _ ih => exact ih.padded blank
  | null | true | false | string | emptyArray | array | emptyObject | object =>
      exact opens_cons (by decide) (by decide) _
  | number isNumber =>
      obtain ⟨first, others, rfl, starts⟩ := isNumber.exists_first
      obtain ⟨notBlank, plain⟩ := plain_of_starts_number starts
      refine opens_cons notBlank ?_ others
      intro ending
      exact plain (by simp_all)
  | lastElement _ _ ih => exact ih.append _
  | element _ _ _ ih => exact (ih.append _).append _
  | lastMember key => exact (key.opens.append _).append _
  | member key => exact ((key.opens.append _).append _).append _

/-! ## All that the grammar spells is read -/

theorem node_of_blanks {blanks text rest : List Char} {value : Node} (blank : IsBlanks blanks)
    (yields : Yields (node text) value rest) : Yields (node (blanks ++ text)) value rest := by
  induction blanks with
  | nil => exact yields
  | cons c blanks ih =>
      obtain ⟨isBlank, others⟩ := List.forall_mem_cons.mp blank
      have later := (ih others).extend (Nat.le_succ _) id
      rw [List.cons_append, node, if_pos isBlank]
      exact later

theorem node_of_isNumber {literal rest : List Char} (isNumber : IsNumber literal)
    (delimits : Delimits rest) : Yields (node (literal ++ rest)) (.number literal) rest := by
  have found := number?_append isNumber delimits
  obtain ⟨first, others, rfl, starts⟩ := isNumber.exists_first
  obtain ⟨notBlank, plain⟩ := plain_of_starts_number starts
  simp only [List.mem_cons, List.not_mem_nil, or_false, not_or] at plain
  have marked : (first = '-' || first.isDigit) = true := by simpa using starts
  have read : Yields (numeral? first (others ++ rest)) (.number (first :: others)) rest := by
    rw [List.cons_append] at found
    refine ⟨?_, ?_⟩
    · simp only [List.length_cons, List.length_append]
      omega
    · simp [numeral?, found]
  simpa only [List.cons_append, node, notBlank, plain, marked, Bool.false_eq_true, ↓reduceIte]
    using read

/-- Reading the phrase leaves the rest of the input. -/
def Phrase.IsRead (input rest : List Char) : Phrase → Prop
  | .node value => Yields (Json.node input) value rest
  | .elements values => Yields (Json.elements input) values rest
  | .members values => Yields (Json.members input) values rest

section

variable {input after more rest : List Char} {value : Node}

theorem elements_of_comma {values : List Node} (first : Yields (node input) value after)
    (comma : Yields (expect ',' after) () more) (others : Yields (elements more) values rest) :
    Yields (elements input) (value :: values) rest := by
  obtain ⟨_, first⟩ := first
  obtain ⟨_, comma⟩ := comma
  rw [elements, first]
  simp only [comma]
  exact others.extend _ _

theorem elements_of_ending (last : Yields (node input) value after)
    (noComma : expect ',' after = none) (ending : Yields (expect ']' after) () rest) :
    Yields (elements input) [value] rest := by
  obtain ⟨_, last⟩ := last
  rw [elements, last]
  simp only [noComma]
  exact ending.extend _ _

/-- What a member is read as up to its value. -/
theorem SpellsKey.exists_reads {key? : Option String} {key : List Char}
    (spells : SpellsKey key? key) (input : List Char) :
    ∃ units afterQuote afterKey, key? = text? units ∧
      Yields (expect '\x22' (key ++ input)) () afterQuote ∧
      Yields (stringUnits afterQuote) units afterKey ∧ Yields (expect ':' afterKey) () input := by
  cases spells with
  | @intro units quote content colon isQuote spellsContent isColon =>
      rw [List.append_assoc, List.append_assoc]
      exact ⟨units, _, _, rfl, expect_of_isMark isQuote (by decide), spellsContent.yields _,
        expect_of_isMark isColon (by decide)⟩

theorem members_of_comma {key? : Option String} {key : List Char}
    {values : List (Option String × Node)} (spells : SpellsKey key? key)
    (first : Yields (node input) value after) (comma : Yields (expect ',' after) () more)
    (others : Yields (members more) values rest) :
    Yields (members (key ++ input)) ((key?, value) :: values) rest := by
  obtain ⟨units, _, _, rfl, ⟨_, quote⟩, ⟨_, content⟩, ⟨_, colon⟩⟩ := spells.exists_reads input
  obtain ⟨_, first⟩ := first
  obtain ⟨_, comma⟩ := comma
  rw [members, quote]
  simp only [content, colon, first, comma]
  exact others.extend _ _

theorem members_of_ending {key? : Option String} {key : List Char} (spells : SpellsKey key? key)
    (last : Yields (node input) value after) (noComma : expect ',' after = none)
    (ending : Yields (expect '\x7d' after) () rest) :
    Yields (members (key ++ input)) [(key?, value)] rest := by
  obtain ⟨units, _, _, rfl, ⟨_, quote⟩, ⟨_, content⟩, ⟨_, colon⟩⟩ := spells.exists_reads input
  obtain ⟨_, last⟩ := last
  rw [members, quote]
  simp only [content, colon, last, noComma]
  exact ending.extend _ _

end

/-- Arrays and objects are told from empty ones by the first mark inside. Behind an element stands a
comma or the end of the array, which never continues the element. -/
theorem Spells.isRead {phrase : Phrase} {text : List Char} (spells : Spells phrase text) :
    ∀ {rest : List Char}, Delimits rest → phrase.IsRead (text ++ rest) rest := by
  induction spells with
  | padded blank _ ih =>
      intro rest delimits
      rw [List.append_assoc]
      exact node_of_blanks blank (ih delimits)
  | null | true | false =>
      intro rest _
      refine ⟨?_, by simp [node, isBlank, keyword?]⟩
      simp only [List.length_cons, List.length_append]
      omega
  | number isNumber => exact node_of_isNumber isNumber
  | @string units content spells =>
      intro rest _
      have read := (spells.yields rest).extend (Nat.le_succ _) fun units => Node.string (text? units)
      simpa [Phrase.IsRead, node, isBlank] using read
  | @emptyArray ending isEnding =>
      intro rest _
      obtain ⟨closed_lt, closed⟩ : Yields (expect ']' (ending ++ rest)) () rest :=
        expect_of_isMark isEnding (by decide)
      have read := Yields.extend ⟨closed_lt, closed⟩ (Nat.le_succ _) fun _ => Node.array []
      simpa [Phrase.IsRead, node, isBlank, closed] using read
  | @emptyObject ending isEnding =>
      intro rest _
      obtain ⟨closed_lt, closed⟩ : Yields (expect '\x7d' (ending ++ rest)) () rest :=
        expect_of_isMark isEnding (by decide)
      have read := Yields.extend ⟨closed_lt, closed⟩ (Nat.le_succ _) fun _ => Node.object []
      simpa [Phrase.IsRead, node, isBlank, closed] using read
  | array inside ih =>
      intro rest delimits
      have notEmpty : expect ']' (_ ++ rest) = none :=
        (inside.opens.append rest).expect_eq_none (by decide)
      have read := (ih delimits).extend (Nat.le_succ _) Node.array
      simpa [Phrase.IsRead, node, isBlank, notEmpty] using read
  | object inside ih =>
      intro rest delimits
      have notEmpty : expect '\x7d' (_ ++ rest) = none :=
        (inside.opens.append rest).expect_eq_none (by decide)
      have read := (ih delimits).extend (Nat.le_succ _) Node.object
      simpa [Phrase.IsRead, node, isBlank, notEmpty] using read
  | lastElement _ isEnding ih =>
      intro rest _
      rw [List.append_assoc]
      exact elements_of_ending (ih (delimits_of_isMark isEnding (by decide) rest))
        (expect_eq_none_of_isMark isEnding (by decide) (by decide))
        (expect_of_isMark isEnding (by decide))
  | element _ isComma _ nodeIH elementsIH =>
      intro rest delimits
      rw [List.append_assoc, List.append_assoc]
      exact elements_of_comma (nodeIH (delimits_of_isMark isComma (by decide) _))
        (expect_of_isMark isComma (by decide)) (elementsIH delimits)
  | lastMember key _ isEnding ih =>
      intro rest _
      rw [List.append_assoc, List.append_assoc]
      exact members_of_ending key (ih (delimits_of_isMark isEnding (by decide) rest))
        (expect_eq_none_of_isMark isEnding (by decide) (by decide))
        (expect_of_isMark isEnding (by decide))
  | member key _ isComma _ nodeIH membersIH =>
      intro rest delimits
      rw [List.append_assoc, List.append_assoc, List.append_assoc]
      exact members_of_comma key (nodeIH (delimits_of_isMark isComma (by decide) _))
        (expect_of_isMark isComma (by decide)) (membersIH delimits)

/-- Every text that spells a node is read, and as that node. -/
theorem Node.IsSpelledBy.ofString? {value : Node} {text : String} (spelled : value.IsSpelledBy text) :
    Node.ofString? text = some value := by
  obtain ⟨inside, blanks, spells, blank, same⟩ := spelled
  have delimits : Delimits blanks := fun c first =>
    .inl (blank c (List.mem_of_mem_head? (Option.mem_def.mpr first)))
  obtain ⟨_, read⟩ : Yields (node text.toList) value blanks := by
    rw [same]
    exact spells.isRead delimits
  have onlyBlanks : blanks.all isBlank = true := List.all_eq_true.mpr blank
  simp only [Node.ofString?, read, onlyBlanks, ↓reduceIte]

end TaggedLisp.Json
