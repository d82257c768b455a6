import TaggedLisp.Text.Decimal

/-!
# Reading JSON

JSON is read strictly: one value, with white space around its parts and nothing else. Numbers are
kept as they are written. A string may hold escapes for halves of surrogate pairs that do not belong
together; such a string is JSON, but it is no text.
-/

set_option autoImplicit false

namespace TaggedLisp.Json

inductive Node where
  | null
  | bool (value : Bool)
  | number (literal : List Char)
  /-- A string, if its content is text. -/
  | string (text? : Option String)
  | array (elements : List Node)
  /-- An object with its members in order. Keys may repeat. -/
  | object (members : List (Option String × Node))

/-- What reading a part of a text leaves: the part, and a rest that is shorter than `limit`. -/
structure Parsed (limit : Nat) (α : Type) where
  value : α
  rest : List Char
  length_lt : rest.length < limit

namespace Parsed

def extend {α β : Type} {limit larger : Nat} (parsed : Parsed limit α) (le : limit ≤ larger)
    (convert : α → β) : Parsed larger β :=
  ⟨convert parsed.value, parsed.rest, Nat.lt_of_lt_of_le parsed.length_lt le⟩

end Parsed

def isBlank (c : Char) : Bool :=
  c ∈ [' ', '\t', '\n', '\r']

def expect (wanted : Char) : (input : List Char) → Option (Parsed input.length Unit)
  | [] => none
  | c :: rest =>
    if isBlank c then
      (expect wanted rest).map (·.extend (Nat.le_succ _) id)
    else if c = wanted then some ⟨(), rest, Nat.lt_succ_self _⟩
    else none

/-! ### Strings -/

/-- One unit of the content of a string: a character, or a number of 16 bits that an escape gives. -/
inductive StringUnit where
  | char (c : Char)
  | code (number : Nat)
deriving DecidableEq, Repr

def hexDigit? (c : Char) : Option Nat :=
  if '0' ≤ c && c ≤ '9' then some (c.toNat - '0'.toNat)
  else if 'a' ≤ c && c ≤ 'f' then some (c.toNat - 'a'.toNat + 10)
  else if 'A' ≤ c && c ≤ 'F' then some (c.toNat - 'A'.toNat + 10)
  else none

def hexCode? (a b c d : Char) : Option Nat := do
  let a ← hexDigit? a
  let b ← hexDigit? b
  let c ← hexDigit? c
  let d ← hexDigit? d
  return ((a * 16 + b) * 16 + c) * 16 + d

def simpleEscape? (c : Char) : Option Char :=
  match c with
  | '\x22' => some '\x22'
  | '\\' => some '\\'
  | '/' => some '/'
  | 'b' => some '\x08'
  | 'f' => some '\x0c'
  | 'n' => some '\n'
  | 'r' => some '\r'
  | 't' => some '\t'
  | _ => none

/-- Reads the content of a string and the double quote that ends it. Characters below the space have
to be escaped. -/
def stringUnits : (input : List Char) → Option (Parsed input.length (List StringUnit))
  | [] => none
  | '\x22' :: rest => some ⟨[], rest, Nat.lt_succ_self _⟩
  | '\\' :: 'u' :: a :: b :: c :: d :: rest =>
    match hexCode? a b c d with
    | some number =>
      (stringUnits rest).map (·.extend (by simp only [List.length_cons]; omega) (.code number :: ·))
    | none => none
  | '\\' :: escaped :: rest =>
    match simpleEscape? escaped with
    | some c =>
      (stringUnits rest).map (·.extend (by simp only [List.length_cons]; omega) (.char c :: ·))
    | none => none
  | c :: rest =>
    if c.toNat < 0x20 || c = '\\' then none
    else (stringUnits rest).map (·.extend (Nat.le_succ _) (.char c :: ·))

def isHighSurrogate (number : Nat) : Bool :=
  0xd800 ≤ number && number < 0xdc00

def isLowSurrogate (number : Nat) : Bool :=
  0xdc00 ≤ number && number < 0xe000

/-- The text of the content of a string. Halves of surrogate pairs must come in pairs. -/
def decode : List StringUnit → Option (List Char)
  | [] => some []
  | .char c :: units => (decode units).map (c :: ·)
  | .code high :: .code low :: units =>
    if isHighSurrogate high then
      if isLowSurrogate low then
        (decode units).map (.ofNat (0x10000 + (high - 0xd800) * 0x400 + (low - 0xdc00)) :: ·)
      else none
    else if isLowSurrogate high then none
    else (decode (.code low :: units)).map (.ofNat high :: ·)
  | .code number :: units =>
    if isHighSurrogate number || isLowSurrogate number then none
    else (decode units).map (.ofNat number :: ·)

def text? (units : List StringUnit) : Option String :=
  (decode units).map String.ofList

/-! ### Numbers -/

def digits (input : List Char) : List Char :=
  input.takeWhile Char.isDigit

/-- The integer part at the start of a text: a zero, or digits that do not start with one. -/
def integerPart? (input : List Char) : Option (List Char) :=
  match digits input with
  | [] => none
  | '0' :: _ => some ['0']
  | run => some run

def fraction? (input : List Char) : Option (List Char) :=
  match input with
  | '.' :: rest => if (digits rest).isEmpty then none else some ('.' :: digits rest)
  | _ => some []

def exponent? (input : List Char) : Option (List Char) :=
  match input with
  | mark :: rest =>
    if mark = 'e' || mark = 'E' then
      match rest with
      | sign :: more =>
        if sign = '+' || sign = '-' then
          if (digits more).isEmpty then none else some (mark :: sign :: digits more)
        else if (digits rest).isEmpty then none
        else some (mark :: digits rest)
      | [] => none
    else some []
  | [] => some []

def number? (input : List Char) : Option (List Char) := do
  let sign := if input.head? = some '-' then ['-'] else []
  let unsigned := input.drop sign.length
  let whole ← integerPart? unsigned
  let afterWhole := unsigned.drop whole.length
  let fraction ← fraction? afterWhole
  let exponent ← exponent? (afterWhole.drop fraction.length)
  return sign ++ whole ++ fraction ++ exponent

/-! ### Values -/

def keyword? (first : Char) (rest : List Char) : Option (Parsed (first :: rest).length Node) :=
  let words := [("true".toList, Node.bool true), ("false".toList, Node.bool false),
    ("null".toList, Node.null)]
  match words.find? fun (word, _) => word.isPrefixOf (first :: rest) with
  | some (word, node) =>
    some ⟨node, rest.drop (word.length - 1), by simp only [List.length_drop, List.length_cons]; omega⟩
  | none => none

def numeral? (first : Char) (rest : List Char) : Option (Parsed (first :: rest).length Node) :=
  match number? (first :: rest) with
  | some literal =>
    some ⟨.number literal, rest.drop (literal.length - 1),
      by simp only [List.length_drop, List.length_cons]; omega⟩
  | none => none

mutual

def node (input : List Char) : Option (Parsed input.length Node) :=
  match input with
  | [] => none
  | c :: rest =>
    if isBlank c then
      (node rest).map (·.extend (Nat.le_succ _) id)
    else if c = '\x22' then
      (stringUnits rest).map (·.extend (Nat.le_succ _) fun units => .string (text? units))
    else if c = '[' then
      match expect ']' rest with
      | some ending => some (ending.extend (Nat.le_succ _) fun _ => .array [])
      | none => (elements rest).map (·.extend (Nat.le_succ _) .array)
    else if c = '\x7b' then
      match expect '\x7d' rest with
      | some ending => some (ending.extend (Nat.le_succ _) fun _ => .object [])
      | none => (members rest).map (·.extend (Nat.le_succ _) .object)
    else if c = '-' || c.isDigit then numeral? c rest
    else keyword? c rest
termination_by 2 * input.length

def elements (input : List Char) : Option (Parsed input.length (List Node)) :=
  match node input with
  | none => none
  | some ⟨element, afterElement, element_lt⟩ =>
    match expect ',' afterElement with
    | some ⟨_, more, more_lt⟩ =>
      (elements more).map (·.extend (by omega) (element :: ·))
    | none =>
      (expect ']' afterElement).map (·.extend (Nat.le_of_lt element_lt) fun _ => [element])
termination_by 2 * input.length + 1

def members (input : List Char) : Option (Parsed input.length (List (Option String × Node))) :=
  match expect '\x22' input with
  | none => none
  | some ⟨_, afterQuote, quote_lt⟩ =>
    match stringUnits afterQuote with
    | none => none
    | some ⟨units, afterKey, key_lt⟩ =>
      match expect ':' afterKey with
      | none => none
      | some ⟨_, afterColon, colon_lt⟩ =>
        match node afterColon with
        | none => none
        | some ⟨value, afterValue, value_lt⟩ =>
          match expect ',' afterValue with
          | some ⟨_, more, more_lt⟩ =>
            (members more).map (·.extend (by omega) ((text? units, value) :: ·))
          | none =>
            (expect '\x7d' afterValue).map
              (·.extend (by omega) fun _ => [(text? units, value)])
termination_by 2 * input.length + 1

end

def Node.ofString? (text : String) : Option Node :=
  match node text.toList with
  | some parsed => if parsed.rest.all isBlank then some parsed.value else none
  | none => none

end TaggedLisp.Json
