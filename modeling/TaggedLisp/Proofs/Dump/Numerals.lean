import TaggedLisp.Dump.Value
import TaggedLisp.Proofs.Json.Written
import Mathlib.Data.Nat.Digits.Defs

/-! A dump writes every word three times: as a decimal number, in hexadecimal and as groups of bits. Each
of the three can be read for itself, and each gives the whole word back. -/

set_option autoImplicit false

namespace TaggedLisp

namespace Text

/-- The number that digits of a base stand for, the most significant first. -/
def numeral? (base : Nat) (digit? : Char → Option Nat) (digits : List Char) : Option Nat :=
  digits.foldlM (fun number c => (digit? c).map (base * number + ·)) 0

def bit? : Char → Option Nat
  | '0' => some 0
  | '1' => some 1
  | _ => none

theorem decimal?_toString (n : Nat) : decimal? (toString n).toList = some n := by
  rw [Nat.toString_eq_ofList_toDigits, String.toList_ofList, decimal?_toDigits]

theorem numeral?_concat {base number digit : Nat} {digit? : Char → Option Nat} {digits : List Char}
    {last : Char} (read : numeral? base digit? digits = some number)
    (readLast : digit? last = some digit) :
    numeral? base digit? (digits ++ [last]) = some (base * number + digit) := by
  rw [numeral?] at read ⊢
  simp [List.foldlM_append, read, readLast]

theorem numeral?_toDigits_sixteen (n : Nat) :
    numeral? 16 Json.hexDigit? (Nat.toDigits 16 n) = some n := by
  have digit : ∀ digit < 16, Json.hexDigit? digit.digitChar = some digit := by decide
  induction n using Nat.strongRecOn with
  | ind n ih =>
      rw [Nat.toDigits_eq_if (by decide)]
      split
      · next small =>
        have first : numeral? 16 Json.hexDigit? ([] ++ [n.digitChar]) = some (16 * 0 + n) :=
          numeral?_concat rfl (digit n small)
        simpa using first
      · next large =>
        have last := digit (n % 16) (Nat.mod_lt _ (by decide))
        rw [numeral?_concat (ih (n / 16) (by omega)) last, Nat.div_add_mod]

theorem numeral?_replicate_zero (count : Nat) (digits : List Char) :
    numeral? 16 Json.hexDigit? (List.replicate count '0' ++ digits) =
      numeral? 16 Json.hexDigit? digits := by
  have zero : Json.hexDigit? '0' = some 0 := rfl
  induction count with
  | zero => rfl
  | succ count ih =>
      rw [← ih, List.replicate_succ, List.cons_append, numeral?, List.foldlM_cons, zero]
      rfl

/-- The lowest bits of a number, the most significant of them first, are its remainder. -/
theorem numeral?_testBit (count n : Nat) :
    numeral? 2 bit? ((List.range count).map fun index =>
      if n.testBit (count - 1 - index) then '1' else '0') = some (n % 2 ^ count) := by
  induction count generalizing n with
  | zero => simp [numeral?, Nat.mod_one]
  | succ count ih =>
      -- All but the last bit are those of the half.
      have half : ∀ index ∈ List.range count,
          (if n.testBit (count + 1 - 1 - index) then '1' else '0') =
            if (n / 2).testBit (count - 1 - index) then '1' else '0' := by
        intro index member
        have below := List.mem_range.mp member
        rw [show count + 1 - 1 - index = count - 1 - index + 1 by omega, Nat.testBit_succ]
      have last : bit? (if n.testBit 0 then '1' else '0') = some (n % 2) := by
        rw [Nat.testBit_zero]
        rcases Nat.mod_two_eq_zero_or_one n with even | odd
        · simp [even, bit?]
        · simp [odd, bit?]
      rw [List.range_succ, List.map_append, List.map_congr_left half, List.map_singleton,
        Nat.add_sub_cancel, Nat.sub_self, numeral?_concat (ih (n / 2)) last, pow_succ', Nat.mod_mul,
        Nat.add_comm]

end Text

namespace Word

def ofNat? (n : Nat) : Option Word :=
  if n < 2 ^ 64 then some ⟨.ofNat n⟩ else none

def ofDecimal? (text : String) : Option Word :=
  (Text.decimal? text.toList).bind ofNat?

/-- The word of sixteen hexadecimal digits behind a mark. -/
def ofHexadecimal? (text : String) : Option Word :=
  match text.toList with
  | '0' :: 'x' :: digits =>
    if digits.length = 16 then (Text.numeral? 16 Json.hexDigit? digits).bind ofNat? else none
  | _ => none

/-- The word of eight groups of eight bits, the most significant first. -/
def ofBits? (text : String) : Option Word :=
  let groups := text.toList.splitOn ' '
  if groups.map List.length = List.replicate 8 8 then
    (Text.numeral? 2 Text.bit? groups.flatten).bind ofNat?
  else none

theorem toNat_lt (word : Word) : word.toNat < 2 ^ 64 :=
  word.bits.toNat_lt

theorem ofNat?_toNat (word : Word) : ofNat? word.toNat = some word := by
  rw [ofNat?, if_pos word.toNat_lt, toNat, UInt64.ofNat_toNat]

theorem ofDecimal?_toString (word : Word) : ofDecimal? (toString word.toNat) = some word := by
  rw [ofDecimal?, Text.decimal?_toString, Option.bind_some, ofNat?_toNat]

theorem ofHexadecimal?_hexPadded (word : Word) :
    ofHexadecimal? ("0x" ++ Text.hexPadded 16 word.toNat) = some word := by
  have fits : (Nat.toDigits 16 word.toNat).length ≤ 16 :=
    Nat.toDigits_length 16 word.toNat 16 (by decide) word.toNat_lt
  have shown : ("0x" ++ Text.hexPadded 16 word.toNat).toList =
      '0' :: 'x' :: (Nat.toDigits 16 word.toNat).leftpad 16 '0' := by
    simp [Text.hexPadded]
  have width : ((Nat.toDigits 16 word.toNat).leftpad 16 '0').length = 16 := by
    rw [List.length_leftpad, Nat.max_eq_left fits]
  simp only [ofHexadecimal?, shown, width, ↓reduceIte]
  rw [List.leftpad, Text.numeral?_replicate_zero, Text.numeral?_toDigits_sixteen, Option.bind_some,
    ofNat?_toNat]

def bitGroup (word : Word) (byte : Nat) : List Char :=
  (List.range 8).map fun bit => if word.toNat.testBit (63 - (8 * byte + bit)) then '1' else '0'

theorem splitOn_bitGroups (word : Word) :
    word.bitGroups.toList.splitOn ' ' = (List.range 8).map word.bitGroup := by
  have written : word.bitGroups.toList = [' '].intercalate ((List.range 8).map word.bitGroup) := by
    simp only [bitGroups, String.toList_intercalate, List.map_map, Function.comp_def,
      String.toList_ofList]
    rfl
  have unbroken : ∀ group ∈ (List.range 8).map word.bitGroup, ' ' ∉ group := by
    intro group member blank
    obtain ⟨byte, -, rfl⟩ := List.mem_map.mp member
    obtain ⟨bit, -, same⟩ := List.mem_map.mp blank
    split at same <;> cases same
  rw [written, List.splitOn_intercalate ' ' unbroken (by simp)]

theorem ofBits?_bitGroups (word : Word) : ofBits? word.bitGroups = some word := by
  have groups : ((List.range 8).map word.bitGroup).map List.length = List.replicate 8 8 := by
    simp [bitGroup, Function.comp_def]
  have bits : ((List.range 8).map word.bitGroup).flatten =
      (List.range 64).map fun index =>
        if word.toNat.testBit (64 - 1 - index) then '1' else '0' :=
    rfl
  rw [ofBits?]
  simp only [splitOn_bitGroups, groups, ↓reduceIte]
  rw [bits, Text.numeral?_testBit, Nat.mod_eq_of_lt word.toNat_lt, Option.bind_some, ofNat?_toNat]

end Word

end TaggedLisp
