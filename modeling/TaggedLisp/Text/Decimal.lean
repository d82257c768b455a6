/-!
# Decimal numerals

The value of a run of ASCII digits.
-/

set_option autoImplicit false

namespace TaggedLisp.Text

/-- The value of a nonempty run of ASCII digits. Leading zeros are allowed; signs and separators are
not. -/
def decimal? (digits : List Char) : Option Nat :=
  if digits.isEmpty || !digits.all Char.isDigit then none
  else some (digits.foldl (fun value digit => 10 * value + (digit.toNat - '0'.toNat)) 0)

def decimal64? (digits : List Char) : Option Nat :=
  (decimal? digits).filter (· < 1 <<< 64)

example : decimal? ['0', '4', '2'] = some 42 := by decide

example : decimal? ['-', '1'] = none := by decide

end TaggedLisp.Text
