/-!
# Layout of text columns

Numbers in hexadecimal, and fields filled with spaces to a width. The width counts characters.
-/

set_option autoImplicit false

namespace TaggedLisp.Text

def hex (n : Nat) : String :=
  String.ofList (Nat.toDigits 16 n)

def hexPadded (width n : Nat) : String :=
  String.ofList ((Nat.toDigits 16 n).leftpad width '0')

def alignLeft (width : Nat) (text : String) : String :=
  String.ofList (text.toList.rightpad width ' ')

def alignRight (width : Nat) (text : String) : String :=
  String.ofList (text.toList.leftpad width ' ')

example : hexPadded 4 0x2b = "002b" := by decide

example : alignLeft 4 "ab" = "ab  " := by decide

example : alignRight 4 "123456" = "123456" := by decide

end TaggedLisp.Text
