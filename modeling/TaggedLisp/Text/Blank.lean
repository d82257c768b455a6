/-!
# White space around command lines

The characters with the Unicode property of white space, and trimming by them. Characters without a
width, such as U+200B and U+FEFF, are no white space.
-/

set_option autoImplicit false

namespace TaggedLisp.Text

def blankCodePoints : List Nat :=
  [0x9, 0xa, 0xb, 0xc, 0xd, 0x20, 0x85, 0xa0, 0x1680, 0x2000, 0x2001, 0x2002, 0x2003, 0x2004, 0x2005,
    0x2006, 0x2007, 0x2008, 0x2009, 0x200a, 0x2028, 0x2029, 0x202f, 0x205f, 0x3000]

def isBlank (c : Char) : Bool :=
  blankCodePoints.contains c.toNat

def trim (text : String) : String :=
  String.ofList ((text.toList.dropWhile isBlank).reverse.dropWhile isBlank).reverse

example : blankCodePoints.length = 25 := by decide

example : trim "\t a b \n" = "a b" := by decide

end TaggedLisp.Text
