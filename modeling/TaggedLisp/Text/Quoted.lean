import TaggedLisp.Text.Layout
import TaggedLisp.Text.Shapeless

/-!
# Quoted text in dumps

Dumps show text between double quotes, in a form that fits on one line and hides nothing: quotes and
backslashes get a backslash, and a character that does not show by itself is written as an escape.
-/

set_option autoImplicit false

namespace TaggedLisp.Text

def quotedChar (c : Char) : String :=
  match c with
  | '\x22' => "\\\""
  | '\\' => "\\\\"
  | '\x00' => "\\0"
  | '\t' => "\\t"
  | '\r' => "\\r"
  | '\n' => "\\n"
  | _ => if isShapeless c then "\\u\x7b" ++ hex c.toNat ++ "\x7d" else c.toString

def quoted (text : String) : String :=
  "\"" ++ String.join (text.toList.map quotedChar) ++ "\""

example : quoted "a\"b\u0085" = "\"a\\\"b\\u\x7b85\x7d\"" := by decide

end TaggedLisp.Text
