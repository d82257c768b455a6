import TaggedLisp.Text.Layout

/-!
# Writing JSON

JSON is written without white space. In strings only the double quote, the backslash and the
characters below the space are escaped; all others stand as they are.
-/

set_option autoImplicit false

namespace TaggedLisp.Json

def escapedChar (c : Char) : String :=
  match c with
  | '\x22' => "\\\""
  | '\\' => "\\\\"
  | '\x08' => "\\b"
  | '\x0c' => "\\f"
  | '\n' => "\\n"
  | '\r' => "\\r"
  | '\t' => "\\t"
  | _ => if c.toNat < 0x20 then "\\u" ++ Text.hexPadded 4 c.toNat else c.toString

def string (text : String) : String :=
  "\"" ++ String.join (text.toList.map escapedChar) ++ "\""

def array (items : List String) : String :=
  "[" ++ ",".intercalate items ++ "]"

def object (members : List (String × String)) : String :=
  "\x7b" ++ ",".intercalate (members.map fun (key, value) => string key ++ ":" ++ value) ++ "\x7d"

def natural (n : Nat) : String :=
  toString n

def bool (value : Bool) : String :=
  if value then "true" else "false"

example : string "a\"\x01" = "\"a\\\"\\u0001\"" := by decide

end TaggedLisp.Json
