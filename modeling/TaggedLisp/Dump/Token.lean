import TaggedLisp.Json.Text
import TaggedLisp.Text.Quoted
import TaggedLisp.Token

/-!
# Dumps of tokens

The tokens of a source as a table with one line for each, or as a JSON array.
-/

set_option autoImplicit false

namespace TaggedLisp

def TokenKind.name : TokenKind → String
  | .listStart => "ListStart"
  | .listEnd => "ListEnd"
  | .quote => "Quote"
  | .symbol => "Symbol"
  | .invalid => "Error"

namespace Token

def line (token : Token) : String :=
  Text.alignLeft 10 token.kind.name ++ " " ++ Text.alignRight 4 (toString token.start) ++ ".." ++
    Text.alignLeft 4 (toString token.stop) ++ " " ++ Text.quoted token.text ++ "\n"

def toJson (token : Token) : String :=
  Json.object
    [("kind", Json.string token.kind.name),
      ("text", Json.string token.text),
      ("span",
        Json.object [("start", Json.natural token.start), ("end", Json.natural token.stop)])]

end Token

end TaggedLisp
