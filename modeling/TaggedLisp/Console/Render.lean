import TaggedLisp.Datum
import TaggedLisp.Display
import TaggedLisp.Dump.Token

/-!
# Rendered results

Results, token dumps and statistics are rendered as text for people or as JSON for programs. A
rendered result has no line feed at its end; a token dump is whole lines.
-/

set_option autoImplicit false

namespace TaggedLisp

inductive OutputFormat where
  | text
  | json
deriving DecidableEq, Repr, Inhabited

namespace OutputFormat

/-- A result. Text repeats the source notation after an arrow, and JSON is the datum. -/
def renderValue (format : OutputFormat) (heap : Heap) (value : Value) : Checked String :=
  match format with
  | .text => do return "=> " ++ (← heap.display value)
  | .json => do return (← heap.toDatum value).toJson

def renderTokens (format : OutputFormat) (source : String) : String :=
  match format with
  | .text => String.join ((Token.ofSource source).map Token.line)
  | .json => Json.array ((Token.ofSource source).map Token.toJson) ++ "\n"

def renderStats (format : OutputFormat) (stats : HeapStats) : String :=
  match format with
  | .text =>
    s!"symbols  {stats.symbols}\ncells    {stats.cells}\nlambdas  {stats.lambdas}\n" ++
      s!"errors   {stats.errors}"
  | .json =>
    Json.object
      [("symbols", Json.natural stats.symbols), ("cells", Json.natural stats.cells),
        ("lambdas", Json.natural stats.lambdas), ("errors", Json.natural stats.errors)]

end OutputFormat

end TaggedLisp
