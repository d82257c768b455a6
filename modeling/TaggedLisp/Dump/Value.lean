import TaggedLisp.Heap.List
import TaggedLisp.Text.Quoted
import TaggedLisp.Word

/-!
# Dumps of values

A dump shows the word of a value field by field and then what the word refers to. The elements of a
list follow in order, each one level deeper, so a dump lists the values of a tree before their parts.
Every field is a line of its own whose indentation tells the level.
-/

set_option autoImplicit false

namespace TaggedLisp

structure DumpLine where
  level : Nat
  field : String
  content : String
deriving DecidableEq, Repr

namespace DumpLine

/-- The indentation of a level: eight columns for each, of which the last two are a mark. -/
def indentation (level : Nat) : String :=
  if level = 0 then "" else String.ofList (List.replicate (8 * level - 2) ' ') ++ "> "

def render (line : DumpLine) : String :=
  indentation line.level ++ Text.alignLeft 16 line.field ++ " " ++ line.content ++ "\n"

end DumpLine

namespace Word

def bitGroups (word : Word) : String :=
  let group (byte : Nat) : String :=
    String.ofList ((List.range 8).map fun bit =>
      if word.toNat.testBit (63 - (8 * byte + bit)) then '1' else '0')
  " ".intercalate ((List.range 8).map group)

def dump (level : Nat) (word : Word) : List DumpLine :=
  [⟨level, "decimal", toString word.toNat⟩,
    ⟨level, "hexadecimal", "0x" ++ Text.hexPadded 16 word.toNat⟩,
    ⟨level, "bits", word.bitGroups⟩,
    ⟨level, "storage", s!"{word.storage.name} ({word.storage.code})"⟩] ++
  (match word.immediateKind? with
    | some kind => [⟨level, "immediate type", s!"{kind.name} ({kind.code})"⟩]
    | none => []) ++
  (match word.boxedKind? with
    | some kind =>
      [⟨level, "boxed type", s!"{kind.name} ({kind.code})"⟩,
        ⟨level, "index", toString (word.toNat / 8)⟩]
    | none => [])

end Word

namespace Heap

/-- The dump of a value at a level, where lists are nested less than `depth` deep. -/
def dumpWithin (heap : Heap) : Nat → Nat → Value → Checked (List DumpLine)
  | 0, _, _ => .error .endless
  | depth + 1, level, value => do
    let content ← match value with
      | .internal cause => pure [⟨level, "error", (ofInternal cause).kind.name⟩]
      | .error record => do
        pure [⟨level, "error", (← heap.errorRecord record).message⟩]
      | .symbol id => do
        pure [⟨level, "symbol value", Text.quoted (← heap.name id)⟩]
      | .lambda record => do
        let lambda ← heap.lambda record
        pure [⟨level, "lambda", lambda.dump⟩, ⟨level, "arity", toString lambda.arity⟩]
      | .emptyList => pure []
      | .list _ => do
        let elements ← heap.elements value
        let dumps ← elements.mapM (heap.dumpWithin depth (level + 1))
        pure (⟨level, "list count", toString elements.length⟩ :: ⟨level, "list values", ""⟩ ::
          dumps.flatMap (⟨level + 1, "--------", ""⟩ :: ·))
    return value.word.dump level ++ content

/-- The lines of the dump of a value. Lists that are nested deeper than there are cells contain
themselves. -/
def dumpLines (heap : Heap) (value : Value) : Checked (List DumpLine) :=
  heap.dumpWithin (heap.cells.size + 1) 0 value

def describe (heap : Heap) (value : Value) : Checked String := do
  return String.join ((← heap.dumpLines value).map DumpLine.render)

end Heap

namespace Value

def viewText : Value → String
  | .internal .undefined => "Internal(Undefined)"
  | .internal .outOfMemory => "Internal(OutOfMemory)"
  | .emptyList => "EmptyList"
  | .error record => s!"Error(ErrorId({record}))"
  | .symbol id => s!"Symbol(SymId({id}))"
  | .list cell => s!"List(CellId({cell}))"
  | .lambda record => s!"Lambda(LambdaId({record}))"

def debugText (value : Value) : String :=
  value.viewText ++ "@0x" ++ Text.hex value.word.toNat

end Value

end TaggedLisp
