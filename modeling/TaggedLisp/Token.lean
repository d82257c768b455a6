import TaggedLisp.Error

/-!
# Tokens

A source text is scanned up to its first NUL. Parentheses are tokens of their own, and so is a quote
mark that does not stand inside a run. Every other token is a run of characters that are neither
blank nor parentheses, as long as possible; the whole run is a symbol or it is invalid. Spans are
byte offsets into the text.
-/

set_option autoImplicit false

namespace TaggedLisp

inductive TokenKind where
  | listStart
  | listEnd
  | quote
  | symbol
  | invalid
deriving DecidableEq, Repr

/-- A token with its text and the half-open byte range that it covers. -/
structure Token where
  kind : TokenKind
  text : String
  start : Nat
  stop : Nat
deriving DecidableEq, Repr

namespace Token

/-- The characters that separate tokens: space, tab, line feed, carriage return, vertical tab and form
feed. No other white space separates. -/
def isBlank (c : Char) : Bool :=
  c ∈ [' ', '\t', '\n', '\r', '\x0b', '\x0c']

def quoteMark : Char := '\x27'

def parenthesis? (c : Char) : Option TokenKind :=
  if c = '(' then some .listStart else if c = ')' then some .listEnd else none

/-- The characters a symbol may start with: ASCII letters and some punctuation. -/
def isSymbolStart (c : Char) : Bool :=
  c.isAlpha || c ∈ ['<', '_', '-', '/', '*', '>', '!', '?']

/-- The characters a symbol may go on with: those it may start with, and ASCII digits. -/
def isSymbolPart (c : Char) : Bool :=
  isSymbolStart c || c.isDigit

def byteLength : List Char → Nat
  | [] => 0
  | c :: rest => c.utf8Size + byteLength rest

/-- Whether a run of characters is a symbol: it starts like one, goes on like one, and is not too
long. -/
def isSymbolText : List Char → Bool
  | [] => false
  | first :: rest =>
    isSymbolStart first && rest.all isSymbolPart && byteLength (first :: rest) ≤ maxSymbolLength

/-- The token of a run that ends at byte `stop`, or no token if the run is empty. -/
def ofRun (stop : Nat) (run : List Char) : List Token :=
  if run.isEmpty then []
  else
    [{ kind := if isSymbolText run then .symbol else .invalid
       text := String.ofList run
       start := stop - byteLength run
       stop }]

/-- Scans the characters that follow byte `position`. The run that `position` ends comes last
character first in `pending`, and is empty between tokens. -/
def scan (position : Nat) (pending : List Char) : List Char → List Token
  | [] => ofRun position pending.reverse
  | c :: rest =>
    let next := position + c.utf8Size
    if isBlank c then
      ofRun position pending.reverse ++ scan next [] rest
    else
      match parenthesis? c with
      | some kind =>
        ofRun position pending.reverse ++ ⟨kind, c.toString, position, next⟩ :: scan next [] rest
      | none =>
        if c = quoteMark && pending.isEmpty then
          ⟨.quote, c.toString, position, next⟩ :: scan next [] rest
        else
          scan next (c :: pending) rest

/-- The part of a source that is scanned: what comes before the first NUL. -/
def readable (source : String) : List Char :=
  source.toList.takeWhile (· ≠ '\x00')

def ofSource (source : String) : List Token :=
  scan 0 [] (readable source)

def endOffset (source : String) : Nat :=
  byteLength (readable source)

end Token

end TaggedLisp
