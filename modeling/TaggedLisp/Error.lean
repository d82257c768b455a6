/-!
# Errors

Every failure that the language reports is an `Error`, one constructor for each cause with the data
that its message shows. `Error.kind` forgets that data, and `Error.message` is the text for people.
-/

set_option autoImplicit false

namespace TaggedLisp

def maxSymbolLength : Nat := 255

inductive SyntaxError where
  | unexpectedListEnd
  | unterminatedList
  /-- A quote mark before a closing parenthesis or the end of the source. -/
  | danglingQuote
deriving DecidableEq, Repr

def SyntaxError.message : SyntaxError → String
  | .unexpectedListEnd => "unexpected `)`"
  | .unterminatedList => "unterminated list"
  | .danglingQuote => "quote is not followed by a form"

inductive ErrorKind where
  | undefined
  | outOfMemory
  | invalidSymbolLength
  | symbolLimitExceeded
  | emptyListAccess
  | notAList
  | notQuoted
  | unbound
  | malformed
  | arityMismatch
  | redefinition
  | notCallable
  | environmentFull
deriving DecidableEq, Repr

def ErrorKind.name : ErrorKind → String
  | .undefined => "undefined"
  | .outOfMemory => "out-of-memory"
  | .invalidSymbolLength => "invalid-symbol-length"
  | .symbolLimitExceeded => "symbol-limit-exceeded"
  | .emptyListAccess => "empty-list-access"
  | .notAList => "not-a-list"
  | .notQuoted => "not-quoted"
  | .unbound => "unbound"
  | .malformed => "syntax"
  | .arityMismatch => "arity-mismatch"
  | .redefinition => "redefinition"
  | .notCallable => "not-callable"
  | .environmentFull => "environment-full"

inductive Error where
  | undefined
  | outOfMemory
  /-- A symbol name of `length` bytes is empty or too long. -/
  | invalidSymbolLength (length : Nat)
  /-- The symbol table already holds `limit` names. -/
  | symbolLimitExceeded (limit : Nat)
  | emptyListAccess (operation : String)
  | notAList
  | notQuoted
  | unbound (name : String)
  | malformed (reason : SyntaxError)
  | invalidToken (text : String)
  | arityMismatch (name : String) (expected given : Nat)
  | redefinition (name : String)
  | notCallable (name : String)
  | environmentFull (capacity : Nat)
deriving DecidableEq, Repr

namespace Error

/-- The category of an error. Invalid tokens count as malformed source. -/
def kind : Error → ErrorKind
  | .undefined => .undefined
  | .outOfMemory => .outOfMemory
  | .invalidSymbolLength _ => .invalidSymbolLength
  | .symbolLimitExceeded _ => .symbolLimitExceeded
  | .emptyListAccess _ => .emptyListAccess
  | .notAList => .notAList
  | .notQuoted => .notQuoted
  | .unbound _ => .unbound
  | .malformed _ | .invalidToken _ => .malformed
  | .arityMismatch .. => .arityMismatch
  | .redefinition _ => .redefinition
  | .notCallable _ => .notCallable
  | .environmentFull _ => .environmentFull

def isMalformed (error : Error) : Bool :=
  error.kind = .malformed

def message : Error → String
  | .undefined => "undefined"
  | .outOfMemory => "out of memory"
  | .invalidSymbolLength length =>
    s!"invalid symbol length {length} (expected 1 to {maxSymbolLength})"
  | .symbolLimitExceeded limit => s!"symbol limit of {limit} exceeded"
  | .emptyListAccess operation => s!"{operation} of empty list"
  | .notAList => "not a proper list"
  | .notQuoted => "not a quoted form"
  | .unbound name => s!"unbound symbol `{name}`"
  | .malformed reason => "syntax error: " ++ reason.message
  | .invalidToken text => s!"syntax error: invalid token `{text}`"
  | .arityMismatch name expected given =>
    s!"`{name}` expects {expected} argument(s), given {given}"
  | .redefinition name => s!"`{name}` is already defined"
  | .notCallable name => s!"`{name}` is not callable"
  | .environmentFull capacity => s!"environment is full ({capacity} bindings)"

end Error

end TaggedLisp
