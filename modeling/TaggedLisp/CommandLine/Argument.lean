/-!
# Arguments

The form of a single command-line argument, before any option is known. Arguments that start with a
dash are options, except for the lone dash, which is an ordinary word.
-/

set_option autoImplicit false

namespace TaggedLisp

inductive Argument where
  | terminator
  | long (name : String) (attached? : Option String)
  | short (letters : List Char)
  | word (text : String)
deriving DecidableEq, Repr

namespace Argument

def trimStart (unwanted : Char) (text : List Char) : List Char :=
  text.dropWhile (· = unwanted)

/-- A name and the value after the first equals sign, if there is one. More equals signs at the start
of the value do not count. -/
def splitValue (text : List Char) : Argument :=
  let name := String.ofList (text.takeWhile (· ≠ '='))
  match text.dropWhile (· ≠ '=') with
  | [] => .long name none
  | _ :: value => .long name (some (String.ofList (trimStart '=' value)))

/-- The form of an argument. Two dashes or more start a full name. -/
def ofString (text : String) : Argument :=
  match text.toList with
  | ['-', '-'] => .terminator
  | '-' :: '-' :: rest => splitValue (trimStart '-' rest)
  | '-' :: letter :: rest => .short (letter :: rest)
  | _ => .word text

def isWord : Argument → Bool
  | .word _ => true
  | _ => false

example : ofString "--limit==4" = .long "limit" (some "4") := by decide

example : ofString "---json" = .long "json" none := by decide

example : ofString "-" = .word "-" := by decide

end Argument

end TaggedLisp
