import TaggedLisp.Text.Blank

/-!
# Commands

A line of input is a command if it starts with a backslash, white space at its ends aside. All other
lines are source text and are kept exactly as they were given.
-/

set_option autoImplicit false

namespace TaggedLisp

inductive Command where
  | help
  | quit
  | tokens
  | values
  | environment
  | stats
  | unknown (text : String)
  | eval (line : String)
deriving DecidableEq, Repr

namespace Command

def ofLine (line : String) : Command :=
  let text := Text.trim line
  if text = "\\h" then .help
  else if text = "\\q" then .quit
  else if text = "\\t" then .tokens
  else if text = "\\v" then .values
  else if text = "\\e" then .environment
  else if text = "\\s" then .stats
  else if text.toList.head? = some '\\' then .unknown text
  else .eval line

def summary : String :=
  "\n\\h    print this summary\n\\q    exit the REPL\n" ++
    "\\t    toggle the token dump of each line\n" ++
    "\\v    toggle the bit-level dump of each result\n" ++
    "\\e    list environment bindings\n\\s    print heap statistics\n\n"

end Command

end TaggedLisp
