import TaggedLisp.Settings

/-!
# Lambda records

A lambda has a name, takes a fixed number of arguments, and runs a routine. Three routines belong to
the language; all others are provided by the host program, which numbers them as it likes.
-/

set_option autoImplicit false

namespace TaggedLisp

inductive Routine where
  | quote
  | head
  | tail
  | host (id : Nat)
deriving DecidableEq, Repr

structure Lambda where
  name : String
  arity : Nat
  routine : Routine
deriving DecidableEq, Repr

namespace Lambda

def quote : Lambda := ⟨"quote", 1, .quote⟩

def head : Lambda := ⟨"head", 1, .head⟩

def tail : Lambda := ⟨"tail", 1, .tail⟩

/-- The builtins that an environment starts with, in the order in which they are bound. -/
def reserved (settings : Settings) : List Lambda :=
  if settings.listBuiltins then [quote, head, tail] else [quote]

def signature (lambda : Lambda) : String :=
  s!"{lambda.name}/{lambda.arity}"

def dump (lambda : Lambda) : String :=
  s!"Builtin({lambda.signature})"

end Lambda

end TaggedLisp
