import TaggedLisp.Environment

/-!
# Scripts

A host program extends the language with routines of its own. Such a routine may use the operations
of the language and nothing else, so it is written down as a script: a sequence of operations in which
every step may depend on the outcomes before it. An operation that fails does not end a script; the
script sees the failure and goes on as it likes.
-/

set_option autoImplicit false

namespace TaggedLisp

inductive Operation where
  | symbol (name : String)
  | cons (head tail : Value)
  | listOf (elements : List Value)
  | head (list : Value)
  | tail (list : Value)
  | reverse (list : Value)
  | quote (value : Value)
  | unquote (value : Value)
  | addError (error : Error)
  | addLambda (lambda : Lambda)
  | parse (source : String)
  | define (symbol : Nat) (value : Value)
  | lookup (symbol : Nat)
  | eval (form : Value)
  | apply (lambda : Nat) (arguments : Value)

/-- A sequence of operations, each chosen after the outcomes of those before it. -/
inductive Script where
  | done (outcome : Except Error Value)
  | perform (operation : Operation) (next : Except Error Value → Script)
  | examine (next : Heap → Environment → Script)

namespace Script

def finish (operation : Operation) : Script :=
  .perform operation .done

def andThen (operation : Operation) (next : Value → Script) : Script :=
  .perform operation fun outcome =>
    match outcome with
    | .ok value => next value
    | .error error => .done (.error error)

end Script

/-- What the host program provides: for each number the routine that it stands for, which is given the
list of arguments. -/
structure Host where
  routine : Nat → Value → Script

def Host.none : Host where
  routine _ _ := .done (.error .undefined)

instance : Inhabited Host := ⟨Host.none⟩

end TaggedLisp
