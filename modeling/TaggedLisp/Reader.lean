import TaggedLisp.Heap.Quotation
import TaggedLisp.Token

/-!
# Reading forms

A reader turns tokens into forms, one top-level form at a time. A form is a symbol, a parenthesised
sequence of forms, or a quote mark before a form. Symbols are interned when their token is read, and
the cells of a list are allocated when its closing parenthesis is. A reader can go on after an error:
the tokens that were read are gone, and the nesting depth stays where it was.
-/

set_option autoImplicit false

namespace TaggedLisp

/-- A position in a token sequence, with the heap that forms are built in. -/
structure Reader where
  tokens : List Token
  heap : Heap
  /-- The number of lists opened and not closed. -/
  depth : Nat := 0

namespace Reader

def ofSource (heap : Heap) (source : String) : Reader where
  tokens := Token.ofSource source
  heap := heap

/-- What reading leaves behind: an outcome, and a reader with at most `limit` tokens. -/
structure Advance (limit : Nat) (α : Type) where
  outcome : Except Error α
  reader : Reader
  /-- Reading never puts tokens back. -/
  length_le : reader.tokens.length ≤ limit

mutual

def form (heap : Heap) (depth : Nat) (token : Token) (tokens : List Token) :
    Advance tokens.length Value :=
  match token.kind with
  | .symbol =>
    let (outcome, heap) := heap.symbol token.text
    ⟨outcome, { tokens, heap, depth }, Nat.le_refl _⟩
  | .listStart => elements heap (depth + 1) [] tokens
  | .listEnd => ⟨.error (.malformed .unexpectedListEnd), { tokens, heap, depth }, Nat.le_refl _⟩
  | .invalid => ⟨.error (.invalidToken token.text), { tokens, heap, depth }, Nat.le_refl _⟩
  | .quote =>
    match tokens with
    | [] => ⟨.error (.malformed .danglingQuote), { tokens := [], heap, depth }, Nat.le_refl _⟩
    | next :: rest =>
      if next.kind = .listEnd then
        ⟨.error (.malformed .danglingQuote), { tokens := rest, heap, depth }, Nat.le_succ _⟩
      else
        match form heap depth next rest with
        | ⟨.error error, after, length_le⟩ =>
          ⟨.error error, after, Nat.le_succ_of_le length_le⟩
        | ⟨.ok value, after, length_le⟩ =>
          let (outcome, heap) := after.heap.quote value
          ⟨outcome, { after with heap }, Nat.le_succ_of_le length_le⟩
termination_by 2 * tokens.length + 1

/-- Reads the forms up to the closing parenthesis of the innermost open list, and builds the list.
The elements read so far come last first. -/
def elements (heap : Heap) (depth : Nat) (readSoFar : List Value) (tokens : List Token) :
    Advance tokens.length Value :=
  match tokens with
  | [] => ⟨.error (.malformed .unterminatedList), { tokens := [], heap, depth }, Nat.le_refl _⟩
  | token :: rest =>
    if token.kind = .listEnd then
      let (outcome, heap) := heap.listOf readSoFar.reverse
      ⟨outcome, { tokens := rest, heap, depth := depth - 1 }, Nat.le_succ _⟩
    else
      match form heap depth token rest with
      | ⟨.error error, after, length_le⟩ =>
        ⟨.error error, after, Nat.le_succ_of_le length_le⟩
      | ⟨.ok value, after, length_le⟩ =>
        match elements after.heap after.depth (value :: readSoFar) after.tokens with
        | ⟨outcome, final, final_le⟩ =>
          ⟨outcome, final, Nat.le_succ_of_le (Nat.le_trans final_le length_le)⟩
termination_by 2 * tokens.length

end

def next? (reader : Reader) : Option (Except Error Value × Reader) :=
  match reader with
  | ⟨[], _, _⟩ => none
  | ⟨token :: rest, heap, depth⟩ =>
    let step := form heap depth token rest
    some (step.outcome, step.reader)

/-- Reads top-level forms up to the first error. -/
def forms (reader : Reader) : Except Error (List Value) × Reader :=
  match reader with
  | ⟨[], heap, depth⟩ => (.ok [], ⟨[], heap, depth⟩)
  | ⟨token :: rest, heap, depth⟩ =>
    match form heap depth token rest with
    | ⟨.error error, after, _⟩ => (.error error, after)
    | ⟨.ok value, after, _⟩ =>
      match after.forms with
      | (.ok values, final) => (.ok (value :: values), final)
      | (.error error, final) => (.error error, final)
termination_by reader.tokens.length
decreasing_by simp only [List.length_cons]; omega

/-- Reads every top-level form, going on after errors. With each outcome comes the depth after it. -/
def pulls (reader : Reader) : List (Except Error Value × Nat) × Reader :=
  match reader with
  | ⟨[], heap, depth⟩ => ([], ⟨[], heap, depth⟩)
  | ⟨token :: rest, heap, depth⟩ =>
    match form heap depth token rest with
    | ⟨outcome, after, _⟩ =>
      let (others, final) := after.pulls
      ((outcome, after.depth) :: others, final)
termination_by reader.tokens.length
decreasing_by simp only [List.length_cons]; omega

end Reader

namespace Heap

/-- The top-level forms of a source, in order. The first error of the source is answered instead; what
was allocated before it stays. -/
def readForms (heap : Heap) (source : String) : Except Error (List Value) × Heap :=
  let (outcome, reader) := (Reader.ofSource heap source).forms
  (outcome, reader.heap)

def parse (heap : Heap) (source : String) : Except Error Value × Heap :=
  match heap.readForms source with
  | (.ok forms, heap) => heap.listOf forms
  | (.error error, heap) => (.error error, heap)

end Heap

end TaggedLisp
