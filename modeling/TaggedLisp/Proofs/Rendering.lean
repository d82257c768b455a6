import TaggedLisp.Console.Render
import TaggedLisp.Proofs.Heap.WellFormed
import TaggedLisp.Proofs.Walks

/-! The text of a value can be told from its datum alone, so results in text and in JSON describe the
same tree. The text walks through the cells and has cases of its own for the empty list and for internal
errors; the datum forgets which of the two it was. -/

set_option autoImplicit false

namespace TaggedLisp

namespace Datum

def lambdaText (name : String) (arity : Nat) : String :=
  "#lambda<builtin:" ++ name ++ "/" ++ toString arity ++ ">"

mutual

/-- The text that a datum says. -/
def text : Datum → String
  | .symbol name => name
  | .list elements => "(" ++ " ".intercalate (textEach elements) ++ ")"
  | .error message => "#error<" ++ message ++ ">"
  | .lambda name arity => lambdaText name arity

def textEach : List Datum → List String
  | [] => []
  | datum :: data => datum.text :: textEach data

end

end Datum

namespace Tree

/-- What the text of an internal error says is the name of its category. -/
theorem text_internal (cause : InternalError) :
    (Tree.internal cause).text = "#error<" ++ (Heap.ofInternal cause).kind.name ++ ">" := by
  cases cause with
  | undefined =>
      simp only [text]
      rfl
  | outOfMemory =>
      simp only [text]
      rfl

theorem text_lambda (record : Nat) (contents : Lambda) :
    (Tree.lambda record contents).text = Datum.lambdaText contents.name contents.arity := by
  rw [text]
  unfold Lambda.display Lambda.signature Datum.lambdaText
  simp only [toString, String.append_assoc]

mutual

theorem text_datum (tree : Tree) : tree.datum.text = tree.text := by
  cases tree with
  | internal cause => simp only [datum, Datum.text, text_internal]
  | lambda record contents => simp only [datum, Datum.text, text_lambda]
  | list elements => simp only [datum, Datum.text, text, textEach_datumEach elements]
  | error | symbol => simp only [datum, Datum.text, text]

theorem textEach_datumEach (trees : List Tree) :
    Datum.textEach (datumEach trees) = textEach trees := by
  cases trees with
  | nil => simp only [datumEach, Datum.textEach, textEach]
  | cons tree trees =>
      simp only [datumEach, Datum.textEach, textEach, text_datum tree, textEach_datumEach trees]

end

end Tree

namespace Heap

/-- Of every value in the stores the text is the text of the datum, and both can be had. Results are
rendered as just these two. -/
theorem WellFormed.renders_datum {heap : Heap} (wellFormed : heap.WellFormed) {value : Value}
    (contained : heap.contains value = true) :
    ∃ datum, heap.toDatum value = .ok datum ∧ heap.display value = .ok datum.text ∧
      OutputFormat.text.renderValue heap value = .ok ("=> " ++ datum.text) ∧
      OutputFormat.json.renderValue heap value = .ok datum.toJson := by
  obtain ⟨tree, unfolds⟩ := wellFormed.exists_unfolds contained
  have datum := unfolds.toDatum
  have shown := unfolds.display
  rw [← tree.text_datum] at shown
  refine ⟨tree.datum, datum, shown, ?_, ?_⟩
  · rw [OutputFormat.renderValue, shown]
    rfl
  · rw [OutputFormat.renderValue, datum]
    rfl

/-- A list of an internal error, an error with a record, a lambda and an empty list. -/
theorem renders_datum_of_mixed_list :
    ∃ heap value datum, heap.WellFormed ∧ heap.contains value = true ∧
      heap.toDatum value = .ok datum ∧
      datum.text =
        "(#error<out-of-memory> #error<unbound symbol `x`> #lambda<builtin:head/1> ())" ∧
      OutputFormat.text.renderValue heap value = .ok ("=> " ++ datum.text) ∧
      OutputFormat.json.renderValue heap value = .ok datum.toJson := by
  have created : Heap.new {} = .ok ((Heap.new {}).toOption.get (by decide)) := rfl
  let withLambda := (((Heap.new {}).toOption.get (by decide)).addLambda .head).2
  let withError := (withLambda.addError (.unbound "x")).2
  let list := withError.listOf [.internal .outOfMemory, .error 0, .lambda 0, .emptyList]
  have checked : list.2.contains (.list 3) = true ∧ list.2.display (.list 3) = .ok
      "(#error<out-of-memory> #error<unbound symbol `x`> #lambda<builtin:head/1> ())" := by
    decide +kernel
  have wellFormed : list.2.WellFormed := by
    have first := ((wellFormed_new created).keeps_addLambda .head).wellFormed
    have second := (first.keeps_addError (.unbound "x")).wellFormed
    exact (second.keeps_listOf (by decide +kernel)).wellFormed
  obtain ⟨contained, expected⟩ := checked
  obtain ⟨datum, found, shown, text, json⟩ := wellFormed.renders_datum contained
  rw [shown] at expected
  exact ⟨_, _, datum, wellFormed, contained, found, Except.ok.inj expected, text, json⟩

end Heap

end TaggedLisp
