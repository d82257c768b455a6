import TaggedLisp.Console.Render
import TaggedLisp.Proofs.Heap.WellFormed
import TaggedLisp.Proofs.Json.Written
import TaggedLisp.Proofs.Text.OneLine
import TaggedLisp.Proofs.Walks

/-! Data can be read back from their JSON, whatever texts are in them: the JSON of a datum spells a node,
and the key of its one member says how the rest of it is to be taken. So values with the same JSON
have the same datum. Their text does not tell as much, since a symbol may look like a list. -/

set_option autoImplicit false

namespace TaggedLisp

namespace Datum

open Json (Node)

mutual

def node : Datum → Node
  | .symbol name => .object [(some "Sym", .string (some name))]
  | .list elements => .object [(some "Lst", .array (nodeEach elements))]
  | .error message => .object [(some "Err", .string (some message))]
  | .lambda name arity =>
    .object [(some "Lambda", .object
      [(some "name", .string (some name)), (some "arity", .number (Nat.toDigits 10 arity))])]

def nodeEach : List Datum → List Node
  | [] => []
  | datum :: data => datum.node :: nodeEach data

end

mutual

/-- The datum that a node stands for, if there is one. -/
def ofNode? : Node → Option Datum
  | .object [(some "Sym", .string (some name))] => some (.symbol name)
  | .object [(some "Lst", .array elements)] => (ofNodes? elements).map .list
  | .object [(some "Err", .string (some message))] => some (.error message)
  | .object [(some "Lambda", .object
      [(some "name", .string (some name)), (some "arity", .number literal)])] =>
    (Text.decimal? literal).map (.lambda name)
  | _ => none

def ofNodes? : List Node → Option (List Datum)
  | [] => some []
  | node :: nodes => do
    let datum ← ofNode? node
    let data ← ofNodes? nodes
    return datum :: data

end

def ofJson? (text : String) : Option Datum := do
  ofNode? (← Node.ofString? text)

mutual

theorem spells_toJson (datum : Datum) : Json.Spells (.node datum.node) datum.toJson.toList := by
  cases datum with
  | symbol text | error text =>
      rw [node, toJson]
      exact Json.spells_object (.cons ⟨rfl, Json.spells_string text⟩ .nil)
  | list elements =>
      rw [node, toJson]
      exact Json.spells_object (.cons ⟨rfl, Json.spells_array (spells_toJsonEach elements)⟩ .nil)
  | lambda name arity =>
      rw [node, toJson]
      refine Json.spells_object (.cons ⟨rfl, Json.spells_object ?_⟩ .nil)
      exact .cons ⟨rfl, Json.spells_string name⟩ (.cons ⟨rfl, Json.spells_natural arity⟩ .nil)

theorem spells_toJsonEach (data : List Datum) :
    List.Forall₂ Json.SpellsItem (nodeEach data) (toJsonEach data) := by
  cases data with
  | nil =>
      rw [nodeEach, toJsonEach]
      exact .nil
  | cons datum data =>
      rw [nodeEach, toJsonEach]
      exact .cons (spells_toJson datum) (spells_toJsonEach data)

end

mutual

theorem ofNode?_node (datum : Datum) : ofNode? datum.node = some datum := by
  cases datum with
  | symbol | error => rw [node, ofNode?]
  | list elements =>
      rw [node, ofNode?, ofNodes?_nodeEach elements]
      rfl
  | lambda name arity =>
      rw [node, ofNode?, Text.decimal?_toDigits]
      rfl

theorem ofNodes?_nodeEach (data : List Datum) : ofNodes? (nodeEach data) = some data := by
  cases data with
  | nil => rw [nodeEach, ofNodes?]
  | cons datum data =>
      rw [nodeEach, ofNodes?, ofNode?_node datum, ofNodes?_nodeEach data]
      rfl

end

theorem ofJson?_toJson (datum : Datum) : ofJson? datum.toJson = some datum := by
  have read := datum.spells_toJson.isSpelledBy.ofString?
  simp only [ofJson?, read, bind, Option.bind, ofNode?_node]

theorem toJson_injective : Function.Injective toJson := by
  intro left right same
  have read := right.ofJson?_toJson
  rw [← same, left.ofJson?_toJson] at read
  exact Option.some.inj read

end Datum

namespace Heap

/-- The JSON of values says no more and no less than their data do, also if the values are in different
heaps. The datum can be read back from it, and so can every other datum, with any characters in its
texts. No line feed stands in it. -/
theorem WellFormed.json_lossless {leftHeap rightHeap : Heap} (leftWellFormed : leftHeap.WellFormed)
    (rightWellFormed : rightHeap.WellFormed) {left right : Value}
    (leftContained : leftHeap.contains left = true)
    (rightContained : rightHeap.contains right = true) :
    (∃ leftText rightText leftDatum rightDatum,
      OutputFormat.json.renderValue leftHeap left = .ok leftText ∧
      OutputFormat.json.renderValue rightHeap right = .ok rightText ∧
      leftHeap.toDatum left = .ok leftDatum ∧ rightHeap.toDatum right = .ok rightDatum ∧
      (leftText = rightText ↔ leftDatum = rightDatum) ∧
      Datum.ofJson? leftText = some leftDatum ∧ Datum.ofJson? rightText = some rightDatum ∧
      Text.IsOneLine leftText ∧ Text.IsOneLine rightText) ∧
    ∀ datum : Datum, Datum.ofJson? datum.toJson = some datum ∧ Text.IsOneLine datum.toJson := by
  have renders : ∀ {heap : Heap} {value : Value}, heap.WellFormed → heap.contains value = true →
      ∃ datum, OutputFormat.json.renderValue heap value = .ok datum.toJson ∧
        heap.toDatum value = .ok datum := by
    intro heap value wellFormed contained
    obtain ⟨tree, unfolds⟩ := wellFormed.exists_unfolds contained
    refine ⟨tree.datum, ?_, unfolds.toDatum⟩
    rw [OutputFormat.renderValue, unfolds.toDatum]
    rfl
  obtain ⟨leftDatum, leftRendered, leftFound⟩ := renders leftWellFormed leftContained
  obtain ⟨rightDatum, rightRendered, rightFound⟩ := renders rightWellFormed rightContained
  refine ⟨⟨_, _, leftDatum, rightDatum, leftRendered, rightRendered, leftFound, rightFound,
    Datum.toJson_injective.eq_iff, leftDatum.ofJson?_toJson, rightDatum.ofJson?_toJson,
    leftDatum.isOneLine_toJson, rightDatum.isOneLine_toJson⟩, fun datum => ?_⟩
  exact ⟨datum.ofJson?_toJson, datum.isOneLine_toJson⟩

/-- A symbol may have the text of the empty list. Its JSON tells the two apart. -/
theorem json_lossless_of_symbol_like_list :
    ∃ heap value text emptyText, heap.WellFormed ∧ heap.contains value = true ∧
      heap.display value = heap.display .emptyList ∧
      OutputFormat.json.renderValue heap value = .ok text ∧
      OutputFormat.json.renderValue heap .emptyList = .ok emptyText ∧ text ≠ emptyText ∧
      Datum.ofJson? text = some (.symbol "()") := by
  have created : Heap.new {} = .ok ((Heap.new {}).toOption.get (by decide)) := rfl
  have named : (((Heap.new {}).toOption.get (by decide)).symbol "()").2.symbols.name? 2 =
      some "()" := by
    decide +kernel
  have wellFormed := ((wellFormed_new created).keeps_symbol "()").wellFormed
  generalize (((Heap.new {}).toOption.get (by decide)).symbol "()").2 = heap at named wellFormed
  have symbol : heap.Unfolds (.symbol 2) (.symbol "()") := .symbol named
  have empty : heap.Unfolds .emptyList (.list []) := .emptyList
  have sameText : heap.display (.symbol 2) = heap.display .emptyList := by
    rw [symbol.display, empty.display]
    decide +kernel
  obtain ⟨⟨text, emptyText, datum, emptyDatum, rendered, emptyRendered, found, emptyFound, same,
    decoded, -⟩, -⟩ := wellFormed.json_lossless wellFormed symbol.contains empty.contains
  rw [symbol.toDatum, Tree.datum] at found
  rw [empty.toDatum, Tree.datum] at emptyFound
  cases found
  cases emptyFound
  refine ⟨heap, .symbol 2, text, emptyText, wellFormed, symbol.contains, sameText, rendered,
    emptyRendered, ?_, decoded⟩
  intro equal
  cases same.mp equal

end Heap

end TaggedLisp
