import TaggedLisp.Console.Session
import TaggedLisp.Proofs.Evaluation.Language
import TaggedLisp.Proofs.Evaluation.Stock
import TaggedLisp.Proofs.Reader.Pieces

/-! A text that is evaluated at once and the same text evaluated in pieces come to the same. The cells
are allocated in another order, so values correspond only as trees do; but the same number of cells
is allocated in all, and symbols get the same numbers, since names are interned in the order of the
text either way. -/

set_option autoImplicit false

namespace TaggedLisp

/-! ## Listings -/

def Heap.entry (heap : Heap) (binding : Nat × Value) : Checked (String × String) := do
  let name ← heap.name binding.1
  return (name, ← heap.display binding.2)

/-- The names that are bound with the texts of their values, in the order of the listing. -/
def Machine.listing (machine : Machine) : Checked (List (String × String)) :=
  machine.environment.bindings.mapM machine.heap.entry

/-- What is listed for a symbol. -/
def Bindings.entry? (bindings : Bindings) (symbols : SymbolTable) (symbol : Nat) :
    Option (String × String) :=
  (symbols.name? symbol).bind fun name =>
    (bindings.tree? name).map fun tree => (name, tree.text)

namespace Environment

variable {environment : Environment} {heap : Heap} {bindings : Bindings}

/-- What is listed for the symbols that are bound, one after the other. -/
def entries (environment : Environment) (symbols : SymbolTable) (bindings : Bindings) :
    List (String × String) :=
  (environment.bindings.map Prod.fst).filterMap (bindings.entry? symbols)

/-- Whatever is made of the names and the texts of the values is made of the entries. -/
theorem Unfolds.mapM_bindings (unfolds : environment.Unfolds heap bindings) {α : Type}
    (render : Nat × Value → Checked α) (line : String × String → α)
    (renders : ∀ symbol value name text, heap.name symbol = .ok name →
      heap.display value = .ok text → render (symbol, value) = .ok (line (name, text))) :
    environment.bindings.mapM render =
      .ok ((environment.entries heap.symbols bindings).map line) := by
  have known : ∀ binding ∈ environment.bindings, environment.find? binding.1 = some binding.2 := by
    intro binding member
    exact mem_bindings_iff.mp member
  unfold entries
  generalize environment.bindings = listed at known
  induction listed with
  | nil => rfl
  | cons binding listed ih =>
      obtain ⟨symbol, value⟩ := binding
      obtain ⟨found, others⟩ := List.forall_mem_cons.mp known
      obtain ⟨name, _, named, _⟩ := unfolds.total _ _ found
      obtain ⟨tree, bound, valueUnfolds⟩ := unfolds.find?_of_some named found
      have entry : bindings.entry? heap.symbols symbol = some (name, tree.text) := by
        rw [Bindings.entry?, named, Option.bind_some, bound, Option.map_some]
      have rendered := renders symbol value name tree.text (Heap.name_of_some named)
        valueUnfolds.display
      rw [List.mapM_cons, ih others, rendered, List.map_cons, List.filterMap_cons_some entry]
      rfl

end Environment

namespace Machine

variable {machine : Machine} {bindings : Bindings}

theorem bindingLines_eq (unfolds : machine.environment.Unfolds machine.heap bindings) :
    Session.bindingLines machine =
      .ok ((machine.environment.entries machine.heap.symbols bindings).map
          (fun entry => .line (Text.alignLeft 16 entry.1 ++ " " ++ entry.2)) ++
        [.line s!"{bindings.size} of {bindings.capacity} bindings used"]) := by
  rw [unfolds.size, unfolds.capacity]
  dsimp only [Session.bindingLines]
  rw [unfolds.mapM_bindings _ (fun entry => .line (Text.alignLeft 16 entry.1 ++ " " ++ entry.2))]
  · rfl
  · intro symbol value name text named displayed
    simp only [Session.bindingLine, named, displayed]
    rfl

end Machine

/-! ## Cutting a text -/

/-- A text is cut into pieces at blanks. Every piece but the last consists of complete forms. -/
inductive InPieces : String → List String → Prop where
  | whole {text : String} : InPieces text [text]
  | cut {first blanks rest : String} {trees : List Tree} {pieces : List String} :
      '\x00' ∉ first.toList → SpellsEach (Token.ofSource first) trees → blanks ≠ "" →
      (∀ c ∈ blanks.toList, Token.isBlank c = true) → InPieces rest pieces →
      InPieces (first ++ blanks ++ rest) (first :: pieces)

variable {text : String} {pieces : List String}

theorem InPieces.symbolTexts (inPieces : InPieces text pieces) :
    Token.symbolTexts (Token.ofSource text) =
      pieces.flatMap fun piece => Token.symbolTexts (Token.ofSource piece) := by
  induction inPieces with
  | whole => simp
  | cut noNul _ nonempty blank _ ih =>
      rw [Token.ofSource_append noNul nonempty blank, Token.symbolTexts_append,
        Token.symbolTexts_map_shift, ih, List.flatMap_cons]

/-! ## Evaluating piece by piece -/

namespace Machine

variable {host : Host} {routines : Set Nat} {spare : Nat} {machine left right after : Machine}

/-- When the right machine reads what the left one has read ahead, it catches up with it. -/
theorem Alike.read {part : List Tree}
    (alike : left.Alike routines (Tree.cellSum part + spare) right) {piece : String}
    {forms : List Value} {heap : Heap} (exactly : right.heap.ReadsExactly piece part forms heap)
    (ahead : heap.symbols.GrowsTo left.heap.symbols) :
    left.Alike routines spare { right with heap } where
  leftKeywords := alike.leftKeywords
  rightKeywords := alike.rightKeywords.grow exactly.uses.growsTo
  withinLimits := alike.withinLimits
  maxCells := exactly.uses.growsTo.maxCells.trans alike.maxCells
  cells := by
    rw [alike.cells, exactly.size, Nat.add_assoc]
  symbols := ahead
  lambdas := exactly.lambdas.trans alike.lambdas
  errors := exactly.errors.trans alike.errors
  offersOnly := alike.offersOnly
  environments := by
    obtain ⟨bindings, unfolds, otherUnfolds⟩ := alike.environments
    exact ⟨bindings, unfolds, otherUnfolds.grow exactly.uses.growsTo⟩

end Machine

end TaggedLisp
