import TaggedLisp.Proofs.Reader.Agreement
import TaggedLisp.Proofs.Reader.Printed
import TaggedLisp.Proofs.Text.OneLine

/-! A line feed separates tokens, so no token has one, and neither has the text of a form that was read
or the message of an error in a source. -/

set_option autoImplicit false

namespace TaggedLisp

open Text

/-! ## Tokens -/

namespace Token

theorem isOneLine_of_isSymbolText {name : String}
    (isSymbol : isSymbolText name.toList = true) : IsOneLine name := by
  intro feed
  cases characters : name.toList with
  | nil =>
      rw [characters] at feed
      cases feed
  | cons first rest =>
      rw [characters] at isSymbol feed
      simp only [isSymbolText, Bool.and_eq_true, List.all_eq_true] at isSymbol
      rcases List.mem_cons.mp feed with same | later
      · subst same
        exact absurd isSymbol.1.1 (by decide)
      · exact absurd (isSymbol.1.2 _ later) (by decide)

theorem isOneLine_of_mem_ofRun {stop : Nat} {run : List Char} {token : Token}
    (unbroken : '\n' ∉ run) (member : token ∈ ofRun stop run) : IsOneLine token.text := by
  unfold ofRun at member
  split at member
  · cases member
  · cases List.mem_singleton.mp member
    simpa [IsOneLine] using unbroken

theorem isOneLine_of_mem_scan {position : Nat} {pending characters : List Char} {token : Token}
    (unbroken : '\n' ∉ pending) (member : token ∈ scan position pending characters) :
    IsOneLine token.text := by
  induction characters generalizing position pending with
  | nil => exact isOneLine_of_mem_ofRun (by simpa using unbroken) member
  | cons c rest ih =>
      have ofRun {stop : Nat} (run : token ∈ ofRun stop pending.reverse) : IsOneLine token.text :=
        isOneLine_of_mem_ofRun (by simpa using unbroken) run
      have none : '\n' ∉ ([] : List Char) := List.not_mem_nil
      rw [scan] at member
      split at member
      · rcases List.mem_append.mp member with run | later
        · exact ofRun run
        · exact ih none later
      · next notBlank =>
        have notFeed : '\n' ≠ c := by
          rintro rfl
          exact notBlank (by decide)
        have single : IsOneLine c.toString := by simpa [IsOneLine] using notFeed
        split at member
        · rcases List.mem_append.mp member with run | later
          · exact ofRun run
          · rcases List.mem_cons.mp later with rfl | later
            · exact single
            · exact ih none later
        · split at member
          · rcases List.mem_cons.mp member with rfl | later
            · exact single
            · exact ih none later
          · exact ih (List.not_mem_cons_of_ne_of_not_mem notFeed unbroken) member

theorem isOneLine_of_mem_ofSource {source : String} {token : Token}
    (member : token ∈ ofSource source) : IsOneLine token.text :=
  isOneLine_of_mem_scan (by simp) member

end Token

/-! ## Trees -/

namespace Tree

/-- A tree of lists, lambdas and symbols whose names have no line feed. -/
inductive OneLine : Tree → Prop where
  | symbol {name : String} : IsOneLine name → OneLine (.symbol name)
  | lambda {record : Nat} {contents : Lambda} : IsOneLine contents.name →
      OneLine (.lambda record contents)
  | list {elements : List Tree} : (∀ element ∈ elements, OneLine element) →
      OneLine (.list elements)

theorem OneLine.each {elements : List Tree} (oneLine : (Tree.list elements).OneLine) :
    ∀ element ∈ elements, element.OneLine := by
  cases oneLine with
  | list each => exact each

theorem OneLine.name {name : String} (oneLine : (Tree.symbol name).OneLine) : IsOneLine name := by
  cases oneLine with
  | symbol plain => exact plain

theorem OneLine.text {tree : Tree} (oneLine : tree.OneLine) : IsOneLine tree.text := by
  induction oneLine with
  | symbol plain =>
      rw [Tree.text]
      exact plain
  | @lambda record contents plain =>
      have signature : IsOneLine contents.signature := by
        unfold Lambda.signature
        simp only [isOneLine_append]
        exact ⟨⟨plain, by decide⟩, isOneLine_toString contents.arity⟩
      rw [Tree.text]
      unfold Lambda.display
      simp only [isOneLine_append]
      exact ⟨⟨by decide, signature⟩, by decide⟩
  | list _ ih =>
      rw [Tree.text, textEach_eq_map]
      simp only [isOneLine_append]
      refine ⟨⟨by decide, isOneLine_intercalate (by decide) fun text member => ?_⟩, by decide⟩
      obtain ⟨element, inside, rfl⟩ := List.mem_map.mp member
      exact ih element inside

mutual

theorem oneLine_of_isReadable (tree : Tree) (readable : tree.isReadable = true) : tree.OneLine := by
  cases tree with
  | symbol name =>
      rw [isReadable] at readable
      exact .symbol (Token.isOneLine_of_isSymbolText readable)
  | list elements =>
      rw [isReadable] at readable
      exact .list (oneLine_of_isReadableEach elements readable)
  | _ => simp [isReadable] at readable

theorem oneLine_of_isReadableEach (trees : List Tree) (readable : isReadableEach trees = true) :
    ∀ tree ∈ trees, tree.OneLine := by
  cases trees with
  | nil => simp
  | cons tree trees =>
      rw [isReadableEach, Bool.and_eq_true] at readable
      exact List.forall_mem_cons.mpr
        ⟨oneLine_of_isReadable tree readable.1, oneLine_of_isReadableEach trees readable.2⟩

end

end Tree

/-! ## Errors in a source -/

theorem Error.isOneLine_of_isLimit {error : Error} (limit : error.isLimit = true) :
    IsOneLine error.message := by
  refine Error.isOneLine_message fun text member => ?_
  cases error with
  | outOfMemory | symbolLimitExceeded => cases member
  | _ => cases limit

theorem Pushdown.isOneLine_of_run {state : Pushdown} {tokens : List Token} {error : Error}
    (each : ∀ token ∈ tokens, IsOneLine token.text) (stuck : state.run tokens = .error error) :
    IsOneLine error.message := by
  have malformed (reason : SyntaxError) : IsOneLine (Error.malformed reason).message :=
    Error.isOneLine_message (by simp [Error.quotes])
  induction tokens generalizing state with
  | nil =>
      simp only [run, finish] at stuck
      split at stuck <;> cases stuck
      · exact malformed .unterminatedList
      · exact malformed .danglingQuote
  | cons token tokens ih =>
      obtain ⟨plain, others⟩ := List.forall_mem_cons.mp each
      rw [run] at stuck
      split at stuck
      · exact ih others stuck
      · next failure failed =>
        cases stuck
        unfold step at failed
        split at failed <;> cases failed
        · exact Error.isOneLine_message (List.forall_mem_singleton.mpr plain)
        · exact malformed .danglingQuote
        · exact malformed .unexpectedListEnd

theorem Heap.isOneLine_of_readForms {heap after : Heap} (keywords : heap.KeywordsNamed)
    {source : String} {error : Error} (unread : heap.readForms source = (.error error, after)) :
    IsOneLine error.message := by
  rcases keywords.stuck_of_unread unread with limit | stuck
  · exact Error.isOneLine_of_isLimit limit
  · exact Pushdown.isOneLine_of_run (fun _ => Token.isOneLine_of_mem_ofSource) stuck

end TaggedLisp
