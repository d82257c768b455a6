import TaggedLisp.Token

/-! What the scanner promises of its tokens: the text of every symbol token is the text of a symbol,
so it is neither empty nor too long to be interned. -/

set_option autoImplicit false

namespace TaggedLisp.Token

def IsSpelled (token : Token) : Prop :=
  token.kind = .symbol → isSymbolText token.text.toList = true

theorem isSpelled_of_mem_ofRun {stop : Nat} {characters : List Char} {token : Token}
    (member : token ∈ ofRun stop characters) : token.IsSpelled := by
  unfold ofRun at member
  split at member
  · cases member
  · cases List.mem_singleton.mp member
    intro kind
    simpa using kind

theorem parenthesis?_ne_symbol {c : Char} {kind : TokenKind} (found : parenthesis? c = some kind) :
    kind ≠ .symbol := by
  intro isSymbol
  subst isSymbol
  unfold parenthesis? at found
  split at found
  · cases found
  · split at found <;> cases found

theorem isSpelled_of_mem_scan {position : Nat} {pending characters : List Char} {token : Token}
    (member : token ∈ scan position pending characters) : token.IsSpelled := by
  induction characters generalizing position pending with
  | nil => exact isSpelled_of_mem_ofRun member
  | cons c rest ih =>
      rw [scan] at member
      split at member
      · rcases List.mem_append.mp member with run | later
        · exact isSpelled_of_mem_ofRun run
        · exact ih later
      · split at member
        · next kind found =>
          rcases List.mem_append.mp member with run | later
          · exact isSpelled_of_mem_ofRun run
          · rcases List.mem_cons.mp later with rfl | later
            · exact fun symbol => absurd symbol (parenthesis?_ne_symbol found)
            · exact ih later
        · split at member
          · rcases List.mem_cons.mp member with rfl | later
            · intro symbol
              cases symbol
            · exact ih later
          · exact ih member

theorem isSpelled_of_mem_ofSource {source : String} {token : Token}
    (member : token ∈ ofSource source) : token.IsSpelled :=
  isSpelled_of_mem_scan member

theorem utf8ByteSize_ofList (characters : List Char) :
    (String.ofList characters).utf8ByteSize = byteLength characters := by
  induction characters with
  | nil => rfl
  | cons c characters ih =>
      rw [String.ofList_cons, String.utf8ByteSize_append, String.utf8ByteSize_singleton, ih]
      simp [byteLength]

/-- The text of a symbol has a length that can be interned. -/
theorem utf8ByteSize_of_isSymbolText {name : String}
    (isSymbol : isSymbolText name.toList = true) :
    name.isEmpty = false ∧ name.utf8ByteSize ≤ maxSymbolLength := by
  have size : name.utf8ByteSize = byteLength name.toList := by
    rw [← utf8ByteSize_ofList, String.ofList_toList]
  cases characters : name.toList with
  | nil =>
      rw [characters] at isSymbol
      cases isSymbol
  | cons first rest =>
      rw [characters] at isSymbol size
      simp only [isSymbolText, Bool.and_eq_true, decide_eq_true_eq] at isSymbol
      refine ⟨?_, size ▸ isSymbol.2⟩
      rw [Bool.eq_false_iff]
      intro empty
      simp [String.isEmpty_iff.mp empty] at characters

end TaggedLisp.Token
