import TaggedLisp.Proofs.Scan.LongestMatch

/-! What a token is does not depend on the rest of the source, once it is delimited: scanned on its
own, the text of each token is that token again. Joined by blanks, the texts of some tokens are
therefore scanned to tokens that differ in their places only. -/

set_option autoImplicit false

namespace TaggedLisp

namespace Token

/-- A token without its place. -/
def spelling (token : Token) : TokenKind × String :=
  (token.kind, token.text)

theorem map_spelling_shift (distance : Nat) (tokens : List Token) :
    (tokens.map (shift distance)).map spelling = tokens.map spelling := by
  rw [List.map_map]
  rfl

/-- On its own, the text of a token is a source with this token only. -/
structure StandsAlone (token : Token) : Prop where
  noNul : '\x00' ∉ token.text.toList
  scanned : ofSource token.text =
    [{ token with start := 0, stop := byteLength token.text.toList }]

theorem not_mem_readable (source : String) : '\x00' ∉ readable source := by
  intro member
  simpa using List.mem_takeWhile_imp member

end Token

open Token

theorem TokenRule.IsLongest.standsAlone {rule : TokenRule} {kind : TokenKind}
    {lexeme rest : List Char} (longest : rule.IsLongest lexeme rest)
    (named : rule.kind? lexeme = some kind) (noNul : '\x00' ∉ lexeme) (start stop : Nat) :
    StandsAlone ⟨kind, String.ofList lexeme, start, stop⟩ := by
  have noNulText : '\x00' ∉ (String.ofList lexeme).toList := by
    rwa [String.toList_ofList]
  have munches : Munches 0 (lexeme ++ []) _ := .token longest.alone named .done
  refine ⟨noNulText, ?_⟩
  rw [ofSource, readable_eq_toList noNulText, String.toList_ofList, ← List.append_nil lexeme,
    ← munches.eq_scan, List.append_nil, Nat.zero_add]

theorem Munches.standsAlone {position : Nat} {text : List Char} {tokens : List Token}
    (munches : Munches position text tokens) (noNul : '\x00' ∉ text) :
    ∀ token ∈ tokens, token.StandsAlone := by
  induction munches with
  | done =>
      intro token member
      cases member
  | blanks longest later ih =>
      rw [List.mem_append, not_or] at noNul
      exact ih noNul.2
  | token longest named later ih =>
      rw [List.mem_append, not_or] at noNul
      exact List.forall_mem_cons.mpr ⟨longest.standsAlone named noNul.1 _ _, ih noNul.2⟩

namespace Token

theorem standsAlone_of_mem_ofSource {source : String} {token : Token}
    (member : token ∈ ofSource source) : token.StandsAlone :=
  (munches_scan 0 (readable source)).standsAlone (not_mem_readable source) token member

/-- Blanks between the texts of some tokens keep them apart. -/
theorem spelling_intercalate {tokens : List Token} (alone : ∀ token ∈ tokens, token.StandsAlone)
    {blanks : String} (nonempty : blanks ≠ "") (blank : ∀ c ∈ blanks.toList, isBlank c = true) :
    (ofSource (blanks.intercalate (tokens.map text))).map spelling = tokens.map spelling := by
  induction tokens with
  | nil => rfl
  | cons token tokens ih =>
      obtain ⟨first, others⟩ := List.forall_mem_cons.mp alone
      have scanned : (ofSource token.text).map spelling = [token.spelling] := by
        rw [first.scanned]
        rfl
      cases tokens with
      | nil => simpa using scanned
      | cons second tokens =>
          have later := ih others
          rw [List.map_cons] at later
          rw [List.map_cons, List.map_cons, String.intercalate_cons_cons,
            ofSource_append first.noNul nonempty blank, List.map_append, map_spelling_shift,
            scanned, later]
          rfl

/-- A source may be cut at its delimiters, and its tokens may be written with a space after each. -/
theorem ofSource_compositional :
    (∀ first blanks second : String, '\x00' ∉ first.toList →
      (∀ c ∈ blanks.toList, isBlank c = true) →
      blanks ≠ "" ∨ IsDelimited first.toList.reverse ∨ IsDelimited second.toList →
      ofSource (first ++ blanks ++ second) =
        ofSource first ++ (ofSource second).map (shift (first ++ blanks).utf8ByteSize)) ∧
    ∀ source : String,
      (ofSource (" ".intercalate ((ofSource source).map text))).map spelling =
        (ofSource source).map spelling := by
  constructor
  · intro first blanks second noNul blank apart
    have bytes (part : String) : part.utf8ByteSize = byteLength part.toList := by
      rw [← utf8ByteSize_ofList, String.ofList_toList]
    rw [String.utf8ByteSize_append, bytes, bytes]
    exact ofSource_append_of_apart noNul blank apart
  · intro source
    refine spelling_intercalate (fun token => standsAlone_of_mem_ofSource) (by decide) ?_
    simp [isBlank]

theorem ofSource_behind_parenthesis :
    ('\x00' ∉ "1a(".toList ∧ (∀ c ∈ "".toList, isBlank c = true) ∧
      IsDelimited "1a(".toList.reverse) ∧
      ofSource ("1a(" ++ "" ++ "b") =
        ofSource "1a(" ++ (ofSource "b").map (shift ("1a(" ++ "").utf8ByteSize) ∧
      (ofSource "1a(").map spelling = [(.invalid, "1a"), (.listStart, "(")] := by
  have noNul : '\x00' ∉ "1a(".toList := by decide
  have blank : ∀ c ∈ "".toList, isBlank c = true := by simp
  have closed : IsDelimited "1a(".toList.reverse := isDelimited_cons (.inr rfl) ['a', '1']
  have composed := ofSource_compositional.1 "1a(" "" "b" noNul blank (.inr (.inl closed))
  exact ⟨⟨noNul, blank, closed⟩, composed, by decide +kernel⟩

end Token

end TaggedLisp
