import TaggedLisp.Datum
import Mathlib.Data.List.Basic

/-! Texts without a line feed. Numerals have none, JSON strings have none whatever they stand for, and
the message of an error has none if the texts that it quotes have none. -/

set_option autoImplicit false

namespace TaggedLisp

namespace Text

def IsOneLine (text : String) : Prop :=
  '\n' ∉ text.toList

instance (text : String) : Decidable (IsOneLine text) :=
  inferInstanceAs (Decidable ('\n' ∉ text.toList))

theorem isOneLine_append {first second : String} :
    IsOneLine (first ++ second) ↔ IsOneLine first ∧ IsOneLine second := by
  simp [IsOneLine]

theorem isOneLine_join {texts : List String} (each : ∀ text ∈ texts, IsOneLine text) :
    IsOneLine (String.join texts) := by
  simpa [IsOneLine, String.toList_join] using each

theorem isOneLine_intercalate {separator : String} {texts : List String}
    (separates : IsOneLine separator) (each : ∀ text ∈ texts, IsOneLine text) :
    IsOneLine (separator.intercalate texts) := by
  induction texts with
  | nil => simp [IsOneLine]
  | cons first others ih =>
      obtain ⟨firstOneLine, othersOneLine⟩ := List.forall_mem_cons.mp each
      cases others with
      | nil => simpa using firstOneLine
      | cons second others =>
          rw [String.intercalate_cons_cons, isOneLine_append, isOneLine_append]
          exact ⟨⟨firstOneLine, separates⟩, ih othersOneLine⟩

theorem isOneLine_toString (n : Nat) : IsOneLine (toString n) := by
  intro member
  rw [Nat.toString_eq_repr, Nat.toList_repr] at member
  exact absurd (Nat.isDigit_of_mem_toDigits (by decide) (by decide) member) (by decide)

end Text

open Text

/-! ## Messages -/

/-- The texts that the message of an error quotes. -/
def Error.quotes : Error → List String
  | .emptyListAccess text | .unbound text | .invalidToken text | .arityMismatch text _ _
  | .redefinition text | .notCallable text => [text]
  | _ => []

theorem SyntaxError.isOneLine_message (reason : SyntaxError) : IsOneLine reason.message := by
  cases reason <;> decide

theorem Error.isOneLine_message {error : Error} (each : ∀ text ∈ error.quotes, IsOneLine text) :
    IsOneLine error.message := by
  unfold Error.message
  cases error with
  | undefined | outOfMemory | notAList | notQuoted => decide
  | malformed reason => exact isOneLine_append.mpr ⟨by decide, reason.isOneLine_message⟩
  | invalidSymbolLength number =>
      simp only [isOneLine_append]
      exact ⟨⟨⟨⟨by decide, isOneLine_toString number⟩, by decide⟩, by decide⟩, by decide⟩
  | symbolLimitExceeded number | environmentFull number =>
      simp only [isOneLine_append]
      exact ⟨⟨by decide, isOneLine_toString number⟩, by decide⟩
  | emptyListAccess text =>
      simp only [isOneLine_append]
      exact ⟨each text List.mem_cons_self, by decide⟩
  | unbound text | invalidToken text | redefinition text | notCallable text =>
      simp only [isOneLine_append]
      exact ⟨⟨by decide, each text List.mem_cons_self⟩, by decide⟩
  | arityMismatch text expected given =>
      simp only [isOneLine_append]
      exact ⟨⟨⟨⟨⟨by decide, each text List.mem_cons_self⟩, by decide⟩, isOneLine_toString expected⟩,
        by decide⟩, isOneLine_toString given⟩

/-! ## JSON -/

namespace Json

theorem isOneLine_escapedChar (c : Char) : IsOneLine (escapedChar c) := by
  have controls : ∀ code < 0x20, IsOneLine ("\\u" ++ hexPadded 4 code) := by decide
  by_cases feed : c = '\n'
  · subst feed
    decide
  unfold escapedChar
  split
  any_goals decide
  split
  · next control => exact controls c.toNat control
  · simpa [IsOneLine] using Ne.symm feed

theorem isOneLine_string (text : String) : IsOneLine (string text) := by
  unfold string
  simp only [isOneLine_append]
  refine ⟨⟨by decide, isOneLine_join fun item member => ?_⟩, by decide⟩
  obtain ⟨c, -, rfl⟩ := List.mem_map.mp member
  exact isOneLine_escapedChar c

theorem isOneLine_array {items : List String} (each : ∀ item ∈ items, IsOneLine item) :
    IsOneLine (array items) := by
  unfold array
  simp only [isOneLine_append]
  exact ⟨⟨by decide, isOneLine_intercalate (by decide) each⟩, by decide⟩

theorem isOneLine_object {members : List (String × String)}
    (each : ∀ value ∈ members.map Prod.snd, IsOneLine value) : IsOneLine (object members) := by
  unfold object
  simp only [isOneLine_append]
  refine ⟨⟨by decide, isOneLine_intercalate (by decide) fun item member => ?_⟩, by decide⟩
  obtain ⟨⟨key, value⟩, inside, rfl⟩ := List.mem_map.mp member
  simp only [isOneLine_append]
  exact ⟨⟨isOneLine_string key, by decide⟩, each value (List.mem_map_of_mem inside)⟩

end Json

mutual

/-- The JSON of a datum is one line, whatever the texts in it are. -/
theorem Datum.isOneLine_toJson (datum : Datum) : IsOneLine datum.toJson := by
  cases datum with
  | symbol text | error text =>
      rw [Datum.toJson]
      refine Json.isOneLine_object fun value member => ?_
      cases List.mem_singleton.mp member
      exact Json.isOneLine_string text
  | lambda name arity =>
      rw [Datum.toJson]
      refine Json.isOneLine_object fun value member => ?_
      cases List.mem_singleton.mp member
      refine Json.isOneLine_object (List.forall_mem_cons.mpr ⟨Json.isOneLine_string name, ?_⟩)
      exact List.forall_mem_singleton.mpr (isOneLine_toString arity)
  | list data =>
      rw [Datum.toJson]
      refine Json.isOneLine_object fun value member => ?_
      cases List.mem_singleton.mp member
      exact Json.isOneLine_array (Datum.isOneLine_toJsonEach data)

theorem Datum.isOneLine_toJsonEach (data : List Datum) :
    ∀ item ∈ Datum.toJsonEach data, IsOneLine item := by
  cases data with
  | nil => simp [Datum.toJsonEach]
  | cons datum data =>
      rw [Datum.toJsonEach]
      exact List.forall_mem_cons.mpr ⟨datum.isOneLine_toJson, Datum.isOneLine_toJsonEach data⟩

end

end TaggedLisp
