import TaggedLisp.Proofs.Json.Grammar

/-! Nothing is read but what the grammar spells. What a reader leaves is the rest of its input, and the
part before it spells what was found. So the texts that are read are just those of the grammar. -/

set_option autoImplicit false

namespace TaggedLisp.Json

theorem Yields.of_extend {α β : Type} {limit larger : Nat} {parsed? : Option (Parsed limit α)}
    {le : limit ≤ larger} {convert : α → β} {result : β} {rest : List Char}
    (yields : Yields (parsed?.map (·.extend le convert)) result rest) :
    ∃ value, Yields parsed? value rest ∧ convert value = result := by
  obtain ⟨_, same⟩ := yields
  cases parsed? with
  | none => cases same
  | some parsed =>
      cases same
      exact ⟨parsed.value, ⟨parsed.length_lt, rfl⟩, rfl⟩

/-- The input up to the rest. -/
def Consumes (spells : List Char → Prop) (input rest : List Char) : Prop :=
  ∃ text, input = text ++ rest ∧ spells text

theorem Consumes.behind {inner outer : List Char → Prop} {input rest : List Char} {first : Char}
    (consumes : Consumes inner input rest) (convert : ∀ {text}, inner text → outer (first :: text)) :
    Consumes outer (first :: input) rest := by
  obtain ⟨text, rfl, spells⟩ := consumes
  exact ⟨first :: text, rfl, convert spells⟩

theorem expect_consumes {mark : Char} {input rest : List Char}
    (yields : Yields (expect mark input) () rest) : Consumes (IsMark mark) input rest := by
  induction input with
  | nil =>
      obtain ⟨_, same⟩ := yields
      cases same
  | cons c input ih =>
      rw [expect] at yields
      split at yields
      · next blank =>
        obtain ⟨_, later, -⟩ := yields.of_extend
        obtain ⟨_, rfl, blanks, others, rfl⟩ := ih later
        exact ⟨_, rfl, c :: blanks, List.forall_mem_cons.mpr ⟨blank, others⟩, rfl⟩
      · split at yields
        · next found =>
          obtain ⟨_, same⟩ := yields
          cases same
          exact ⟨[mark], by rw [found]; rfl, [], by simp [IsBlanks], rfl⟩
        · obtain ⟨_, same⟩ := yields
          cases same

theorem not_yields_none {limit : Nat} {α : Type} {value : α} {rest : List Char} :
    ¬ Yields (none : Option (Parsed limit α)) value rest := by
  rintro ⟨_, same⟩
  cases same

theorem Consumes.unit {unit : StringUnit} {units : List StringUnit} {text more rest : List Char}
    (spells : SpellsUnit unit text) (consumes : Consumes (SpellsContent units) more rest) :
    Consumes (SpellsContent (unit :: units)) (text ++ more) rest := by
  obtain ⟨content, rfl, spellsMore⟩ := consumes
  exact ⟨text ++ content, (List.append_assoc ..).symm, .unit spells spellsMore⟩

theorem stringUnits_consumes {input rest : List Char} {units : List StringUnit}
    (yields : Yields (stringUnits input) units rest) :
    Consumes (SpellsContent units) input rest := by
  fun_induction stringUnits input generalizing units with
  | case1 | case4 | case6 | case7 => exact absurd yields not_yields_none
  | case2 more =>
      obtain ⟨_, same⟩ := yields
      cases same
      exact ⟨['\x22'], rfl, .close⟩
  | case3 a b c d more number found ih =>
      obtain ⟨others, later, rfl⟩ := yields.of_extend
      exact (ih later).unit (.code found)
  | case5 escaped more _ c found ih =>
      obtain ⟨others, later, rfl⟩ := yields.of_extend
      exact (ih later).unit (.escape found)
  | case8 c more notQuote _ _ plain ih =>
      obtain ⟨others, later, rfl⟩ := yields.of_extend
      simp only [Bool.or_eq_true, decide_eq_true_eq, not_or] at plain
      exact (ih later).unit (.plain (Nat.le_of_not_lt plain.1) notQuote plain.2)

/-! ## Numbers -/

theorem digits_prefix (input : List Char) : digits input <+: input :=
  List.takeWhile_prefix _

theorem isDigits_digits {input : List Char} (notEmpty : digits input ≠ []) :
    IsDigits (digits input) :=
  ⟨notEmpty, List.all_eq_true.mp List.all_takeWhile⟩

theorem isWhole_of_integerPart? {input whole : List Char}
    (found : integerPart? input = some whole) : IsWhole whole ∧ whole <+: input := by
  have inside := digits_prefix input
  have isDigits : digits input ≠ [] → IsDigits (digits input) := isDigits_digits
  unfold integerPart? at found
  split at found
  · cases found
  · next more starts =>
    cases found
    rw [starts] at inside
    exact ⟨.zero, (List.prefix_append ['0'] more).trans inside⟩
  · next notEmpty noZero =>
    cases found
    refine ⟨.run (isDigits notEmpty) fun zero => ?_, inside⟩
    obtain ⟨more, starts⟩ := List.head?_eq_some_iff.mp zero
    exact noZero more starts

theorem isFraction_of_fraction? {input fraction : List Char}
    (found : fraction? input = some fraction) : IsFraction fraction ∧ fraction <+: input := by
  unfold fraction? at found
  split at found
  · split at found
    · cases found
    · next more notEmpty =>
      cases found
      refine ⟨.run (isDigits_digits (by simpa using notEmpty)), ?_⟩
      exact List.cons_prefix_cons.mpr ⟨rfl, digits_prefix more⟩
  · cases found
    exact ⟨.absent, List.nil_prefix⟩

theorem isExponent_of_exponent? {input exponent : List Char}
    (found : exponent? input = some exponent) : IsExponent exponent ∧ exponent <+: input := by
  unfold exponent? at found
  split at found
  · next mark rest =>
    split at found
    · next isMark =>
      have marks : mark ∈ ['e', 'E'] := by simpa using isMark
      split at found
      · next sign more =>
        split at found
        · next isSign =>
          split at found
          · cases found
          · next notEmpty =>
            cases found
            have isDigits : IsDigits (digits more) := isDigits_digits (by simpa using notEmpty)
            refine ⟨.signed marks (by simpa using isSign) isDigits, ?_⟩
            have inside : sign :: digits more <+: sign :: more :=
              List.cons_prefix_cons.mpr ⟨rfl, digits_prefix more⟩
            exact List.cons_prefix_cons.mpr ⟨rfl, inside⟩
        · split at found
          · cases found
          · next notEmpty =>
            cases found
            refine ⟨.plain marks (isDigits_digits (by simpa using notEmpty)), ?_⟩
            exact List.cons_prefix_cons.mpr ⟨rfl, digits_prefix _⟩
      · cases found
    · cases found
      exact ⟨.absent, List.nil_prefix⟩
  · cases found
    exact ⟨.absent, List.nil_prefix⟩

theorem isNumber_of_number? {input literal : List Char} (found : number? input = some literal) :
    IsNumber literal ∧ literal <+: input := by
  have unsigned : ∀ {input whole fraction exponent : List Char}, integerPart? input = some whole →
      fraction? (input.drop whole.length) = some fraction →
      exponent? ((input.drop whole.length).drop fraction.length) = some exponent →
      IsWhole whole ∧ IsFraction fraction ∧ IsExponent exponent ∧
        whole ++ fraction ++ exponent <+: input := by
    intro input whole fraction exponent wholeFound fractionFound exponentFound
    obtain ⟨isWhole, afterWhole, rfl⟩ := isWhole_of_integerPart? wholeFound
    rw [List.drop_left] at fractionFound exponentFound
    obtain ⟨isFraction, afterFraction, rfl⟩ := isFraction_of_fraction? fractionFound
    rw [List.drop_left] at exponentFound
    obtain ⟨isExponent, rest, rfl⟩ := isExponent_of_exponent? exponentFound
    exact ⟨isWhole, isFraction, isExponent, rest, by simp⟩
  unfold number? at found
  simp only [bind, Option.bind_eq_some_iff, pure, Option.some.injEq] at found
  obtain ⟨whole, wholeFound, fraction, fractionFound, exponent, exponentFound, rfl⟩ := found
  by_cases signed : input.head? = some '-'
  · obtain ⟨more, rfl⟩ := List.head?_eq_some_iff.mp signed
    obtain ⟨isWhole, isFraction, isExponent, inside⟩ :=
      unsigned wholeFound fractionFound exponentFound
    exact ⟨.negative isWhole isFraction isExponent, List.cons_prefix_cons.mpr ⟨rfl, inside⟩⟩
  · simp only [signed, ↓reduceIte, List.length_nil, List.drop_zero] at *
    obtain ⟨isWhole, isFraction, isExponent, inside⟩ :=
      unsigned wholeFound fractionFound exponentFound
    exact ⟨.positive isWhole isFraction isExponent, inside⟩

/-! ## Values -/

theorem keyword?_consumes {first : Char} {more rest : List Char} {value : Node}
    (yields : Yields (keyword? first more) value rest) :
    Consumes (Spells (.node value)) (first :: more) rest := by
  unfold keyword? at yields
  dsimp only at yields
  split at yields
  · next word node found =>
    obtain ⟨_, same⟩ := yields
    cases same
    have listed := List.mem_of_find?_eq_some found
    obtain ⟨after, same⟩ : word <+: first :: more := by simpa using List.find?_some found
    have spells : Spells (.node value) word := by
      simp only [List.mem_cons, Prod.mk.injEq, List.not_mem_nil, or_false] at listed
      rcases listed with ⟨rfl, rfl⟩ | ⟨rfl, rfl⟩ | ⟨rfl, rfl⟩
      · exact .true
      · exact .false
      · exact .null
    obtain ⟨head, others, rfl⟩ : ∃ head others, word = head :: others := by
      obtain ⟨blanks, head, others, -, -, -, rfl⟩ := spells.opens
      cases blanks <;> exact ⟨_, _, rfl⟩
    cases same
    exact ⟨_, by simp, spells⟩
  · exact absurd yields not_yields_none

theorem numeral?_consumes {first : Char} {more rest : List Char} {value : Node}
    (yields : Yields (numeral? first more) value rest) :
    Consumes (Spells (.node value)) (first :: more) rest := by
  unfold numeral? at yields
  split at yields
  · next literal found =>
    obtain ⟨_, same⟩ := yields
    cases same
    obtain ⟨isNumber, after, same⟩ := isNumber_of_number? found
    obtain ⟨head, others, rfl, -⟩ := isNumber.exists_first
    cases same
    exact ⟨_, by simp, .number isNumber⟩
  · exact absurd yields not_yields_none

mutual

theorem node_consumes {input rest : List Char} {value : Node}
    (yields : Yields (node input) value rest) : Consumes (Spells (.node value)) input rest := by
  rw [node.eq_def] at yields
  split at yields
  · exact absurd yields not_yields_none
  · next c more =>
    split at yields
    · next blank =>
      obtain ⟨_, later, rfl⟩ := yields.of_extend
      have blanks : IsBlanks [c] := by simpa [IsBlanks] using blank
      exact (node_consumes later).behind (.padded blanks)
    split at yields
    · next quote =>
      subst quote
      obtain ⟨units, later, rfl⟩ := yields.of_extend
      exact (stringUnits_consumes later).behind .string
    split at yields
    · next bracket =>
      subst bracket
      split at yields
      · next ending closed =>
        obtain ⟨_, same⟩ := yields
        cases same
        exact (expect_consumes ⟨_, closed⟩).behind .emptyArray
      · obtain ⟨values, later, rfl⟩ := yields.of_extend
        exact (elements_consumes later).behind .array
    split at yields
    · next brace =>
      subst brace
      split at yields
      · next ending closed =>
        obtain ⟨_, same⟩ := yields
        cases same
        exact (expect_consumes ⟨_, closed⟩).behind .emptyObject
      · obtain ⟨values, later, rfl⟩ := yields.of_extend
        exact (members_consumes later).behind .object
    split at yields
    · exact numeral?_consumes yields
    · exact keyword?_consumes yields
termination_by 2 * input.length

theorem elements_consumes {input rest : List Char} {values : List Node}
    (yields : Yields (elements input) values rest) :
    Consumes (Spells (.elements values)) input rest := by
  rw [elements] at yields
  split at yields
  · exact absurd yields not_yields_none
  · next element after length_lt found =>
    obtain ⟨text, same, spells⟩ := node_consumes ⟨_, found⟩
    split at yields
    · next more more_lt comma =>
      obtain ⟨others, later, rfl⟩ := yields.of_extend
      obtain ⟨commaText, rfl, isComma⟩ := expect_consumes ⟨_, comma⟩
      obtain ⟨moreText, rfl, spellsMore⟩ := elements_consumes later
      exact ⟨_, by simp [same], .element spells isComma spellsMore⟩
    · obtain ⟨_, ending, rfl⟩ := yields.of_extend
      obtain ⟨endingText, rfl, isEnding⟩ := expect_consumes ending
      exact ⟨_, by simp [same], .lastElement spells isEnding⟩
termination_by 2 * input.length + 1

theorem members_consumes {input rest : List Char} {values : List (Option String × Node)}
    (yields : Yields (members input) values rest) :
    Consumes (Spells (.members values)) input rest := by
  rw [members] at yields
  split at yields
  · exact absurd yields not_yields_none
  · next afterQuote quote_lt quote =>
    obtain ⟨quoteText, sameQuote, isQuote⟩ := expect_consumes ⟨_, quote⟩
    split at yields
    · exact absurd yields not_yields_none
    · next units afterKey key_lt content =>
      obtain ⟨contentText, rfl, spellsContent⟩ := stringUnits_consumes ⟨_, content⟩
      split at yields
      · exact absurd yields not_yields_none
      · next afterColon colon_lt colon =>
        obtain ⟨colonText, rfl, isColon⟩ := expect_consumes ⟨_, colon⟩
        have key : SpellsKey (text? units) (quoteText ++ contentText ++ colonText) :=
          .intro isQuote spellsContent isColon
        split at yields
        · exact absurd yields not_yields_none
        · next value after value_lt found =>
          obtain ⟨text, rfl, spells⟩ := node_consumes ⟨_, found⟩
          split at yields
          · next more more_lt comma =>
            obtain ⟨others, later, rfl⟩ := yields.of_extend
            obtain ⟨commaText, rfl, isComma⟩ := expect_consumes ⟨_, comma⟩
            obtain ⟨moreText, rfl, spellsMore⟩ := members_consumes later
            exact ⟨_, by simp [sameQuote], .member key spells isComma spellsMore⟩
          · obtain ⟨_, ending, rfl⟩ := yields.of_extend
            obtain ⟨endingText, rfl, isEnding⟩ := expect_consumes ending
            exact ⟨_, by simp [sameQuote], .lastMember key spells isEnding⟩
termination_by 2 * input.length + 1

end

/-- The texts that are read are those that spell a node, and what is read is that node. -/
theorem Node.ofString?_eq_some_iff {text : String} {value : Node} :
    Node.ofString? text = some value ↔ value.IsSpelledBy text := by
  refine ⟨fun read => ?_, Node.IsSpelledBy.ofString?⟩
  unfold Node.ofString? at read
  split at read
  · next parsed found =>
    split at read
    · next blank =>
      cases read
      obtain ⟨spelled, same, spells⟩ := node_consumes ⟨parsed.length_lt, found⟩
      exact ⟨spelled, parsed.rest, spells, List.all_eq_true.mp blank, same⟩
    · cases read
  · cases read

end TaggedLisp.Json
