import TaggedLisp.Proofs.Json.Strict
import TaggedLisp.Proofs.Json.Written
import TaggedLisp.Settings.Json
import Mathlib.Algebra.Group.Nat.Defs

/-! Settings that are written as JSON are read back, and more than that: the fields may come in any
order, any of them may be missing, and members with other keys may stand between them, whatever they
hold. Only a field that is given twice makes the whole unreadable. -/

set_option autoImplicit false

namespace TaggedLisp

namespace Settings

/-- All limits are numbers of at most 64 bits. -/
structure FitsWords (settings : Settings) : Prop where
  maxSymbols : settings.maxSymbols < 2 ^ 64
  maxCells : settings.maxCells < 2 ^ 64
  environmentCapacity : settings.environmentCapacity < 2 ^ 64

def fieldNode (settings : Settings) : Field → Json.Node
  | .maxSymbols => .number (Nat.toDigits 10 settings.maxSymbols)
  | .maxCells => .number (Nat.toDigits 10 settings.maxCells)
  | .environmentCapacity => .number (Nat.toDigits 10 settings.environmentCapacity)
  | .listBuiltins => .bool settings.listBuiltins

/-- The given fields from the other settings, and the rest as it is. -/
def replaced (settings written : Settings) (fields : List Field) : Settings where
  maxSymbols := if .maxSymbols ∈ fields then written.maxSymbols else settings.maxSymbols
  maxCells := if .maxCells ∈ fields then written.maxCells else settings.maxCells
  environmentCapacity :=
    if .environmentCapacity ∈ fields then written.environmentCapacity
    else settings.environmentCapacity
  listBuiltins := if .listBuiltins ∈ fields then written.listBuiltins else settings.listBuiltins

/-- A member of an object that settings are read from: a field, or something with another key. -/
inductive Entry where
  | field (field : Field)
  | other (key : String) (value : Json.Node)

namespace Entry

def field? : Entry → Option Field
  | .field given => some given
  | .other .. => none

def member (written : Settings) : Entry → Option String × Json.Node
  | .field given => (some given.key, written.fieldNode given)
  | .other key value => (some key, value)

/-- No field is given twice, and what is no field has not the key of one. -/
structure Distinct (entries : List Entry) : Prop where
  fields : (entries.filterMap field?).Nodup
  others : ∀ key value, .other key value ∈ entries → ∀ given : Field, given.key ≠ key

end Entry

variable {settings written : Settings} {seen fields : List Field} {field : Field}

@[simp] theorem Field.ofKey?_key (field : Field) : ofKey? field.key = some field := by
  cases field <;> decide

theorem Field.ofKey?_eq_none {key : String} (other : ∀ field : Field, field.key ≠ key) :
    ofKey? key = none :=
  List.find?_eq_none.mpr fun field _ => by simpa using other field

@[simp] theorem replaced_nil (settings written : Settings) :
    settings.replaced written [] = settings := by
  simp [replaced]

theorem replaced_cons (settings written : Settings) (field : Field) (fields : List Field) :
    (settings.replaced written [field]).replaced written fields =
      settings.replaced written (field :: fields) := by
  cases field <;> simp [replaced]

theorem replaced_all (settings written : Settings) :
    settings.replaced written Field.all = written := by
  simp [replaced, Field.all]

theorem limit?_toDigits {limit : Nat} (fits : limit < 2 ^ 64) :
    limit? (.number (Nat.toDigits 10 limit)) = some limit := by
  have small : limit < 1 <<< 64 := fits
  simp only [limit?, Text.decimal64?, Text.decimal?_toDigits, Option.filter_some, small,
    decide_true, ↓reduceIte]

theorem FitsWords.setField? (fits : written.FitsWords) (settings : Settings) (field : Field) :
    settings.setField? (written.fieldNode field) field = some (settings.replaced written [field]) := by
  cases field with
  | maxSymbols => simp [Settings.setField?, fieldNode, limit?_toDigits fits.maxSymbols, replaced]
  | maxCells => simp [Settings.setField?, fieldNode, limit?_toDigits fits.maxCells, replaced]
  | environmentCapacity =>
      simp [Settings.setField?, fieldNode, limit?_toDigits fits.environmentCapacity, replaced]
  | listBuiltins => simp [Settings.setField?, fieldNode, replaced]

/-! ## Members -/

/-- The induction goes over the members that are left; what has been set so far is among the fields
seen, and none of it comes again. -/
theorem setMembers?_entries (fits : written.FitsWords) {entries : List Entry}
    (distinct : Entry.Distinct entries)
    (unseen : ∀ field ∈ entries.filterMap Entry.field?, field ∉ seen) :
    settings.setMembers? seen (entries.map (Entry.member written)) =
      some (settings.replaced written (entries.filterMap Entry.field?)) := by
  induction entries generalizing settings seen with
  | nil => simp [setMembers?]
  | cons entry entries ih =>
      have others : ∀ key value, .other key value ∈ entries → ∀ given : Field, given.key ≠ key :=
        fun key value member => distinct.others key value (List.mem_cons_of_mem _ member)
      cases entry with
      | other key value =>
          have unknown := Field.ofKey?_eq_none (distinct.others key value List.mem_cons_self)
          rw [List.map_cons, Entry.member, setMembers?, unknown]
          exact ih ⟨distinct.fields, others⟩ unseen
      | field given =>
          obtain ⟨notAgain, nodup⟩ := List.nodup_cons.mp distinct.fields
          obtain ⟨notSeen, laterUnseen⟩ := List.forall_mem_cons.mp unseen
          have laterNotSeen : ∀ field ∈ entries.filterMap Entry.field?, field ∉ given :: seen := by
            intro field member again
            rcases List.mem_cons.mp again with rfl | before
            · exact notAgain member
            · exact laterUnseen field member before
          rw [List.map_cons, Entry.member, setMembers?, Field.ofKey?_key]
          simp only [notSeen, ↓reduceIte, fits.setField? settings given, bind, Option.bind]
          rw [ih ⟨nodup, others⟩ laterNotSeen, replaced_cons]
          rfl

/-- The fields among the keys of members. -/
def givenFields (members : List (Option String × Json.Node)) : List Field :=
  members.filterMap fun (key?, _) => key?.bind Field.ofKey?

theorem setMembers?_cons {key? : Option String} {value : Json.Node}
    {members : List (Option String × Json.Node)} {result : Settings}
    (read : settings.setMembers? seen ((key?, value) :: members) = some result) :
    (key?.bind Field.ofKey? = none ∧ settings.setMembers? seen members = some result) ∨
      ∃ field, ∃ next : Settings, key?.bind Field.ofKey? = some field ∧ field ∉ seen ∧
        next.setMembers? (field :: seen) members = some result := by
  cases key? with
  | none => simp [setMembers?] at read
  | some key =>
      rw [setMembers?] at read
      cases known : Field.ofKey? key with
      | none =>
          rw [known] at read
          exact .inl ⟨known, read⟩
      | some field =>
          simp only [known] at read
          split at read
          · cases read
          · next unseen =>
            obtain ⟨next, -, later⟩ := Option.bind_eq_some_iff.mp read
            exact .inr ⟨field, next, known, unseen, later⟩

/-- If members can be read at all, no field is among them twice. -/
theorem nodup_of_setMembers? {members : List (Option String × Json.Node)} {result : Settings}
    (read : settings.setMembers? seen members = some result) :
    (givenFields members).Nodup ∧ ∀ field ∈ givenFields members, field ∉ seen := by
  induction members generalizing settings seen with
  | nil => simp [givenFields]
  | cons member members ih =>
      obtain ⟨key?, value⟩ := member
      rcases setMembers?_cons read with ⟨other, later⟩ | ⟨field, next, known, unseen, later⟩
      · simpa only [givenFields, List.filterMap_cons, other] using ih later
      · obtain ⟨nodup, laterUnseen⟩ := ih later
        simp only [givenFields, List.filterMap_cons, known]
        refine ⟨List.nodup_cons.mpr ⟨fun again => ?_, nodup⟩, ?_⟩
        · exact laterUnseen field again List.mem_cons_self
        · refine List.forall_mem_cons.mpr ⟨unseen, fun other member before => ?_⟩
          exact laterUnseen other member (List.mem_cons_of_mem _ before)

theorem setMembers?_of_repeated (front middle back : List (Option String × Json.Node))
    (first second : Json.Node) :
    settings.setMembers? seen
      (front ++ (some field.key, first) :: middle ++ (some field.key, second) :: back) = none := by
  rw [Option.eq_none_iff_forall_not_mem]
  intro result read
  have nodup := (nodup_of_setMembers? read).1
  simp only [givenFields, List.append_assoc, List.cons_append, List.filterMap_append,
    List.filterMap_cons, Option.bind_some, Field.ofKey?_key] at nodup
  have notAgain := (List.nodup_cons.mp (List.nodup_append.mp nodup).2.1).1
  exact notAgain (by simp)

/-! ## Texts -/

theorem spellsMember_field (settings : Settings) (field : Field) :
    Json.SpellsMember (Entry.member settings (.field field)) (field.key, settings.fieldJson field) := by
  refine ⟨rfl, ?_⟩
  cases field with
  | maxSymbols => exact Json.spells_natural settings.maxSymbols
  | maxCells => exact Json.spells_natural settings.maxCells
  | environmentCapacity => exact Json.spells_natural settings.environmentCapacity
  | listBuiltins => exact Json.spells_bool settings.listBuiltins

theorem toJson_isSpelled (settings : Settings) :
    Json.Node.IsSpelledBy (.object ((Field.all.map Entry.field).map (Entry.member settings)))
      settings.toJson := by
  have each : List.Forall₂ Json.SpellsMember
      ((Field.all.map Entry.field).map (Entry.member settings))
      (Field.all.map fun field => (field.key, settings.fieldJson field)) := by
    rw [List.map_map, List.forall₂_map_left_iff, List.forall₂_map_right_iff, List.forall₂_same]
    exact fun field _ => spellsMember_field settings field
  exact (Json.spells_object each).isSpelledBy

theorem ofJson?_of_isSpelledBy {members : List (Option String × Json.Node)} {text : String}
    (spelled : Json.Node.IsSpelledBy (.object members) text) :
    ofJson? text = setMembers? {} [] members := by
  rw [ofJson?, spelled.ofString?]
  rfl

theorem exists_isSpelledBy_of_ofJson? {text : String} (read : ofJson? text = some settings) :
    ∃ node : Json.Node, node.IsSpelledBy text := by
  obtain ⟨node, found, -⟩ := Option.bind_eq_some_iff.mp read
  exact ⟨node, Json.Node.ofString?_eq_some_iff.mp found⟩

theorem FitsWords.ofJson?_entries (fits : written.FitsWords) {entries : List Entry}
    (distinct : Entry.Distinct entries) {text : String}
    (spelled : Json.Node.IsSpelledBy (.object (entries.map (Entry.member written))) text) :
    ofJson? text = some (replaced {} written (entries.filterMap Entry.field?)) := by
  rw [ofJson?_of_isSpelledBy spelled]
  exact setMembers?_entries fits distinct fun _ _ => List.not_mem_nil

/-- Settings are read back from the text that is written for them. Of an object with any of the fields
in any order, and any other members between them, the fields are read as they are written, and those
that are missing have their defaults, with any white space and any way to write the strings. An object
with the key of a field in two places cannot be read, whatever else it holds. And nothing is read that
is no JSON. -/
theorem reads_written_fields :
    (∀ settings : Settings, settings.FitsWords → ofJson? settings.toJson = some settings) ∧
    (∀ (written : Settings) (entries : List Entry) (text : String), written.FitsWords →
      Entry.Distinct entries →
      Json.Node.IsSpelledBy (.object (entries.map (Entry.member written))) text →
      ofJson? text = some (replaced {} written (entries.filterMap Entry.field?))) ∧
    (∀ (field : Field) (front middle back : List (Option String × Json.Node))
      (first second : Json.Node) (text : String),
      Json.Node.IsSpelledBy (.object
        (front ++ (some field.key, first) :: middle ++ (some field.key, second) :: back)) text →
      ofJson? text = none) ∧
    ∀ (text : String) (settings : Settings), ofJson? text = some settings →
      ∃ node : Json.Node, node.IsSpelledBy text := by
  refine ⟨fun settings fits => ?_, fun written entries text fits distinct => ?_,
    fun field front middle back first second text spelled => ?_,
    fun text settings => exists_isSpelledBy_of_ofJson?⟩
  · have distinct : Entry.Distinct (Field.all.map Entry.field) := ⟨by decide, by simp⟩
    rw [fits.ofJson?_entries distinct settings.toJson_isSpelled]
    exact congrArg some (replaced_all {} settings)
  · exact fits.ofJson?_entries distinct
  · rw [ofJson?_of_isSpelledBy spelled]
    exact setMembers?_of_repeated front middle back first second

/-- The largest limit is read, beside a member whose value has a key like that of a field. Twice on the
same level such a key is not read. -/
theorem reads_written_fields_of_largest_limit :
    ∃ text repeated,
      Json.Node.IsSpelledBy (.object [(some "later", .array [.object [(some "max_cells", .null)]]),
        (some "max_cells", .number (Nat.toDigits 10 (2 ^ 64 - 1)))]) text ∧
      ofJson? text = some { maxCells := 2 ^ 64 - 1 } ∧
      Json.Node.IsSpelledBy (.object [(some "max_cells", .null), (some "max_cells", .null)])
        repeated ∧
      ofJson? repeated = none ∧ ofJson? (toJson {}) = some {} := by
  obtain ⟨readBack, readFields, readRepeated, -⟩ := reads_written_fields
  have null := Json.spells_null.member_of_key "max_cells"
  have inner := Json.spells_array (.cons (Json.spells_object (.cons null .nil)) .nil)
  have limit := (Json.spells_natural (2 ^ 64 - 1)).member_of_key "max_cells"
  have later := inner.member_of_key "later"
  have whole := (Json.spells_object (.cons later (.cons limit .nil))).isSpelledBy
  have twice := (Json.spells_object (.cons null (.cons null .nil))).isSpelledBy
  refine ⟨_, _, whole, ?_, twice, ?_, ?_⟩
  · have fits : FitsWords { maxCells := 2 ^ 64 - 1 } := ⟨by decide, by decide, by decide⟩
    have distinct : Entry.Distinct
        [.other "later" (.array [.object [(some "max_cells", .null)]]), .field .maxCells] := by
      refine ⟨by decide, fun key value member given => ?_⟩
      obtain ⟨rfl, rfl⟩ : key = "later" ∧ value = .array [.object [(some "max_cells", .null)]] := by
        simpa using member
      cases given <;> decide
    exact readFields _ _ _ fits distinct whole
  · exact readRepeated .maxCells [] [] [] .null .null _ twice
  · exact readBack {} ⟨by decide, by decide, by decide⟩

end Settings

end TaggedLisp
