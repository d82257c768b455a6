import TaggedLisp.Proofs.Tree
import TaggedLisp.Token

/-! A pushdown automaton reads tokens into trees, and the grammar of forms says which tokens spell
which trees. The automaton keeps the open lists and the quote marks that wait for a form. It accepts
exactly the tokens that spell some forms, and then it has read those forms. -/

set_option autoImplicit false

namespace TaggedLisp

/-! ## The automaton -/

/-- What is pending while tokens are read. -/
inductive Pending where
  | list (elements : List Tree)
  | quote

/-- A state of the automaton: what is pending, innermost first, and the top-level forms read so far,
last first. -/
structure Pushdown where
  pending : List Pending
  forms : List Tree

namespace Pushdown

def start : Pushdown := ⟨[], []⟩

/-- Hands a complete form to whatever waits for it. -/
def deliver (forms : List Tree) : List Pending → Tree → Pushdown
  | [], tree => ⟨[], tree :: forms⟩
  | .list elements :: pending, tree => ⟨.list (tree :: elements) :: pending, forms⟩
  | .quote :: pending, tree => deliver forms pending tree.quoted

def step (state : Pushdown) (token : Token) : Except Error Pushdown :=
  match token.kind, state.pending with
  | .symbol, pending => .ok (deliver state.forms pending (.symbol token.text))
  | .listStart, pending => .ok ⟨.list [] :: pending, state.forms⟩
  | .quote, pending => .ok ⟨.quote :: pending, state.forms⟩
  | .invalid, _ => .error (.invalidToken token.text)
  | .listEnd, .list elements :: pending => .ok (deliver state.forms pending (.list elements.reverse))
  | .listEnd, .quote :: _ => .error (.malformed .danglingQuote)
  | .listEnd, [] => .error (.malformed .unexpectedListEnd)

/-- The forms read up to the end of the tokens, if nothing is pending there. -/
def finish (state : Pushdown) : Except Error (List Tree) :=
  match state.pending with
  | [] => .ok state.forms.reverse
  | .list _ :: _ => .error (.malformed .unterminatedList)
  | .quote :: _ => .error (.malformed .danglingQuote)

/-- Reads the tokens from left to right up to the first where the automaton is stuck. -/
def run (state : Pushdown) : List Token → Except Error (List Tree)
  | [] => state.finish
  | token :: tokens =>
    match state.step token with
    | .ok next => next.run tokens
    | .error error => .error error

variable {state : Pushdown} {token : Token} {tokens : List Token}

theorem run_symbol (kind : token.kind = .symbol) :
    state.run (token :: tokens) =
      (deliver state.forms state.pending (.symbol token.text)).run tokens := by
  simp only [run, step, kind]

theorem run_listStart (kind : token.kind = .listStart) :
    state.run (token :: tokens) = run ⟨.list [] :: state.pending, state.forms⟩ tokens := by
  simp only [run, step, kind]

theorem run_quote (kind : token.kind = .quote) :
    state.run (token :: tokens) = run ⟨.quote :: state.pending, state.forms⟩ tokens := by
  simp only [run, step, kind]

theorem run_invalid (kind : token.kind = .invalid) :
    state.run (token :: tokens) = .error (.invalidToken token.text) := by
  simp only [run, step, kind]

theorem run_listEnd (kind : token.kind = .listEnd) (elements : List Tree)
    (pending : List Pending) (forms : List Tree) :
    run ⟨.list elements :: pending, forms⟩ (token :: tokens) =
      (deliver forms pending (.list elements.reverse)).run tokens := by
  simp only [run, step, kind]

theorem run_listEnd_of_quote (kind : token.kind = .listEnd) (pending : List Pending)
    (forms : List Tree) :
    run ⟨.quote :: pending, forms⟩ (token :: tokens) = .error (.malformed .danglingQuote) := by
  simp only [run, step, kind]

theorem run_listEnd_of_empty (kind : token.kind = .listEnd) (forms : List Tree) :
    run ⟨[], forms⟩ (token :: tokens) = .error (.malformed .unexpectedListEnd) := by
  simp only [run, step, kind]

end Pushdown

/-! ## The grammar -/

mutual

inductive Spells : List Token → Tree → Prop where
  | symbol {token : Token} : token.kind = .symbol → Spells [token] (.symbol token.text)
  | list {opening closing : Token} {tokens : List Token} {trees : List Tree} :
      opening.kind = .listStart → SpellsEach tokens trees → closing.kind = .listEnd →
      Spells (opening :: (tokens ++ [closing])) (.list trees)
  | quote {mark : Token} {tokens : List Token} {tree : Tree} :
      mark.kind = .quote → Spells tokens tree → Spells (mark :: tokens) tree.quoted

inductive SpellsEach : List Token → List Tree → Prop where
  | nil : SpellsEach [] []
  | cons {front back : List Token} {tree : Tree} {trees : List Tree} :
      Spells front tree → SpellsEach back trees → SpellsEach (front ++ back) (tree :: trees)

end

theorem SpellsEach.append {front back : List Token} {frontTrees backTrees : List Tree}
    (frontSpells : SpellsEach front frontTrees) (backSpells : SpellsEach back backTrees) :
    SpellsEach (front ++ back) (frontTrees ++ backTrees) := by
  cases frontSpells with
  | nil => exact backSpells
  | cons first others =>
      rw [List.append_assoc]
      exact .cons first (others.append backSpells)
termination_by frontTrees.length

mutual

/-- The automaton reads the tokens of a form as one step that delivers the form. -/
theorem Spells.run {tokens : List Token} {tree : Tree} (spells : Spells tokens tree)
    (state : Pushdown) (rest : List Token) :
    state.run (tokens ++ rest) = (Pushdown.deliver state.forms state.pending tree).run rest := by
  cases spells with
  | symbol kind => exact Pushdown.run_symbol kind
  | @list opening closing tokens trees opens each closes =>
      rw [List.cons_append, List.append_assoc, Pushdown.run_listStart opens,
        each.run, List.singleton_append, Pushdown.run_listEnd closes]
      simp
  | quote marks inner =>
      rw [List.cons_append, Pushdown.run_quote marks, inner.run]
      rfl

theorem SpellsEach.run {tokens : List Token} {trees : List Tree} (spells : SpellsEach tokens trees)
    (elements : List Tree) (pending : List Pending) (forms : List Tree) (rest : List Token) :
    Pushdown.run ⟨.list elements :: pending, forms⟩ (tokens ++ rest) =
      Pushdown.run ⟨.list (trees.reverse ++ elements) :: pending, forms⟩ rest := by
  cases spells with
  | nil => rfl
  | cons first others =>
      rw [List.append_assoc, first.run, Pushdown.deliver, others.run]
      simp

end

theorem SpellsEach.run_top {tokens : List Token} {trees : List Tree}
    (spells : SpellsEach tokens trees) (forms : List Tree) (rest : List Token) :
    Pushdown.run ⟨[], forms⟩ (tokens ++ rest) =
      Pushdown.run ⟨[], trees.reverse ++ forms⟩ rest := by
  cases spells with
  | nil => rfl
  | cons first others =>
      rw [List.append_assoc, first.run, Pushdown.deliver, others.run_top]
      simp
termination_by trees.length

/-! ## What the automaton has read -/

/-- The tokens are those that lead to a state: complete forms, and for everything pending its opening
token and the complete forms after it. -/
inductive Pushdown.HasRead : Pushdown → List Token → Prop where
  | forms {forms : List Tree} {tokens : List Token} :
      SpellsEach tokens forms.reverse → HasRead ⟨[], forms⟩ tokens
  | list {pending : List Pending} {forms elements : List Tree} {opening : Token}
      {front back : List Token} : HasRead ⟨pending, forms⟩ front → opening.kind = .listStart →
      SpellsEach back elements.reverse →
      HasRead ⟨.list elements :: pending, forms⟩ (front ++ opening :: back)
  | quote {pending : List Pending} {forms : List Tree} {mark : Token} {front : List Token} :
      HasRead ⟨pending, forms⟩ front → mark.kind = .quote →
      HasRead ⟨.quote :: pending, forms⟩ (front ++ [mark])

namespace Pushdown

private theorem spellsEach_push {front back : List Token} {trees : List Tree} {tree : Tree}
    (each : SpellsEach front trees.reverse) (last : Spells back tree) :
    SpellsEach (front ++ back) (tree :: trees).reverse := by
  have single : SpellsEach back [tree] := by
    simpa using SpellsEach.cons last .nil
  simpa using each.append single

theorem HasRead.deliver {pending : List Pending} {forms : List Tree} {front back : List Token}
    {tree : Tree} (read : HasRead ⟨pending, forms⟩ front) (spells : Spells back tree) :
    (Pushdown.deliver forms pending tree).HasRead (front ++ back) := by
  induction pending generalizing front back tree with
  | nil =>
      cases read with
      | forms each => exact .forms (spellsEach_push each spells)
  | cons innermost pending ih =>
      cases read with
      | list outer opens each =>
          rw [List.append_assoc]
          exact .list outer opens (spellsEach_push each spells)
      | quote outer marks =>
          rw [List.append_assoc]
          exact ih outer (.quote marks spells)

theorem HasRead.step {state next : Pushdown} {front : List Token} {token : Token}
    (read : state.HasRead front) (stepped : state.step token = .ok next) :
    next.HasRead (front ++ [token]) := by
  obtain ⟨pending, forms⟩ := state
  unfold Pushdown.step at stepped
  split at stepped
  · next kind =>
    cases stepped
    exact read.deliver (.symbol kind)
  · next kind =>
    cases stepped
    exact .list read kind .nil
  · next kind =>
    cases stepped
    exact .quote read kind
  · cases stepped
  · next elements outer kind same =>
    cases stepped
    cases same
    cases read with
    | list outerRead opens each =>
        rw [List.append_assoc]
        exact outerRead.deliver (.list opens each kind)
  · cases stepped
  · cases stepped

theorem HasRead.run {state : Pushdown} {front tokens : List Token} {trees : List Tree}
    (read : state.HasRead front) (accepted : state.run tokens = .ok trees) :
    SpellsEach (front ++ tokens) trees := by
  induction tokens generalizing state front with
  | nil =>
      obtain ⟨pending, forms⟩ := state
      cases read with
      | forms each =>
          cases accepted
          simpa using each
      | list | quote => cases accepted
  | cons token tokens ih =>
      rw [Pushdown.run] at accepted
      split at accepted
      · next next stepped => simpa using ih (read.step stepped) accepted
      · cases accepted

/-- The automaton accepts exactly the tokens that the grammar derives, with the same trees. -/
theorem run_start_eq_ok_iff {tokens : List Token} {trees : List Tree} :
    start.run tokens = .ok trees ↔ SpellsEach tokens trees := by
  constructor
  · intro accepted
    have nothing : start.HasRead [] := .forms .nil
    simpa using nothing.run accepted
  · intro spells
    have accepted := spells.run_top [] []
    simpa [Pushdown.run, finish, start] using accepted

end Pushdown

theorem SpellsEach.unique {tokens : List Token} {trees others : List Tree}
    (spells : SpellsEach tokens trees) (otherSpells : SpellsEach tokens others) : trees = others := by
  have accepted := Pushdown.run_start_eq_ok_iff.mpr spells
  rw [Pushdown.run_start_eq_ok_iff.mpr otherSpells] at accepted
  exact (Except.ok.inj accepted).symm

end TaggedLisp
