import TaggedLisp.Proofs.Evaluation.Lockstep
import TaggedLisp.Proofs.Heap.Spine
import TaggedLisp.Proofs.WriteOnce

/-! A definition that fails binds nothing itself. It leaves the machine as the evaluation of its
body left it, so its symbol is bound afterwards only if it was bound before or if a definition made
for the body has bound it. The latter does happen: nothing that a body has bound is taken back when
the definition around it fails. -/

set_option autoImplicit false

namespace TaggedLisp

open Environment Evaluation

/-! ## Where a binding comes from -/

namespace Environment

theorem find?_of_define {environment after : Environment} {heap : Heap} {symbol other : Nat}
    {value bound : Value} {outcome : Except Error Value}
    (defined : environment.define heap symbol value = .ok (outcome, after))
    (found : after.find? other = some bound) :
    environment.find? other = some bound ∨ environment.find? other = none ∧
      symbol = other ∧ value = bound ∧ outcome = .ok (.symbol symbol) := by
  obtain ⟨name, defines⟩ := defines_of_define defined
  cases defines with
  | bound | full => exact .inl found
  | added free =>
      rw [find?_bind] at found
      split at found
      · next same =>
        cases same
        exact .inr ⟨free, rfl, Option.some.inj found, rfl⟩
      · exact .inl found

/-- A symbol that is bound after some definitions was bound before them, or one of them has bound
it. -/
theorem Attempts.find?_or_mem {environment after : Environment} {log : List Definition}
    (attempts : Attempts environment log after) {symbol : Nat} {value : Value}
    (found : after.find? symbol = some value) :
    environment.find? symbol = some value ∨ environment.find? symbol = none ∧
      ⟨symbol, value, .ok (.symbol symbol)⟩ ∈ log := by
  induction attempts with
  | nil => exact .inl found
  | @cons environment _ _ _ _ middle _ _ defined others ih =>
      rcases ih found with kept | ⟨free, member⟩
      · rcases find?_of_define defined kept with kept | ⟨free, rfl, rfl, rfl⟩
        · exact .inl kept
        · exact .inr ⟨free, List.mem_cons_self⟩
      · have unbound : environment.find? symbol = none := by
          cases earlier : environment.find? symbol with
          | none => rfl
          | some old => cases free.symm.trans ((Attempts.single defined).find? earlier)
        exact .inr ⟨unbound, List.mem_cons_of_mem _ member⟩

end Environment

/-! ## What a failed definition leaves -/

namespace Heap

variable {heap : Heap}

/-- A list of three elements is not quoted, whatever heads it. -/
theorem Spine.isQuoted_of_three {cell : Nat} {first second third : Value}
    (spine : heap.Spine (.list cell) [first, second, third]) :
    heap.isQuoted (.list cell) = .ok false := by
  cases spine with
  | @link _ link _ found rest =>
      have taken := (Spine.link found rest).take 3
      rw [isQuoted_of_cell found]
      split
      · simp only [isPair, taken]
        rfl
      · rfl

end Heap

namespace Machine

variable {host : Host} {machine after : Machine} {form body : Value} {symbol : Nat} {error : Error}

/-- With any nesting, a definition that fails has evaluated its body, and then either the body
failed or the symbol could not be bound. Both leave what the body left. -/
theorem exists_body_of_failed_definition {budget : Nat}
    (spine : machine.heap.Spine form
      [.symbol machine.heap.keywords.definition, .symbol symbol, body])
    (failed : (Task.run host (budget + 1) (.eval form)).runIn machine =
      .ok (.error error, after)) :
    ∃ outcome, (Task.run host budget (.eval body)).runIn machine = .ok (outcome, after) ∧
      (outcome = .error error ∨ ∃ value, outcome = .ok value ∧
        after.environment.define after.heap symbol value =
          .ok (.error error, after.environment)) := by
  have ran : (evalForm (Task.run host budget) form).runIn machine = .ok (.error error, after) :=
    failed
  obtain ⟨cell, tail, rfl, -⟩ := spine.exists_link
  obtain ⟨isQuoted, quoted, ran⟩ := runIn_examine_bind ran
  cases spine.isQuoted_of_three.symm.trans quoted
  obtain ⟨definition, read, ran⟩ := runIn_examine_bind ran
  cases (Heap.definition?_eq_some_iff.mpr spine).symm.trans read
  rcases runIn_bind_of_ok ran with ⟨value, middle, evaluated, ran⟩ | ⟨_, evaluated, same⟩
  · obtain ⟨environment, defined, rfl⟩ := runIn_define ran
    -- What failed is the definition, and that changes nothing.
    have unchanged : environment = middle.environment := by
      obtain ⟨name, defines⟩ := defines_of_define defined
      cases defines <;> rfl
    subst unchanged
    exact ⟨_, evaluated, .inr ⟨value, rfl, defined⟩⟩
  · cases same
    exact ⟨_, evaluated, .inl rfl⟩

/-- A definition that fails leaves the machine as the evaluation of its body on its own does. Its
symbol is bound then only if it was bound before, with the same value, or if it was not bound before
and a definition of it succeeded while the body was evaluated. -/
theorem failed_definition_leaves_what_its_body_leaves
    (written : machine.heap.toList form =
      .ok (.ok [.symbol machine.heap.keywords.definition, .symbol symbol, body]))
    (contained : machine.heap.contains body = true)
    (failed : machine.eval host form = .ok (.error error, after)) :
    ∃ outcome log, machine.eval host body = .ok (outcome, after) ∧
      machine.Evaluates host body log outcome after ∧
      (outcome = .error error ∨ ∃ value, outcome = .ok value ∧
        after.environment.define after.heap symbol value =
          .ok (.error error, after.environment)) ∧
      ∀ value, after.environment.find? symbol = some value →
        machine.environment.find? symbol = some value ∨
        machine.environment.find? symbol = none ∧
          ⟨symbol, value, .ok (.symbol symbol)⟩ ∈ log := by
  obtain ⟨-, spine⟩ := Heap.toList_eq_ok_iff.mp written
  obtain ⟨cell, tail, rfl, found, -⟩ := spine.exists_link
  have formContained : machine.heap.contains (.list cell) = true :=
    decide_eq_true (Array.getElem?_eq_some_iff.mp found).1
  have ran : (Task.run host machine.budget (.eval (.list cell))).runIn machine =
      .ok (.error error, after) := by
    rw [Machine.eval, if_pos formContained] at failed
    exact failed
  obtain ⟨budget, nested⟩ := machine.exists_budget
  rw [nested] at ran
  obtain ⟨outcome, evaluated, reason⟩ := exists_body_of_failed_definition spine ran
  have alone : machine.eval host body = .ok (outcome, after) := by
    rw [Machine.eval, if_pos contained, Machine.run, nested]
    exact Task.run_of_le (Nat.le_succ budget) evaluated
  obtain ⟨log, evaluates⟩ := exists_evaluates alone
  exact ⟨outcome, log, alone, evaluates, reason, fun _ => evaluates.attempts.find?_or_mem⟩

/-- In `(def x (head (def y ())))` the body binds `y` and then fails, and `x` is not bound. -/
theorem failed_definition_leaves_binding_in_body :
    ∃ fresh heap after log, Machine.new {} = .ok (.ok fresh) ∧
      fresh.heap.readForms "(def x (head (def y ())))" = (.ok [.list 7], heap) ∧
      Machine.eval Host.none (.list 7) ⟨heap, fresh.environment⟩ = .ok (.error .notAList, after) ∧
      Evaluates Host.none ⟨heap, fresh.environment⟩ (.list 4) log (.error .notAList) after ∧
      after.environment.find? 4 = none ∧ after.environment.find? 5 = some .emptyList := by
  have checked : (Machine.new {}).toOption.any (fun created => created.toOption.any fun fresh =>
      let read := fresh.heap.readForms "(def x (head (def y ())))"
      read.1 = .ok [.list 7] ∧ read.2.contains (.list 4) = true ∧
        read.2.toList (.list 7) =
          .ok (.ok [.symbol read.2.keywords.definition, .symbol 4, .list 4]) ∧
        (Machine.eval Host.none (.list 7) ⟨read.2, fresh.environment⟩).toOption.any fun result =>
          result.1 = .error .notAList ∧ result.2.environment.find? 4 = none ∧
            result.2.environment.find? 5 = some .emptyList) = true := by
    decide +kernel
  obtain ⟨_, created, checked⟩ := exists_ok_of_any checked
  obtain ⟨fresh, rfl, checked⟩ := exists_ok_of_any checked
  obtain ⟨read, contained, written, checked⟩ := of_decide_eq_true checked
  generalize readSource : fresh.heap.readForms "(def x (head (def y ())))" = result at *
  obtain ⟨forms, heap⟩ := result
  obtain rfl : forms = _ := read
  obtain ⟨⟨outcome, after⟩, ran, checked⟩ := exists_ok_of_any checked
  obtain ⟨rfl, free, bound⟩ := of_decide_eq_true checked
  let machine : Machine := ⟨heap, fresh.environment⟩
  have written : machine.heap.toList (.list 7) =
      .ok (.ok [.symbol machine.heap.keywords.definition, .symbol 4, .list 4]) := written
  obtain ⟨_, log, -, evaluates, reason, -⟩ :=
    failed_definition_leaves_what_its_body_leaves written contained ran
  refine ⟨fresh, heap, after, log, created, readSource, ran, ?_, free, bound⟩
  rcases reason with rfl | ⟨value, rfl, refused⟩
  · exact evaluates
  · obtain ⟨name, defines⟩ := defines_of_define refused
    cases defines

/-- In `(def x (def x ()))` the body binds `x`, so the definition around it fails, and `x` is bound
afterwards although it was not before. -/
theorem nested_definition_binds_and_fails :
    ∃ fresh heap after, Machine.new {} = .ok (.ok fresh) ∧
      fresh.heap.readForms "(def x (def x ()))" = (.ok [.list 5], heap) ∧
      heap.toList (.list 5) = .ok (.ok [.symbol heap.keywords.definition, .symbol 4, .list 2]) ∧
      heap.contains (.list 2) = true ∧
      Machine.eval Host.none (.list 5) ⟨heap, fresh.environment⟩ =
        .ok (.error (.redefinition "x"), after) ∧
      fresh.environment.find? 4 = none ∧ after.environment.find? 4 = some .emptyList := by
  have checked : (Machine.new {}).toOption.any (fun created => created.toOption.any fun fresh =>
      let read := fresh.heap.readForms "(def x (def x ()))"
      read.1 = .ok [.list 5] ∧ read.2.contains (.list 2) = true ∧
        read.2.toList (.list 5) =
          .ok (.ok [.symbol read.2.keywords.definition, .symbol 4, .list 2]) ∧
        fresh.environment.find? 4 = none ∧
        (Machine.eval Host.none (.list 5) ⟨read.2, fresh.environment⟩).toOption.any fun result =>
          result.1 = .error (.redefinition "x") ∧
            result.2.environment.find? 4 = some .emptyList) = true := by
    decide +kernel
  obtain ⟨_, created, checked⟩ := exists_ok_of_any checked
  obtain ⟨fresh, rfl, checked⟩ := exists_ok_of_any checked
  obtain ⟨read, contained, written, free, checked⟩ := of_decide_eq_true checked
  generalize readSource : fresh.heap.readForms "(def x (def x ()))" = result at *
  obtain ⟨forms, heap⟩ := result
  obtain rfl : forms = _ := read
  obtain ⟨⟨outcome, after⟩, ran, checked⟩ := exists_ok_of_any checked
  obtain ⟨rfl, bound⟩ := of_decide_eq_true checked
  exact ⟨fresh, heap, after, created, readSource, written, contained, ran, free, bound⟩

end Machine

end TaggedLisp
