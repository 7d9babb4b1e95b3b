import StepScript.Grammar.Parser
set_option autoImplicit false

/-!
# How attempts end

The recorded faults of an attempt matter to messages only.  Here are the equations of the
outcomes, and what it means for a sequence of entries, a rule and a table of rules to
match: `Matches` is the match of a sequence of entries without its faults.
-/

namespace StepScript.Grammar

variable {one : Matcher} {pos : Nat} {captures : Captures} {result : Captures × Nat}
  {rest : List Match} {entry : Match} {view : View} {α β : Type}

/-! ## Outcomes -/

namespace Attempt

@[simp] theorem outcome_pure (answer : α) : (pure answer : Attempt α).outcome = .ok answer := rfl

@[simp] theorem outcome_fail (fault : Fault) : (fail fault : Attempt α).outcome = .error fault :=
  rfl

@[simp] theorem outcome_ofExcept (outcome : Except Fault α) :
    (ofExcept outcome).outcome = outcome := rfl

/-- An attempt that goes on succeeds when both parts do. -/
@[simp] theorem outcome_bind_ok_iff {attempt : Attempt α} {next : α → Attempt β} {result : β} :
    (attempt >>= next).outcome = .ok result ↔
      ∃ answer, attempt.outcome = .ok answer ∧ (next answer).outcome = .ok result := by
  change (andThen attempt next).outcome = .ok result ↔ _
  unfold andThen
  cases attempt.outcome <;> simp

/-- What follows an attempt that succeeds decides. -/
theorem outcome_bind_of_ok {attempt : Attempt α} {next : α → Attempt β} {answer : α}
    (h : attempt.outcome = .ok answer) :
    (attempt >>= next).outcome = (next answer).outcome := by
  change (andThen attempt next).outcome = _
  unfold andThen
  rw [h]

/-- Two attempts that go on from the same one are the same if they go on in the same way
from its answer. -/
theorem bind_congr_of_ok {attempt : Attempt α} {next other : α → Attempt β}
    (h : ∀ answer, attempt.outcome = .ok answer → next answer = other answer) :
    attempt >>= next = attempt >>= other := by
  change andThen attempt next = andThen attempt other
  unfold andThen
  cases ho : attempt.outcome with
  | error fault => rfl
  | ok answer =>
    dsimp only
    rw [h answer ho]

@[simp] theorem outcome_observe_bind (attempt : Attempt α)
    (next : Except Fault α → Attempt β) :
    (attempt.observe >>= next).outcome = (next attempt.outcome).outcome := rfl

@[simp] theorem outcome_record_bind (fault : Fault) (next : Unit → Attempt β) :
    (record fault >>= next).outcome = (next ()).outcome := rfl

/-- The attempt does not succeed. -/
def Fails (attempt : Attempt α) : Prop := ∀ answer, attempt.outcome ≠ .ok answer

theorem fails_of_error {attempt : Attempt α} {fault : Fault}
    (h : attempt.outcome = .error fault) : attempt.Fails := by
  intro answer han
  rw [h] at han
  cases han

theorem Fails.exists_fault {attempt : Attempt α} (h : attempt.Fails) :
    ∃ fault, attempt.outcome = .error fault := by
  cases ho : attempt.outcome with
  | error fault => exact ⟨fault, rfl⟩
  | ok answer => exact absurd ho (h answer)

end Attempt

/-! ## Sequences of entries -/

/-- The entry may be absent. -/
def Entry.isOptional : Entry → Bool
  | .optional _ => true
  | _ => false

/-- Entries match from a position on, with the captures before and the result after. -/
def Matches (one : Matcher) : List Match → Nat → Captures → Captures × Nat → Prop
  | [], pos, captures, result => result = (captures, pos)
  | entry :: rest, pos, captures, result =>
    match (one entry pos).outcome with
    | .ok (found, next) => Matches one rest next (found ++ captures) result
    | .error _ => entry.2.isOptional = true ∧ Matches one rest pos captures result

theorem matchEntries_ok_iff {entries : List Match} {skipped : Option Fault} :
    (matchEntries one entries pos skipped captures).outcome = .ok result ↔
      Matches one entries pos captures result := by
  induction entries generalizing pos skipped captures with
  | nil => simp [matchEntries, Matches, eq_comm]
  | cons entry rest ih =>
    unfold matchEntries Matches
    rw [Attempt.outcome_observe_bind]
    cases hone : (one entry pos).outcome with
    | ok answer => exact ih
    | error fault =>
      obtain ⟨slot, entry⟩ := entry
      cases entry with
      | optional group =>
        simp only [Attempt.outcome_record_bind, Entry.isOptional, true_and]
        exact ih
      | _ => cases skipped <;> simp [Entry.isOptional]

/-- An entry that cannot be absent. -/
theorem matches_cons (he : entry.2.isOptional = false) :
    Matches one (entry :: rest) pos captures result ↔
      ∃ found next, (one entry pos).outcome = .ok (found, next) ∧
        Matches one rest next (found ++ captures) result := by
  rw [Matches]
  cases (one entry pos).outcome with
  | error fault => simp [he]
  | ok answer =>
    obtain ⟨found, next⟩ := answer
    simp [and_assoc]

/-- An entry that may be absent is absent only if it does not match. -/
theorem matches_optional_cons (he : entry.2.isOptional = true) :
    Matches one (entry :: rest) pos captures result ↔
      (∃ found next, (one entry pos).outcome = .ok (found, next) ∧
        Matches one rest next (found ++ captures) result) ∨
      (one entry pos).Fails ∧ Matches one rest pos captures result := by
  rw [Matches]
  cases hone : (one entry pos).outcome with
  | error fault =>
    have hf := Attempt.fails_of_error hone
    simp [he, hf]
  | ok answer =>
    have hnot : ¬ (one entry pos).Fails := fun h => h answer hone
    obtain ⟨found, next⟩ := answer
    simp [hnot, and_assoc]

theorem Matches.uncons (h : Matches one (entry :: rest) pos captures result)
    (he : entry.2.isOptional = false) :
    ∃ found next, (one entry pos).outcome = .ok (found, next) ∧
      Matches one rest next (found ++ captures) result :=
  (matches_cons he).mp h

theorem Matches.uncons_optional (h : Matches one (entry :: rest) pos captures result)
    (he : entry.2.isOptional = true) :
    (∃ found next, (one entry pos).outcome = .ok (found, next) ∧
      Matches one rest next (found ++ captures) result) ∨
    (one entry pos).Fails ∧ Matches one rest pos captures result :=
  (matches_optional_cons he).mp h

/-! ## Rules -/

theorem matchRule_ok_iff {rule : Rule} {node : Node} {next : Nat} :
    (matchRule view one rule pos).outcome = .ok (node, next) ↔
      ∃ captures, Matches one rule.entries pos [] (captures, next) ∧
        rule.build captures (view.peek pos) = .ok node := by
  unfold matchRule
  rw [Attempt.outcome_bind_ok_iff]
  constructor
  · rintro ⟨⟨captures, stop⟩, hm, hb⟩
    dsimp only at hb
    split at hb
    · next built heq =>
      simp only [Attempt.outcome_pure, Except.ok.injEq, Prod.mk.injEq] at hb
      obtain ⟨rfl, rfl⟩ := hb
      exact ⟨captures, matchEntries_ok_iff.mp hm, heq⟩
    · simp at hb
  · rintro ⟨captures, hm, hb⟩
    refine ⟨(captures, next), matchEntries_ok_iff.mpr hm, ?_⟩
    simp [hb]

/-- A table gives what one of its rules gives. -/
theorem alternatives_ok {rules : List Rule} {best : Option Fault} {found : Node × Nat}
    (h : (alternatives view one rules pos best).outcome = .ok found) :
    ∃ rule ∈ rules, (matchRule view one rule pos).outcome = .ok found := by
  induction rules generalizing best with
  | nil => simp [alternatives] at h
  | cons rule rest ih =>
    rw [alternatives, Attempt.outcome_observe_bind] at h
    cases hr : (matchRule view one rule pos).outcome with
    | ok answer =>
      rw [hr] at h
      exact ⟨rule, List.mem_cons_self .., hr.trans h⟩
    | error fault =>
      rw [hr] at h
      obtain ⟨other, ho, hm⟩ := ih h
      exact ⟨other, List.mem_cons_of_mem _ ho, hm⟩

/-- A rule decides if the rules in front of it fail. -/
theorem alternatives_of_fails {earlier later : List Rule} {rule : Rule} {best : Option Fault}
    {found : Node × Nat} (he : ∀ other ∈ earlier, (matchRule view one other pos).Fails)
    (hr : (matchRule view one rule pos).outcome = .ok found) :
    (alternatives view one (earlier ++ rule :: later) pos best).outcome = .ok found := by
  induction earlier generalizing best with
  | nil =>
    rw [List.nil_append, alternatives, Attempt.outcome_observe_bind, hr]
    rfl
  | cons other rest ih =>
    obtain ⟨fault, hf⟩ := (he other (List.mem_cons_self ..)).exists_fault
    rw [List.cons_append, alternatives, Attempt.outcome_observe_bind, hf]
    exact ih fun later hl => he later (List.mem_cons_of_mem _ hl)

/-! ## Expressions -/

/-- The tokens from a position on. -/
def View.from (view : View) (pos : Nat) : List Token := view.tokens.toList.drop pos

theorem expressionAt_ok_iff {headed : List Token → Token → Attempt (Node × Nat)} {node : Node}
    {next : Nat} :
    (expressionAt view headed pos).outcome = .ok (node, next) ↔
      runLength 0 (view.from pos) ≠ 0 ∧ next = pos + runLength 0 (view.from pos) ∧
        (split headed (runLength 0 (view.from pos) + 1)
          ((view.from pos).take (runLength 0 (view.from pos)))
          (view.peek (pos + runLength 0 (view.from pos)))).outcome = .ok node := by
  unfold expressionAt View.from
  dsimp only
  split
  · next hz => simp [hz]
  · next hl =>
    simp only [Attempt.outcome_bind_ok_iff, Attempt.outcome_pure, Except.ok.injEq,
      Prod.mk.injEq, ne_eq, hl, not_false_eq_true, true_and]
    constructor
    · rintro ⟨found, hs, rfl, rfl⟩
      exact ⟨rfl, hs⟩
    · rintro ⟨rfl, hs⟩
      exact ⟨node, hs, rfl, rfl⟩

end StepScript.Grammar
