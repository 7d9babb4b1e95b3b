import StepScript.Proofs.Grammar.Statement
set_option autoImplicit false

/-!
# What happens in an attempt

The trace of an attempt lists the faults that are made in it and the routines that are called in
it, wherever they are, whether the attempt goes on, tries something else or skips what failed.
Which way the attempt goes is told by the outcomes of its parts.

An attempt knows a fault if it fails with it or has recorded it.  It knows no fault that its trace
does not have, and for each fault of its trace one that got as far (`Accounts`).  So the error of a
source that is not accepted is that of a fault that got furthest.
-/

namespace StepScript.Grammar

/-! ## Traces -/

/-- The routines that call each other, from the innermost to the outermost. -/
inductive Routine where
  /-- The rules of expressions, on a run without operators. -/
  | run
  | split
  | expression
  | statement
  | block
  deriving DecidableEq, Repr

/-- What happens in an attempt. -/
inductive Event where
  | raised (fault : Fault)
  /-- A bound on rounds or depth is used up. -/
  | exhausted (token : Token)
  /-- A routine is called on the tokens of a view from a position on. -/
  | called (routine : Routine) (view : View) (pos : Nat)

/-- The fault that an event makes. -/
def Event.fault? : Event → Option Fault
  | .raised fault => some fault
  | .exhausted token => some (.exhausted token)
  | .called .. => none

variable {α β : Type}

/-- The trace of an attempt with no parts. -/
def Attempt.ownTrace (attempt : Attempt α) : List Event :=
  match attempt.outcome with
  | .ok _ => []
  | .error fault => [.raised fault]

/-- The trace of what follows an attempt that succeeds. -/
def Attempt.thenTrace (attempt : Attempt α) (next : α → List Event) : List Event :=
  match attempt.outcome with
  | .ok answer => next answer
  | .error _ => []

section

variable (one : Matcher) (within : Match → Nat → List Event)

/-- The trace of entries one after the other. -/
def entriesTrace : List Match → Nat → List Event
  | [], _ => []
  | entry :: rest, pos =>
    within entry pos ++
      match (one entry pos).outcome with
      | .ok (_, next) => entriesTrace rest next
      | .error _ => if entry.2.isOptional then entriesTrace rest pos else []

/-- The trace of a rule, whose builder can refuse what matched. -/
def ruleTrace (view : View) (rule : Rule) (pos : Nat) : List Event :=
  entriesTrace one within rule.entries pos ++
    (matchEntries one rule.entries pos none []).thenTrace fun (captures, next) =>
      match rule.build captures (view.peek pos) with
      | .ok _ => []
      | .error rejection =>
        [.raised (.reached rejection.message (view.peek pos) (view.peek (next - 1)).index)]

/-- The trace of a table of rules. -/
def rulesTrace (view : View) : List Rule → Nat → Option Fault → List Event
  | [], pos, none => [.raised (.expected "statement" (view.peek pos))]
  | [], _, some _ => []
  | rule :: rest, pos, best =>
    ruleTrace one within view rule pos ++
      match (matchRule view one rule pos).outcome with
      | .ok _ => []
      | .error fault => rulesTrace view rest pos (some (furthestOf best fault))

/-- The trace of a statement. -/
def statementTrace (view : View) (pos : Nat) : List Event :=
  .called .statement view pos :: rulesTrace one within view statementRules pos none

end

/-- The trace of statements up to a terminator. -/
def blockTrace (view : View) (statement : Nat → Attempt (Node × Nat)) (within : Nat → List Event)
    (terminators : List String) : (rounds : Nat) → (pos : Nat) → List Event
  | 0, pos => [.exhausted (view.peek pos)]
  | rounds + 1, pos =>
    if (view.peek pos).kind = .endOfLine then
      blockTrace view statement within terminators rounds (pos + 1)
    else if (view.peek pos).kind = .endOfFile then
      if terminators.isEmpty then []
      else [.raised (.expected (oneOf terminators) (view.peek pos))]
    else if terminators.any (view.peek pos).spells then []
    else
      within pos ++ (statement pos).thenTrace fun (_, next) =>
        if (view.peek next).kind = .endOfLine then
          blockTrace view statement within terminators rounds (next + 1)
        else if (view.peek next).kind = .endOfFile then
          blockTrace view statement within terminators rounds next
        else [.raised (.expected "end of line" (view.peek next))]

section

variable (view : View) (expression : Nat → Attempt (Node × Nat)) (within : Nat → List Event)

/-- The trace of expressions with commas between them. -/
def argumentsTrace : (rounds : Nat) → (pos : Nat) → List Event
  | 0, pos => [.exhausted (view.peek pos)]
  | rounds + 1, pos =>
    within pos ++ (expression pos).thenTrace fun (_, next) =>
      if (view.peek next).kind = .comma then argumentsTrace rounds (next + 1) else []

/-- The trace of parameters with commas between them. -/
def parametersTrace : (rounds : Nat) → (pos : Nat) → (found : List Parameter) → List Event
  | 0, pos, _ => [.exhausted (view.peek pos)]
  | rounds + 1, pos, found =>
    (parameterNameAt view found pos).ownTrace ++
      (parameterNameAt view found pos).thenTrace fun name =>
        (if (view.peek (pos + 1)).kind = .assign then within (pos + 2) else []) ++
          (initialAt view expression (pos + 1)).thenTrace fun (initial, next) =>
            if (view.peek next).kind = .comma then
              parametersTrace rounds (next + 1) (⟨name, initial⟩ :: found)
            else []

/-- The trace of the arguments from an opening parenthesis to the closing one. -/
def argumentListTrace (pos : Nat) : List Event :=
  if (view.peek pos).kind ≠ .leftParen then [.raised (.expected "'('" (view.peek pos))]
  else
    (if (view.peek (pos + 1)).kind = .rightParen then []
      else argumentsTrace view expression within (view.tokens.size + 2) (pos + 1)) ++
    (listOrNone view (pos + 1)
      (argumentsFrom view expression (view.tokens.size + 2) (pos + 1) [])).thenTrace
        fun (_, next) =>
          if (view.peek next).kind ≠ .rightParen then
            [.raised (.expected "')'" (view.peek next))]
          else []

end

section

variable (headed : List Token → Token → Attempt (Node × Nat))
  (within : List Token → Token → List Event)

/-- The trace of a run that is split. -/
def splitTrace : (depth : Nat) → List Token → Token → List Event
  | 0, _, after => [.exhausted after]
  | depth + 1, run, after =>
    .called .split ⟨run.toArray, after⟩ 0 ::
      match run with
      | [] => [.raised (.expected "expression" after)]
      | first :: rest =>
        match splitPoint? run after with
        | .error fault => [.raised fault]
        | .ok (some point) =>
          match run.drop point.index with
          | [] => [.raised (.expected "expression" after)]
          | op :: right =>
            if point.unary then splitTrace depth right after
            else
              splitTrace depth (run.take point.index) op ++
                (split headed depth (run.take point.index) op).thenTrace fun lhs =>
                  splitTrace depth right after ++
                    (split headed depth right after).thenTrace fun rhs =>
                      (Attempt.ofExcept
                        (operation op lhs rhs (right.headD after))).ownTrace
        | .ok none =>
          if isParenthesised run then splitTrace depth rest.dropLast (run.getLastD after)
          else if rest.isEmpty then (Attempt.ofExcept (leaf first)).ownTrace
          else
            within run after ++ (headed run after).thenTrace fun (_, next) =>
              match run.drop next with
              | [] => []
              | leftover :: _ => [.raised (.expected "operator" leftover)]

/-- The trace of an expression. -/
def expressionTrace (view : View) (pos : Nat) : List Event :=
  .called .expression view pos ::
    let length := runLength 0 (view.from pos)
    if length = 0 then [.raised (.expected "expression" (view.peek pos))]
    else splitTrace headed within (length + 1) ((view.from pos).take length)
      (view.peek (pos + length))

end

section

variable (one : View → Matcher) (within : View → Match → Nat → List Event)

/-- The trace of the rules of expressions on a run. -/
def headedTrace (run : List Token) (after : Token) : List Event :=
  .called .run ⟨run.toArray, after⟩ 0 ::
    rulesTrace (one ⟨run.toArray, after⟩) (within ⟨run.toArray, after⟩) ⟨run.toArray, after⟩
      expressionRules 0 none

/-- The trace of an entry. -/
def entryTrace (view : View) : Match → Nat → List Event := fun (slot, entry) pos =>
  match entry with
  | .expression => expressionTrace (headedRun one) (headedTrace one within) view pos
  | .statement => statementTrace (one view) (within view) view pos
  | .arguments =>
    argumentListTrace view (expressionAt view (headedRun one))
      (expressionTrace (headedRun one) (headedTrace one within) view) pos
  | .parameters =>
    if (view.peek pos).kind = .rightParen then []
    else
      parametersTrace view (expressionAt view (headedRun one))
        (expressionTrace (headedRun one) (headedTrace one within) view)
        (view.tokens.size + 2) pos []
  | .optional group => entriesTrace (one view) (within view) group pos
  | .statements terminators =>
    .called .block view pos ::
      blockTrace view (statementAt view (one view)) (statementTrace (one view) (within view) view)
        terminators (view.tokens.size + 2) pos
  | _ => (matchEntry one view (slot, entry) pos).ownTrace

end

/-- The trace of an entry, the elements within it as deep as `depth` allows. -/
def oneTrace : (depth : Nat) → View → Match → Nat → List Event
  | 0, view => fun _ pos => [.exhausted (view.peek pos)]
  | depth + 1, view => entryTrace (matchOne depth) (oneTrace depth) view

/-- The trace of a whole file. -/
def fileTrace (view : View) : List Event :=
  .called .block view 0 ::
    blockTrace view (statementAt view (entryAt view))
      (statementTrace (entryAt view) (oneTrace (depthFor view.tokens.size) view) view) []
      (view.tokens.size + 2) 0

/-! ## Faults that an attempt knows -/

/-- The attempt fails with the fault or has recorded it. -/
def Attempt.Knows (attempt : Attempt α) (fault : Fault) : Prop :=
  attempt.outcome = .error fault ∨ attempt.recorded = some fault

/-- The attempt knows a fault that got so far. -/
def Attempt.Reaches (attempt : Attempt α) (progress : Nat) : Prop :=
  ∃ fault, attempt.Knows fault ∧ progress ≤ fault.progress

theorem furthestOf_eq (seen : Option Fault) (fault : Fault) :
    seen = some (furthestOf seen fault) ∨ furthestOf seen fault = fault := by
  cases seen with
  | none => exact .inr rfl
  | some old =>
    rw [furthestOf, Fault.furthest]
    split
    · exact .inr rfl
    · exact .inl rfl

theorem le_furthestOf (seen : Option Fault) (fault : Fault) :
    (∀ old ∈ seen, old.progress ≤ (furthestOf seen fault).progress) ∧
      fault.progress ≤ (furthestOf seen fault).progress := by
  cases seen with
  | none => simp [furthestOf]
  | some old =>
    simp only [furthestOf, Fault.furthest, Option.mem_def, Option.some.injEq, forall_eq']
    split <;> omega

namespace Attempt

variable {attempt : Attempt α} {next : α → Attempt β} {fault : Fault} {progress : Nat}

theorem knows_bind (h : (attempt >>= next).Knows fault) :
    attempt.Knows fault ∨ ∃ answer, attempt.outcome = .ok answer ∧ (next answer).Knows fault := by
  change (andThen attempt next).Knows fault at h
  unfold andThen Knows at h
  cases ho : attempt.outcome with
  | error found =>
    rw [ho] at h
    rcases h with he | hr
    · exact .inl (.inl (by rw [ho, Except.error.inj he]))
    · exact .inl (.inr hr)
  | ok answer =>
    simp only [ho] at h
    rcases h with he | hr
    · exact .inr ⟨answer, rfl, .inl he⟩
    · cases hl : (next answer).recorded with
      | none =>
        rw [hl] at hr
        exact .inl (.inr hr)
      | some found =>
        rw [hl] at hr
        rcases furthestOf_eq attempt.recorded found with hf | hf
        · exact .inl (.inr (hf.trans hr))
        · refine .inr ⟨answer, rfl, .inr ?_⟩
          rw [hl, ← hf]
          exact hr

theorem Reaches.bind (h : attempt.Reaches progress) (next : α → Attempt β) :
    (attempt >>= next).Reaches progress := by
  obtain ⟨fault, hk, hp⟩ := h
  change (andThen attempt next).Reaches progress
  unfold andThen
  rcases hk with ho | hr
  · rw [ho]
    exact ⟨fault, .inl rfl, hp⟩
  · cases attempt.outcome with
    | error found => exact ⟨fault, .inr hr, hp⟩
    | ok answer =>
      dsimp only
      cases hl : (next answer).recorded with
      | none => exact ⟨fault, .inr hr, hp⟩
      | some found =>
        have hle := (le_furthestOf attempt.recorded found).1 fault hr
        exact ⟨_, .inr rfl, Nat.le_trans hp hle⟩

theorem Reaches.after {answer : α} (h : (next answer).Reaches progress)
    (ho : attempt.outcome = .ok answer) : (attempt >>= next).Reaches progress := by
  obtain ⟨fault, hk, hp⟩ := h
  change (andThen attempt next).Reaches progress
  unfold andThen
  rw [ho]
  rcases hk with he | hr
  · exact ⟨fault, .inl he, hp⟩
  · refine ⟨_, .inr ?_, Nat.le_trans hp (le_furthestOf attempt.recorded fault).2⟩
    simp only [hr]
    rfl

end Attempt

/-- The attempt knows faults of the trace only, apart from one that it was given, and for each
fault of the trace it knows one that got as far. -/
structure Accounts (given : Option Fault) (attempt : Attempt α) (trace : List Event) : Prop where
  made : ∀ fault, attempt.Knows fault → given = some fault ∨ ∃ event ∈ trace,
    event.fault? = some fault
  reached : ∀ event ∈ trace, ∀ fault, event.fault? = some fault →
    attempt.Reaches fault.progress

section Accounts

variable {given : Option Fault} {attempt : Attempt α} {next : α → Attempt β}
  {trace : List Event} {fault : Fault}

theorem accounts_pure (answer : α) : Accounts given (pure answer) [] where
  made := by
    rintro fault (h | h) <;> cases h
  reached := by simp

theorem Accounts.called (h : Accounts given attempt trace) (routine : Routine) (view : View)
    (pos : Nat) : Accounts given attempt (.called routine view pos :: trace) where
  made fault hk := (h.made fault hk).imp_right fun ⟨event, he, hf⟩ =>
    ⟨event, List.mem_cons_of_mem _ he, hf⟩
  reached := List.forall_mem_cons.mpr ⟨fun _ hf => (by cases hf), h.reached⟩

/-- An attempt that knows one fault only. -/
theorem accounts_single {event : Event} (hf : event.fault? = some fault)
    (hk : attempt.Knows fault) (ho : ∀ found, attempt.Knows found → fault = found) :
    Accounts given attempt [event] where
  made found hfo := .inr ⟨event, List.mem_singleton_self _, ho found hfo ▸ hf⟩
  reached other hm found hfo := by
    obtain rfl := List.mem_singleton.mp hm
    obtain rfl := Option.some.inj (hf.symm.trans hfo)
    exact ⟨fault, hk, Nat.le_refl _⟩

theorem accounts_event {event : Event} (hf : event.fault? = some fault) :
    Accounts given (.fail fault : Attempt α) [event] := by
  refine accounts_single hf (.inl rfl) ?_
  rintro found (h | h)
  · exact Except.error.inj h
  · cases h

/-- A fault that is recorded before the attempt fails with it. -/
theorem accounts_recorded {event : Event} (hf : event.fault? = some fault) :
    Accounts given (.record fault >>= fun _ => .fail fault : Attempt α) [event] := by
  refine accounts_single hf (.inl rfl) ?_
  rintro found (h | h)
  · exact Except.error.inj h
  · exact Option.some.inj h

theorem accounts_own (outcome : Except Fault α) :
    Accounts given (.ofExcept outcome) (Attempt.ofExcept outcome).ownTrace := by
  cases outcome with
  | ok answer => exact accounts_pure answer
  | error fault => exact accounts_event rfl

theorem Accounts.bind {later : α → List Event} (h : Accounts given attempt trace)
    (hn : ∀ answer, attempt.outcome = .ok answer →
      Accounts given (next answer) (later answer)) :
    Accounts given (attempt >>= next) (trace ++ attempt.thenTrace later) where
  made fault hk := by
    rcases Attempt.knows_bind hk with hk | ⟨answer, ho, hk⟩
    · refine (h.made fault hk).imp_right ?_
      rintro ⟨event, he, hf⟩
      exact ⟨event, List.mem_append_left _ he, hf⟩
    · refine ((hn answer ho).made fault hk).imp_right ?_
      rintro ⟨event, he, hf⟩
      refine ⟨event, List.mem_append_right _ ?_, hf⟩
      rwa [Attempt.thenTrace, ho]
  reached event he fault hf := by
    rcases List.mem_append.mp he with he | he
    · exact (h.reached event he fault hf).bind next
    · unfold Attempt.thenTrace at he
      cases ho : attempt.outcome with
      | error found => simp [ho] at he
      | ok answer =>
        rw [ho] at he
        exact ((hn answer ho).reached event he fault hf).after ho

theorem Accounts.widen (h : Accounts none attempt trace) (given : Option Fault) :
    Accounts given attempt trace where
  made fault hk := (h.made fault hk).imp_left (by simp)
  reached := h.reached

/-- What is only built of an answer makes no fault. -/
theorem Accounts.map (h : Accounts given attempt trace) (build : α → β) :
    Accounts given (attempt >>= fun answer => pure (build answer)) trace := by
  have ht : trace ++ attempt.thenTrace (fun _ => []) = trace := by
    unfold Attempt.thenTrace
    split <;> exact List.append_nil _
  rw [← ht]
  exact h.bind fun answer _ => accounts_pure (build answer)

/-- An attempt that fails, after which something is done that got as far. -/
theorem Accounts.observe {next : Except Fault α → Attempt β} {later : List Event}
    (h : Accounts none attempt trace) (ho : attempt.outcome = .error fault)
    (hm : ∀ found, (next (.error fault)).Knows found →
      fault = found ∨ given = some found ∨ ∃ event ∈ later, event.fault? = some found)
    (hl : ∀ event ∈ later, ∀ found, event.fault? = some found →
      (next (.error fault)).Reaches found.progress)
    (hp : (next (.error fault)).Reaches fault.progress) :
    Accounts given (attempt.observe >>= next) (trace ++ later) where
  made found hk := by
    have hsame (known : attempt.Knows found) : given = some found ∨
        ∃ event ∈ trace ++ later, event.fault? = some found := by
      obtain hg | ⟨event, he, hf⟩ := h.made found known
      · cases hg
      · exact .inr ⟨event, List.mem_append_left _ he, hf⟩
    rcases Attempt.knows_bind hk with (hk | hk) | ⟨answer, hans, hk⟩
    · cases hk
    · exact hsame (.inr hk)
    · obtain rfl := Except.ok.inj hans
      rw [ho] at hk
      obtain rfl | hg | ⟨event, he, hf⟩ := hm found hk
      · exact hsame (.inl ho)
      · exact .inl hg
      · exact .inr ⟨event, List.mem_append_right _ he, hf⟩
  reached event he found hf := by
    have hnext {progress : Nat} (hr : (next (.error fault)).Reaches progress) :
        (attempt.observe >>= next).Reaches progress := by
      rw [← ho] at hr
      exact hr.after rfl
    rcases List.mem_append.mp he with he | he
    · obtain ⟨other, hk | hk, hle⟩ := h.reached event he found hf
      · obtain rfl := Except.error.inj (ho.symm.trans hk)
        obtain ⟨known, hkn, hpk⟩ := hp
        exact hnext ⟨known, hkn, Nat.le_trans hle hpk⟩
      · have hob : attempt.observe.Reaches found.progress := ⟨other, .inr hk, hle⟩
        exact hob.bind next
    · exact hnext (hl event he found hf)

/-- An attempt that fails is recorded, and something else is tried, which is given the furthest
fault so far. -/
theorem Accounts.retry {next : Except Fault α → Attempt β} {rest : Attempt β}
    {later : List Event} (h : Accounts none attempt trace) (ho : attempt.outcome = .error fault)
    (hr : Accounts (some (furthestOf given fault)) rest later)
    (hn : next (.error fault) = (Attempt.record fault >>= fun _ => rest)) :
    Accounts given (attempt.observe >>= next) (trace ++ later) := by
  refine h.observe ho (fun found hk => ?_) (fun event he found hf => ?_) ?_
  · rw [hn] at hk
    rcases Attempt.knows_bind hk with (hk | hk) | ⟨-, -, hk⟩
    · cases hk
    · exact .inl (Option.some.inj hk)
    · obtain hg | hl := hr.made found hk
      · obtain rfl := Option.some.inj hg
        rcases furthestOf_eq given fault with hg | hg
        · exact .inr (.inl hg)
        · exact .inl hg.symm
      · exact .inr (.inr hl)
  · rw [hn]
    exact (hr.reached event he found hf).after rfl
  · rw [hn]
    exact Attempt.Reaches.bind ⟨fault, .inr rfl, Nat.le_refl _⟩ _

/-- An attempt that fails, and another fault that got no less far is given in its place. -/
theorem Accounts.rethrow {next : Except Fault α → Attempt β} {other : Fault}
    (h : Accounts none attempt trace) (ho : attempt.outcome = .error fault)
    (hn : next (.error fault) = .fail other) (hg : other = fault ∨ given = some other)
    (hle : fault.progress ≤ other.progress) :
    Accounts given (attempt.observe >>= next) (trace ++ []) := by
  refine h.observe ho (fun found hk => ?_) (by simp) ?_
  · rw [hn] at hk
    rcases hk with hk | hk
    · obtain rfl := Except.error.inj hk
      exact hg.imp Eq.symm .inl
    · cases hk
  · rw [hn]
    exact ⟨other, .inl rfl, hle⟩

end Accounts

/-! ## Every attempt accounts for its trace -/

section

variable {one : Matcher} {within : Match → Nat → List Event} {view : View} {pos : Nat}

theorem ofExcept_ok_bind (answer : α) (next : α → Attempt β) :
    Attempt.ofExcept (.ok answer) >>= next = next answer := by
  change (⟨(next answer).outcome, Attempt.recordedBoth none (next answer).recorded⟩ : Attempt β)
    = next answer
  obtain ⟨outcome, recorded⟩ := next answer
  cases recorded <;> rfl

/-- An attempt that succeeds is gone on with. -/
theorem Accounts.goOn {given : Option Fault} {attempt : Attempt α}
    {next : Except Fault α → Attempt β} {answer : α} {trace later : List Event}
    (h : Accounts none attempt trace) (ho : attempt.outcome = .ok answer)
    (hn : Accounts given (next (.ok answer)) later) :
    Accounts given (attempt.observe >>= next) (trace ++ later) := by
  have hb : attempt.observe >>= next = attempt >>= fun answer => next (.ok answer) := by
    change Attempt.andThen _ _ = Attempt.andThen _ _
    unfold Attempt.andThen Attempt.observe
    simp only [ho]
  have ht : later = attempt.thenTrace fun _ => later := by rw [Attempt.thenTrace, ho]
  rw [hb, ht]
  refine (h.widen given).bind fun found hf => ?_
  obtain rfl := Except.ok.inj (ho.symm.trans hf)
  exact hn

theorem accounts_entries (hone : ∀ entry pos, Accounts none (one entry pos) (within entry pos))
    {entries : List Match} {skipped : Option Fault} {captures : Captures} :
    Accounts skipped (matchEntries one entries pos skipped captures)
      (entriesTrace one within entries pos) := by
  induction entries generalizing pos skipped captures with
  | nil => exact accounts_pure _
  | cons entry rest ih =>
    unfold matchEntries entriesTrace
    cases ho : (one entry pos).outcome with
    | ok answer => exact (hone entry pos).goOn ho ih
    | error fault =>
      obtain ⟨slot, entry⟩ := entry
      cases entry with
      | optional group => exact (hone _ _).retry ho ih rfl
      | _ =>
        cases skipped with
        | none => exact (hone _ _).rethrow ho rfl (.inl rfl) (Nat.le_refl _)
        | some earlier =>
          refine (hone _ _).rethrow ho rfl ?_ ?_
          · split
            · exact .inr rfl
            · exact .inl rfl
          · split <;> omega

section

variable (hone : ∀ entry pos, Accounts none (one entry pos) (within entry pos))

include hone

theorem accounts_rule (rule : Rule) :
    Accounts none (matchRule view one rule pos) (ruleTrace one within view rule pos) := by
  refine (accounts_entries hone).bind fun answer _ => ?_
  dsimp only
  cases rule.build answer.1 (view.peek pos) with
  | ok node => exact accounts_pure _
  | error rejection => exact accounts_event rfl

theorem accounts_rules {rules : List Rule} {best : Option Fault} :
    Accounts best (alternatives view one rules pos best)
      (rulesTrace one within view rules pos best) := by
  induction rules generalizing best with
  | nil =>
    cases best with
    | none => exact accounts_event rfl
    | some fault =>
      refine ⟨?_, by simp [rulesTrace]⟩
      rintro found (h | h)
      · exact .inl (congrArg some (Except.error.inj h))
      · cases h
  | cons rule rest ih =>
    unfold alternatives rulesTrace
    cases ho : (matchRule view one rule pos).outcome with
    | ok found => exact (accounts_rule hone rule).goOn ho (accounts_pure found)
    | error fault => exact (accounts_rule hone rule).retry ho ih rfl

theorem accounts_statement :
    Accounts none (statementAt view one pos) (statementTrace one within view pos) :=
  (accounts_rules hone).called _ _ _

end

theorem accounts_block {statement : Nat → Attempt (Node × Nat)} {within : Nat → List Event}
    (hs : ∀ pos, Accounts none (statement pos) (within pos)) {terminators : List String}
    {rounds : Nat} {found : List Node} :
    Accounts none (blockFrom view statement terminators rounds pos found)
      (blockTrace view statement within terminators rounds pos) := by
  induction rounds generalizing pos found with
  | zero => exact accounts_event rfl
  | succ rounds ih =>
    unfold blockFrom blockTrace
    dsimp only
    split
    · next hk =>
      rw [if_pos hk]
      exact ih
    · next hk =>
      have hl : (view.peek pos).kind ≠ .endOfLine := by simp [hk]
      rw [if_neg hl, if_pos hk]
      split
      · exact accounts_pure _
      · exact accounts_event rfl
    · next hl hf =>
      rw [if_neg hl, if_neg hf]
      split
      · exact accounts_pure _
      · refine (hs pos).bind fun answer _ => ?_
        split
        · next hk =>
          rw [if_pos hk]
          exact ih
        · next hk =>
          have hl : (view.peek answer.2).kind ≠ .endOfLine := by simp [hk]
          rw [if_neg hl, if_pos hk]
          exact ih
        · next hl hf =>
          rw [if_neg hl, if_neg hf]
          exact accounts_event rfl

section

variable {expression : Nat → Attempt (Node × Nat)} {within : Nat → List Event}
  (he : ∀ pos, Accounts none (expression pos) (within pos))

include he

theorem accounts_arguments {rounds : Nat} {found : List Node} :
    Accounts none (argumentsFrom view expression rounds pos found)
      (argumentsTrace view expression within rounds pos) := by
  induction rounds generalizing pos found with
  | zero => exact accounts_event rfl
  | succ rounds ih =>
    refine (he pos).bind fun answer _ => ?_
    dsimp only
    split
    · exact ih
    · exact accounts_pure _

theorem accounts_parameters {rounds : Nat} {found : List Parameter} :
    Accounts none (parametersFrom view expression rounds pos found)
      (parametersTrace view expression within rounds pos found) := by
  induction rounds generalizing pos found with
  | zero => exact accounts_event rfl
  | succ rounds ih =>
    have hname : Accounts none (parameterNameAt view found pos)
        (parameterNameAt view found pos).ownTrace := by
      unfold parameterNameAt
      dsimp only
      split
      · exact accounts_event rfl
      · split
        · exact accounts_event rfl
        · exact accounts_pure _
    refine hname.bind fun name _ => ?_
    refine Accounts.bind ?_ fun answer _ => ?_
    · unfold initialAt
      split
      · exact (he (pos + 2)).map _
      · exact accounts_pure _
    · dsimp only
      split
      · exact ih
      · exact accounts_pure _

theorem accounts_argumentList :
    Accounts none (argumentListAt view expression pos)
      (argumentListTrace view expression within pos) := by
  unfold argumentListAt argumentListTrace
  dsimp only
  split
  · exact accounts_event rfl
  · refine Accounts.bind ?_ fun answer _ => ?_
    · unfold listOrNone
      split
      · exact accounts_pure _
      · exact accounts_arguments he
    · split
      · exact accounts_event rfl
      · exact accounts_pure _

end

section

variable {headed : List Token → Token → Attempt (Node × Nat)}
  {within : List Token → Token → List Event}
  (hh : ∀ run after, Accounts none (headed run after) (within run after))

include hh

theorem accounts_split {depth : Nat} {run : List Token} {after : Token} :
    Accounts none (split headed depth run after) (splitTrace headed within depth run after) := by
  induction depth generalizing run after with
  | zero => exact accounts_event rfl
  | succ depth ih =>
    refine Accounts.called ?_ _ _ _
    cases run with
    | nil => exact accounts_event rfl
    | cons first rest =>
      rw [split]
      dsimp only
      cases splitPoint? (first :: rest) after with
      | error fault => exact accounts_event rfl
      | ok point =>
        rw [ofExcept_ok_bind]
        cases point with
        | some point =>
          dsimp only
          cases (first :: rest).drop point.index with
          | nil => exact accounts_event rfl
          | cons op right =>
            dsimp only
            split
            · exact ih.map _
            · refine ih.bind fun lhs _ => ih.bind fun rhs _ => ?_
              exact accounts_own _
        | none =>
          dsimp only
          split
          · exact ih
          · split
            · exact accounts_own _
            · refine (hh _ _).bind fun answer _ => ?_
              cases (first :: rest).drop answer.2 with
              | nil => exact accounts_pure _
              | cons leftover _ => exact accounts_recorded rfl

theorem accounts_expression :
    Accounts none (expressionAt view headed pos) (expressionTrace headed within view pos) := by
  refine Accounts.called ?_ _ _ _
  unfold expressionAt View.from
  dsimp only
  split
  · exact accounts_event rfl
  · exact (accounts_split hh).map _

end

theorem accounts_matchEntry {one : View → Matcher} {within : View → Match → Nat → List Event}
    (hone : ∀ view entry pos, Accounts none (one view entry pos) (within view entry pos))
    (view : View) (entry : Match) (pos : Nat) :
    Accounts none (matchEntry one view entry pos) (entryTrace one within view entry pos) := by
  have he (pos : Nat) : Accounts none (expressionAt view (headedRun one) pos)
      (expressionTrace (headedRun one) (headedTrace one within) view pos) :=
    accounts_expression fun run after => (accounts_rules (hone _)).called _ _ _
  have hs (pos : Nat) : Accounts none (statementAt view (one view) pos)
      (statementTrace (one view) (within view) view pos) := accounts_statement (hone view)
  obtain ⟨slot, entry⟩ := entry
  cases entry
  case word | kind | typeName | identifier =>
    unfold entryTrace matchEntry tokenAt
    dsimp only
    split
    · exact accounts_pure _
    · exact accounts_event rfl
  case expression => exact (he pos).map _
  case statement => exact (hs pos).map _
  case arguments => exact (accounts_argumentList he).map _
  case parameters =>
    refine Accounts.map ?_ _
    unfold listOrNone entryTrace
    dsimp only
    split
    · exact accounts_pure _
    · exact accounts_parameters he
  case optional group => exact (accounts_entries (hone view)).map _
  case statements terminators => exact ((accounts_block hs).called _ _ _).map _

theorem accounts_matchOne (depth : Nat) (view : View) (entry : Match) (pos : Nat) :
    Accounts none (matchOne depth view entry pos) (oneTrace depth view entry pos) := by
  induction depth generalizing view entry pos with
  | zero => exact accounts_event rfl
  | succ depth ih => exact accounts_matchEntry ih view entry pos

theorem accounts_fileBody (view : View) : Accounts none (fileBody view) (fileTrace view) :=
  (accounts_block fun _ => accounts_statement (accounts_matchOne _ view)).called _ _ _

end

/-! ## The error of a source -/

/-- The fault that is reported of an attempt that fails. -/
theorem exists_reported (fault : Fault) (recorded : Option Fault) {reported : Fault}
    (hr : reported = match recorded with
      | some furthest => fault.furthest furthest
      | none => fault) :
    (⟨.error fault, recorded⟩ : Attempt α).Knows reported ∧
      ∀ known, (⟨.error fault, recorded⟩ : Attempt α).Knows known →
        known.progress ≤ reported.progress := by
  cases recorded with
  | none =>
    obtain rfl : reported = fault := hr
    refine ⟨.inl rfl, ?_⟩
    rintro known (hk | hk)
    · exact Nat.le_of_eq (congrArg _ (Except.error.inj hk).symm)
    · cases hk
  | some furthest =>
    have hle := le_furthestOf (some fault) furthest
    have he := furthestOf_eq (some fault) furthest
    obtain rfl : reported = furthestOf (some fault) furthest := hr
    refine ⟨he.imp (fun hf => congrArg _ (Option.some.inj hf)) (fun hf => congrArg _ hf.symm), ?_⟩
    rintro known (hk | hk)
    · exact Except.error.inj hk ▸ hle.1 fault rfl
    · exact Option.some.inj hk ▸ hle.2

/-- The error of a file is that of a fault that its attempt knows, and none of these got
further. -/
theorem parse_reports {tokens : Array Token} {name : String} {last : Token} {error : Error}
    (hb : tokens.back? = some last) (h : parse tokens name = .error error) :
    ∃ fault, (fileBody ⟨tokens, last⟩).Knows fault ∧ error = fault.toError ∧
      ∀ known, (fileBody ⟨tokens, last⟩).Knows known → known.progress ≤ fault.progress := by
  unfold parse at h
  rw [hb] at h
  split at h
  · next first _ _ heq =>
    cases heq
    split at h
    · cases h
    · next fault recorded hf =>
      obtain rfl := Except.error.inj h
      rw [hf]
      obtain ⟨hk, hle⟩ := exists_reported fault recorded rfl
      exact ⟨_, hk, rfl, hle⟩
  · next hnone =>
    have hsize : 0 < tokens.size := by
      refine Nat.pos_of_ne_zero fun hz => ?_
      simp [Array.size_eq_zero_iff.mp hz] at hb
    exact (hnone _ _ (Array.getElem?_eq_getElem hsize) rfl).elim

/-- The error of a source that is not accepted is that of a fault that is made somewhere, and no
fault that is made anywhere got further. -/
theorem parse_error_furthest {text name : String} {error : Error}
    (h : parse (tokenize text name) name = .error error) :
    ∃ last event fault, (tokenize text name).back? = some last ∧
      event ∈ fileTrace ⟨tokenize text name, last⟩ ∧ event.fault? = some fault ∧
      error = fault.toError ∧
      ∀ other ∈ fileTrace ⟨tokenize text name, last⟩, ∀ found, other.fault? = some found →
        found.progress ≤ fault.progress := by
  obtain ⟨body, hs, -⟩ := isSource_tokenize text name
  obtain ⟨lines, last, ht, -, -⟩ := hs.exists_lines
  have hb := IsSource.back?_eq ht
  have ha := accounts_fileBody ⟨tokenize text name, last⟩
  obtain ⟨fault, hk, rfl, hle⟩ := parse_reports hb h
  obtain hg | ⟨event, he, hf⟩ := ha.made fault hk
  · cases hg
  · refine ⟨last, event, fault, hb, he, hf, rfl, fun other ho found hfo => ?_⟩
    obtain ⟨known, hkn, hp⟩ := ha.reached other ho found hfo
    exact Nat.le_trans hp (hle known hkn)

/-- A skipped group got further than the statement that goes on without it. -/
theorem parse_error_furthest_skipped :
    ∃ error, parse (tokenize "return (1 +\n" "main") "main" = .error error ∧
      ∃ last event fault, (tokenize "return (1 +\n" "main").back? = some last ∧
        event ∈ fileTrace ⟨tokenize "return (1 +\n" "main", last⟩ ∧ event.fault? = some fault ∧
        error = fault.toError ∧
        ∀ other ∈ fileTrace ⟨tokenize "return (1 +\n" "main", last⟩, ∀ found,
          other.fault? = some found → found.progress ≤ fault.progress := by
  have hrefused : (parse (tokenize "return (1 +\n" "main") "main").isOk = false := by
    decide +kernel
  cases h : parse (tokenize "return (1 +\n" "main") "main" with
  | ok file =>
    rw [h] at hrefused
    cases hrefused
  | error error => exact ⟨error, rfl, parse_error_furthest h⟩

end StepScript.Grammar
