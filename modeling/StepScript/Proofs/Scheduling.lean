import Mathlib.Data.List.Perm.Basic
import Mathlib.Logic.Relation
import StepScript.Host.Standard
import StepScript.Scheduler
set_option autoImplicit false

/-!
# What becomes of executions

A scheduler keeps account of its executions: each of them still runs, has finished or has
failed, and never two of these.  The account is kept from tick to tick because a tick is one
turn of each execution, in the order in which they were spawned, whatever comes of the turns
(`Scheduler.tick_turns`).
-/

namespace StepScript

variable {σ τ : Type}

/-! ## Turns -/

/-- A turn of an execution, with the step that it has made. -/
structure Turn (σ τ : Type) where
  execution : Execution τ
  moved : Machine.Moved σ τ (Except Error Status)

namespace Turn

/-- The execution, if it goes on. -/
def remaining (turn : Turn σ τ) : Option (Execution τ) :=
  match turn.moved.stop with
  | .ok .suspended | .ok .waiting => some { turn.execution with machine := turn.moved.machine }
  | _ => none

/-- The value that the execution has finished with. -/
def result (turn : Turn σ τ) : Option (Nat × Constant) :=
  match turn.moved.stop with
  | .ok (.finished value) => some (turn.execution.id, value)
  | _ => none

/-- The error that the execution has ended with. -/
def failure (turn : Turn σ τ) : Option Failure :=
  match turn.moved.stop with
  | .error error => some ⟨turn.execution.id, turn.execution.name, error⟩
  | _ => none

/-- The execution waits. -/
def waits (turn : Turn σ τ) : Bool :=
  match turn.moved.stop with
  | .ok .waiting => true
  | _ => false

theorem waits_iff (turn : Turn σ τ) : turn.waits = true ↔ turn.moved.stop = .ok .waiting := by
  unfold waits
  split
  · next hs => simp [hs]
  · next hs => simpa using hs

/-- An execution that has had its turn goes on, has finished or has failed. -/
theorem ids_perm (turns : List (Turn σ τ)) :
    (turns.map (·.execution.id)).Perm
      ((turns.filterMap remaining).map (·.id) ++ (turns.filterMap result).map (·.1)
        ++ (turns.filterMap failure).map (·.id)) := by
  induction turns with
  | nil => exact .refl _
  | cons turn turns ih =>
    obtain ⟨execution, machine, world, stop⟩ := turn
    cases stop with
    | ok status =>
      cases status with
      | suspended | waiting => exact ih.cons _
      | finished value =>
        refine (ih.cons execution.id).trans ?_
        refine .trans ?_ (List.perm_middle.symm.append_right _)
        exact .refl _
    | error error =>
      refine (ih.cons execution.id).trans ?_
      exact List.perm_middle.symm

/-- Those that go on do so in their old order. -/
theorem remaining_sublist (turns : List (Turn σ τ)) :
    ((turns.filterMap remaining).map (·.id)).Sublist (turns.map (·.execution.id)) := by
  induction turns with
  | nil => exact .slnil
  | cons turn turns ih =>
    obtain ⟨execution, machine, world, stop⟩ := turn
    cases stop with
    | ok status =>
      cases status with
      | suspended | waiting => exact ih.cons_cons _
      | finished value => exact ih.cons _
    | error error => exact ih.cons _

end Turn

/-- The turns have been taken one after the other, the first of them in the one world, and
they have led to the other. -/
inductive Taken (host : Host σ τ) (bound : Nat) : World σ → List (Turn σ τ) → World σ → Prop
    where
  | nil (world : World σ) : Taken host bound world [] world
  | cons {world later : World σ} {turn : Turn σ τ} {turns : List (Turn σ τ)} {held : Held}
      (stepped : turn.execution.machine.step host held bound world = some turn.moved)
      (rest : Taken host bound turn.moved.world turns later) :
      Taken host bound world (turn :: turns) later

namespace Scheduler

variable {host : Host σ τ} {outside : Held} {bound : Nat} {scheduler later : Scheduler τ}
  {world world' : World σ} {progressed : Bool}

/-- The scheduler that has taken account of turns. -/
def withTurns (scheduler : Scheduler τ) (turns : List (Turn σ τ)) : Scheduler τ :=
  { scheduler with
    executions := scheduler.executions ++ turns.filterMap Turn.remaining
    results := scheduler.results ++ turns.filterMap Turn.result
    failures := scheduler.failures ++ turns.filterMap Turn.failure }

theorem withTurns_nil (scheduler : Scheduler τ) :
    scheduler.withTurns ([] : List (Turn σ τ)) = scheduler := by
  simp [withTurns]

theorem withTurns_cons (scheduler : Scheduler τ) (turn : Turn σ τ) (turns : List (Turn σ τ)) :
    scheduler.withTurns (turn :: turns) = (scheduler.withTurns [turn]).withTurns turns := by
  simp only [withTurns, List.append_assoc, ← List.filterMap_append, List.singleton_append]

theorem record_eq (scheduler : Scheduler τ) (turn : Turn σ τ) :
    scheduler.record turn.execution turn.moved.machine turn.moved.stop
      = (!turn.waits, scheduler.withTurns [turn]) := by
  obtain ⟨execution, machine, world, stop⟩ := turn
  cases stop with
  | ok status =>
    cases status <;> simp [record, withTurns, Turn.waits, Turn.remaining, Turn.result, Turn.failure]
  | error error => simp [record, withTurns, Turn.waits, Turn.remaining, Turn.result, Turn.failure]

/-- The rest of a tick is one turn of each execution that is left. -/
theorem tickRest_turns {rest : List (Execution τ)} {before : Bool}
    (h : tickRest host outside bound before rest scheduler world
      = some (progressed, later, world')) :
    ∃ turns, turns.map Turn.execution = rest ∧ Taken host bound world turns world' ∧
      later = scheduler.withTurns turns ∧ progressed = (before || turns.any fun turn => !turn.waits) := by
  induction rest generalizing before scheduler world with
  | nil =>
    cases h
    exact ⟨[], rfl, .nil _, (withTurns_nil _).symm, by simp⟩
  | cons execution rest ih =>
    unfold tickRest at h
    dsimp only at h
    split at h
    · cases h
    · next machine after stop hs =>
      let turn : Turn σ τ := ⟨execution, machine, after, stop⟩
      rw [show scheduler.record execution machine stop = _ from scheduler.record_eq turn] at h
      obtain ⟨turns, hr, ht, hl, hp⟩ := ih h
      refine ⟨turn :: turns, by rw [List.map_cons, hr], .cons hs ht, ?_, ?_⟩
      · rw [scheduler.withTurns_cons]
        exact hl
      · rw [hp, List.any_cons, Bool.or_assoc]

/-- A tick is one turn of each execution. -/
theorem tick_turns (h : scheduler.tick host outside bound world = some (progressed, later, world')) :
    ∃ turns, turns.map Turn.execution = scheduler.executions ∧
      Taken host bound world turns world' ∧
      later = { scheduler with executions := [] }.withTurns turns ∧
      (progressed = false ↔ ∀ turn ∈ turns, turn.moved.stop = .ok .waiting) := by
  obtain ⟨turns, he, ht, hl, hp⟩ := tickRest_turns h
  refine ⟨turns, he, ht, hl, ?_⟩
  simp only [hp, Bool.false_or, List.any_eq_false, Bool.not_eq_true', Bool.not_eq_false,
    Turn.waits_iff]

end Scheduler

/-! ## The account of a scheduler -/

/-- A scheduler in a world, with the numbers of all executions that it has ever had, and the
failures that have been taken from it. -/
structure Ledger (σ τ : Type) where
  scheduler : Scheduler τ
  world : World σ
  spawned : List Nat
  taken : List Failure

namespace Ledger

variable {host : Host σ τ} {ledger next : Ledger σ τ}

/-- What can be done with a scheduler; beside it, anything can happen to the world. -/
inductive Step (host : Host σ τ) : Ledger σ τ → Ledger σ τ → Prop where
  | spawn (ledger : Ledger σ τ) (name : String) (machine : Machine τ) :
      Step host ledger
        { ledger with
          scheduler := (ledger.scheduler.spawn name machine).2
          spawned := ledger.spawned ++ [(ledger.scheduler.spawn name machine).1] }
  | tick {ledger : Ledger σ τ} {outside : Held} {bound : Nat} {progressed : Bool}
      {scheduler : Scheduler τ} {world : World σ}
      (ticked : ledger.scheduler.tick host outside bound ledger.world
        = some (progressed, scheduler, world)) :
      Step host ledger { ledger with scheduler, world }
  | batch {ledger : Ledger σ τ} {outside : Held} {bound : Nat}
      {scheduler : Scheduler τ} {world : World σ}
      (ran : ledger.scheduler.batch host outside bound ledger.world = some (scheduler, world)) :
      Step host ledger { ledger with scheduler, world }
  | stop (ledger : Ledger σ τ) :
      Step host ledger { ledger with scheduler := ledger.scheduler.stop }
  | takeFailures (ledger : Ledger σ τ) :
      Step host ledger
        { ledger with
          scheduler := ledger.scheduler.takeFailures.2
          taken := ledger.taken ++ ledger.scheduler.takeFailures.1 }
  | world (ledger : Ledger σ τ) (world : World σ) : Step host ledger { ledger with world }

/-- A state that a scheduler can get into. -/
inductive Reachable (host : Host σ τ) : Ledger σ τ → Prop where
  | start (config : Config) (world : World σ) : Reachable host ⟨{ config }, world, [], []⟩
  | step {ledger next : Ledger σ τ} (before : Reachable host ledger)
      (step : Step host ledger next) : Reachable host next

/-- Every execution that has been spawned still runs, has finished or has failed. -/
structure Accounted (ledger : Ledger σ τ) : Prop where
  increasing : ledger.spawned.Pairwise (· < ·)
  bounded : ∀ id ∈ ledger.spawned, id ≤ ledger.scheduler.lastId
  inOrder : (ledger.scheduler.executions.map (·.id)).Sublist ledger.spawned
  complete : ledger.spawned.Perm
    (ledger.scheduler.executions.map (·.id) ++ ledger.scheduler.results.map (·.1)
      ++ (ledger.scheduler.failures ++ ledger.taken).map (·.id))

theorem Accounted.spawn (h : ledger.Accounted) (name : String) (machine : Machine τ) :
    Accounted
      { ledger with
        scheduler := (ledger.scheduler.spawn name machine).2
        spawned := ledger.spawned ++ [(ledger.scheduler.spawn name machine).1] } := by
  constructor
  case increasing =>
      refine List.pairwise_append.mpr ⟨h.increasing, List.pairwise_singleton .., ?_⟩
      intro id hid new hnew
      have hb := h.bounded id hid
      rw [List.mem_singleton.mp hnew]
      exact Nat.lt_succ_of_le hb
  case bounded =>
      intro id hid
      rcases List.mem_append.mp hid with hold | hnew
      · exact Nat.le_succ_of_le (h.bounded id hold)
      · exact Nat.le_of_eq (List.mem_singleton.mp hnew)
  case inOrder =>
      rw [show (ledger.scheduler.spawn name machine).2.executions.map (·.id)
        = ledger.scheduler.executions.map (·.id) ++ [ledger.scheduler.lastId + 1] by
          simp [Scheduler.spawn]]
      exact h.inOrder.append (.refl _)
  case complete =>
      refine List.perm_iff_count.mpr fun id => ?_
      have hc := List.perm_iff_count.mp h.complete id
      simp only [Scheduler.spawn, List.map_append, List.map_cons, List.map_nil,
        List.count_append] at hc ⊢
      omega

/-- A tick keeps the account. -/
theorem Accounted.tick (h : ledger.Accounted) {outside : Held} {bound : Nat} {progressed : Bool}
    {scheduler : Scheduler τ} {world : World σ}
    (ht : ledger.scheduler.tick host outside bound ledger.world
      = some (progressed, scheduler, world)) :
    Accounted { ledger with scheduler, world } := by
  obtain ⟨turns, he, -, rfl, -⟩ := Scheduler.tick_turns ht
  have hids : ledger.scheduler.executions.map (·.id) = turns.map (·.execution.id) := by
    rw [← he, List.map_map]
    rfl
  have hold := hids ▸ h.complete
  constructor
  case increasing => exact h.increasing
  case bounded => exact h.bounded
  case inOrder => exact (Turn.remaining_sublist turns).trans (hids ▸ h.inOrder)
  case complete =>
      -- what has come of the turns takes the place of the executions that have had them
      refine List.perm_iff_count.mpr fun id => ?_
      have hc := List.perm_iff_count.mp h.complete id
      have htr := List.perm_iff_count.mp (Turn.ids_perm turns) id
      simp only [hids, Scheduler.withTurns, List.nil_append, List.map_append,
        List.count_append] at hc htr ⊢
      omega

/-- A batch is a sequence of ticks, so it keeps the account too. -/
theorem Accounted.batchWithin {outside : Held} {bound start ticks : Nat}
    {scheduler : Scheduler τ} {world : World σ} (h : ledger.Accounted)
    (hran : ledger.scheduler.batchWithin host outside bound start ticks ledger.world
      = some (scheduler, world)) :
    Accounted { ledger with scheduler, world } := by
  induction ticks generalizing ledger with
  | zero => cases hran
  | succ ticks ih =>
    unfold Scheduler.batchWithin at hran
    split at hran
    · cases hran
      exact h
    · split at hran
      · cases hran
      · next progressed ticked after htc =>
        have ht := h.tick htc
        split at hran
        · cases hran
          exact ht
        · have hr := ih ht hran
          exact hr

theorem Step.accounted (hs : Step host ledger next) (h : ledger.Accounted) : next.Accounted := by
  cases hs with
  | spawn name machine => exact h.spawn name machine
  | tick ticked => exact h.tick ticked
  | batch ran => exact h.batchWithin ran
  | stop => exact ⟨h.increasing, h.bounded, h.inOrder, h.complete⟩
  | takeFailures =>
    refine ⟨h.increasing, h.bounded, h.inOrder, ?_⟩
    refine List.perm_iff_count.mpr fun id => ?_
    have hc := List.perm_iff_count.mp h.complete id
    simp only [Scheduler.takeFailures, List.map_append, List.count_append,
      List.nil_append] at hc ⊢
    omega
  | world => exact ⟨h.increasing, h.bounded, h.inOrder, h.complete⟩

theorem Reachable.accounted (h : Reachable host ledger) : ledger.Accounted := by
  induction h with
  | start config world => exact ⟨.nil, by simp, .slnil, .refl _⟩
  | step _ hs ih => exact hs.accounted ih

/-- Whatever has been done with a scheduler: no number has been given twice; the executions that
run do so in the order in which they were spawned; each execution that was ever spawned runs, has
finished or has failed, just one of these and just once; and a tick is one turn of each
execution that runs, in their order, and makes no progress just if all of them wait. -/
theorem Reachable.no_execution_lost_or_repeated (h : Reachable host ledger) :
    ledger.spawned.Nodup ∧
      (ledger.scheduler.executions.map (·.id)).Pairwise (· < ·) ∧
      (ledger.scheduler.executions.map (·.id)).Sublist ledger.spawned ∧
      ledger.spawned.Perm
        (ledger.scheduler.executions.map (·.id) ++ ledger.scheduler.results.map (·.1)
          ++ (ledger.scheduler.failures ++ ledger.taken).map (·.id)) ∧
      ∀ outside bound progressed scheduler world,
        ledger.scheduler.tick host outside bound ledger.world
            = some (progressed, scheduler, world) →
          ∃ turns, turns.map Turn.execution = ledger.scheduler.executions ∧
            Taken host bound ledger.world turns world ∧
            scheduler = { ledger.scheduler with
              executions := turns.filterMap Turn.remaining
              results := ledger.scheduler.results ++ turns.filterMap Turn.result
              failures := ledger.scheduler.failures ++ turns.filterMap Turn.failure } ∧
            (progressed = false ↔ ∀ turn ∈ turns, turn.moved.stop = .ok .waiting) := by
  have haccounted := h.accounted
  refine ⟨haccounted.increasing.imp Nat.ne_of_lt, haccounted.increasing.sublist haccounted.inOrder,
    haccounted.inOrder, haccounted.complete, ?_⟩
  intro outside bound progressed scheduler world hticked
  exact Scheduler.tick_turns hticked

/-- Two executions that have just been spawned: a value, and a name that nothing binds. -/
def twoSpawned : Ledger Unit Standard.Sleep where
  scheduler :=
    { executions :=
        [⟨1, "value", .ofNode ⟨.literal .none, default⟩ ⟨0⟩⟩,
          ⟨2, "name", .ofNode ⟨.literal (.identifier "x"), default⟩ ⟨0⟩⟩]
      lastId := 2 }
  world := ⟨{}, { state := () }⟩
  spawned := [1, 2]
  taken := []

/-- The one finishes and the other fails in the same tick. -/
theorem Reachable.no_execution_lost_or_repeated_twoSpawned :
    Reachable Standard.host twoSpawned ∧ ∃ progressed scheduler world,
      twoSpawned.scheduler.tick Standard.host (fun _ => []) 1 twoSpawned.world
          = some (progressed, scheduler, world) ∧
        scheduler.results = [(1, .none)] ∧ scheduler.failures.map (·.id) = [2] ∧
        ∃ turns, turns.map Turn.execution = twoSpawned.scheduler.executions ∧
          Taken Standard.host 1 twoSpawned.world turns world ∧
          (progressed = false ↔ ∀ turn ∈ turns, turn.moved.stop = .ok .waiting) := by
  have hreachable : Reachable Standard.host twoSpawned :=
    ((Reachable.start {} _).step (.spawn _ "value" _)).step (.spawn _ "name" _)
  obtain ⟨scheduler, world, htick, hresults, hfailures⟩ : ∃ scheduler world,
      twoSpawned.scheduler.tick Standard.host (fun _ => []) 1 twoSpawned.world
          = some (true, scheduler, world) ∧
        scheduler.results = [(1, .none)] ∧ scheduler.failures.map (·.id) = [2] :=
    ⟨_, _, rfl, rfl, rfl⟩
  obtain ⟨turns, hturns, htaken, -, hprogressed⟩ :=
    hreachable.no_execution_lost_or_repeated.2.2.2.2 _ _ _ _ _ htick
  exact ⟨hreachable, true, scheduler, world, htick, hresults, hfailures, turns, hturns, htaken,
    hprogressed⟩

end Ledger

end StepScript
