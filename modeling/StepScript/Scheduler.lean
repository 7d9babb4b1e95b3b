import StepScript.Machine.Basic
set_option autoImplicit false

/-!
# Scheduling

Executions take turns: one tick steps each of them once, in the order in which they were
spawned, and nothing interrupts a step.  Every function here takes a bound on the moves
and rounds that it makes, and gives no answer when the bound is too small.
-/

namespace StepScript

structure Execution (τ : Type) where
  id : Nat
  name : String
  machine : Machine τ
  deriving Inhabited

namespace Execution

variable {σ τ : Type}

/-- Step a machine until it has finished.  It must not wait for anything. -/
def completeWithin (host : Host σ τ) (outside : Held) (bound : Nat) :
    (steps : Nat) → Execution τ → World σ → Option (Except Error Constant × World σ)
  | 0, _, _ => none
  | steps + 1, execution, world =>
    match execution.machine.step host outside bound world with
    | none => none
    | some ⟨_, world, .error error⟩ => some (.error error, world)
    | some ⟨_, world, .ok (.finished value)⟩ => some (.ok value, world)
    | some ⟨_, world, .ok .waiting⟩ =>
      some (.error (.runtime (.cannotWait execution.name)), world)
    | some ⟨machine, world, .ok .suspended⟩ =>
      completeWithin host outside bound steps { execution with machine } world

def complete (host : Host σ τ) (outside : Held) (bound : Nat) (execution : Execution τ)
    (world : World σ) : Option (Except Error Constant × World σ) :=
  completeWithin host outside bound bound execution world

end Execution

structure Failure where
  id : Nat
  name : String
  error : Error
  deriving Inhabited

structure Config where
  /-- How long a batch of ticks may go on. -/
  budget : Nat := 10
  /-- The pause between two batches. -/
  pause : Nat := 1
  deriving DecidableEq, Repr, Inhabited

structure Scheduler (τ : Type) where
  config : Config := {}
  /-- Executions that still run, in the order in which they were spawned. -/
  executions : List (Execution τ) := []
  lastId : Nat := 0
  /-- The values of executions that have finished. -/
  results : List (Nat × Constant) := []
  failures : List Failure := []
  stopped : Bool := false
  deriving Inhabited

namespace Scheduler

variable {σ τ : Type}

/-- Schedule a machine after all others.  The answer has its number. -/
def spawn (scheduler : Scheduler τ) (name : String) (machine : Machine τ) :
    Nat × Scheduler τ :=
  let id := scheduler.lastId + 1
  (id, { scheduler with
    executions := scheduler.executions ++ [{ id, name, machine }]
    lastId := id
    stopped := false })

def live (scheduler : Scheduler τ) : Nat := scheduler.executions.length

def stop (scheduler : Scheduler τ) : Scheduler τ := { scheduler with stopped := true }

def isStopped (scheduler : Scheduler τ) : Bool :=
  scheduler.stopped || scheduler.executions.isEmpty

def result? (scheduler : Scheduler τ) (id : Nat) : Option Constant :=
  scheduler.results.lookup id

def takeFailures (scheduler : Scheduler τ) : List Failure × Scheduler τ :=
  (scheduler.failures, { scheduler with failures := [] })

def executionRefs (host : Host σ τ) (executions : List (Execution τ)) : List Ref :=
  executions.flatMap fun execution => execution.machine.refs host

def refs (host : Host σ τ) (scheduler : Scheduler τ) : List Ref :=
  executionRefs host scheduler.executions
    ++ scheduler.results.flatMap fun result => result.2.refs

/-! ## Ticks -/

/-- Take the end of a step into account.  The flag says whether the step has made
progress. -/
def record (scheduler : Scheduler τ) (execution : Execution τ) (machine : Machine τ) :
    Except Error Status → Bool × Scheduler τ
  | .ok .suspended =>
    (true, { scheduler with
      executions := scheduler.executions ++ [{ execution with machine }] })
  | .ok .waiting =>
    (false, { scheduler with
      executions := scheduler.executions ++ [{ execution with machine }] })
  | .ok (.finished value) =>
    (true, { scheduler with results := scheduler.results ++ [(execution.id, value)] })
  | .error error =>
    (true, { scheduler with
      failures := scheduler.failures ++ [⟨execution.id, execution.name, error⟩] })

/-- Step the rest of the executions, where the scheduler holds those that have had their
turn. -/
def tickRest (host : Host σ τ) (outside : Held) (bound : Nat) (progressed : Bool) :
    (rest : List (Execution τ)) → Scheduler τ → World σ →
    Option (Bool × Scheduler τ × World σ)
  | [], scheduler, world => some (progressed, scheduler, world)
  | execution :: rest, scheduler, world =>
    let held : Held := fun _ =>
      outside () ++ scheduler.refs host ++ executionRefs host rest
    match execution.machine.step host held bound world with
    | none => none
    | some ⟨machine, world, stop⟩ =>
      let (moved, scheduler) := scheduler.record execution machine stop
      tickRest host outside bound (progressed || moved) rest scheduler world

/-- Step each execution once.  The flag says whether one of them has made progress. -/
def tick (host : Host σ τ) (outside : Held) (bound : Nat) (scheduler : Scheduler τ)
    (world : World σ) : Option (Bool × Scheduler τ × World σ) :=
  tickRest host outside bound false scheduler.executions
    { scheduler with executions := [] } world

/-! ## Batches -/

/-- Tick until nothing runs or nothing makes progress, or until the budget is spent.  The
time goes on only where the host lets it. -/
def batchWithin (host : Host σ τ) (outside : Held) (bound start : Nat) :
    (ticks : Nat) → Scheduler τ → World σ → Option (Scheduler τ × World σ)
  | 0, _, _ => none
  | ticks + 1, scheduler, world =>
    if scheduler.isStopped then some (scheduler, world)
    else
      match scheduler.tick host outside bound world with
      | none => none
      | some (progressed, scheduler, world) =>
        if !progressed || scheduler.config.budget ≤ world.context.clock - start then
          some (scheduler, world)
        else batchWithin host outside bound start ticks scheduler world

def batch (host : Host σ τ) (outside : Held) (bound : Nat) (scheduler : Scheduler τ)
    (world : World σ) : Option (Scheduler τ × World σ) :=
  batchWithin host outside bound world.context.clock bound scheduler world

/-- What a host does between two batches.  It keeps a value of its own. -/
abbrev Between (σ τ κ : Type) : Type :=
  κ → Scheduler τ → World σ → Option (κ × Scheduler τ × World σ)

/-- Let time pass between two batches.  It goes on also without a pause, so that a task that
waits for a point in time is ready some day. -/
def passTime (world : World σ) (pause : Nat) : World σ :=
  { world with context := { world.context with clock := world.context.clock + max 1 pause } }

/-- Run batches with the work of the host and a pause between them, until nothing
runs. -/
def runWithin {κ : Type} (host : Host σ τ) (outside : Held) (bound : Nat)
    (between : Between σ τ κ) : (rounds : Nat) → κ → Scheduler τ → World σ →
    Option (κ × Scheduler τ × World σ)
  | 0, _, _, _ => none
  | rounds + 1, kept, scheduler, world =>
    if scheduler.isStopped then some (kept, scheduler, world)
    else
      match scheduler.batch host outside bound world with
      | none => none
      | some (scheduler, world) =>
        if scheduler.isStopped then some (kept, scheduler, world)
        else
          match between kept scheduler world with
          | none => none
          | some (kept, scheduler, world) =>
            if scheduler.isStopped then some (kept, scheduler, world)
            else
              runWithin host outside bound between rounds kept scheduler
                (passTime world scheduler.config.pause)

def run {κ : Type} (host : Host σ τ) (outside : Held) (bound : Nat)
    (between : Between σ τ κ) (kept : κ) (scheduler : Scheduler τ) (world : World σ) :
    Option (κ × Scheduler τ × World σ) :=
  runWithin host outside bound between bound kept scheduler world

end Scheduler

end StepScript
