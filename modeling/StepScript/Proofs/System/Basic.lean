import Mathlib.Logic.Relation
import StepScript.Program
set_option autoImplicit false

/-!
# Programs that run

A system is a program together with everything that a host has made of it so far: the units
that have been registered, the machines that still run, and the values that machines have
finished with.  `System.Step` says what can happen to it.  Machines take their turns in any
order, so the ticks of a scheduler and the updates of a frame are sequences of such steps
(`Scheduler.tick_steps`, `Program.update_steps`).
-/

namespace StepScript

variable {σ τ : Type}

/-! ## One step of a machine -/

namespace Machine

/-- One move that does not stop the machine. -/
def GoesOn (host : Host σ τ) (outside : Held) (now later : Machine τ × World σ) : Prop :=
  now.1.move host outside now.2 = ⟨later.1, later.2, none⟩

/-- A step is a sequence of moves that do not stop the machine, and one that does. -/
theorem moves_of_step {host : Host σ τ} {outside : Held} {moves : Nat} {machine : Machine τ}
    {world : World σ} {stopped : Moved σ τ (Except Error Status)}
    (hs : machine.step host outside moves world = some stopped) :
    ∃ last before, Relation.ReflTransGen (GoesOn host outside) (machine, world) (last, before) ∧
      last.move host outside before = ⟨stopped.machine, stopped.world, some stopped.stop⟩ := by
  induction moves generalizing machine world with
  | zero => cases hs
  | succ moves ih =>
    unfold step at hs
    split at hs
    · next later after stop hl =>
      obtain rfl := Option.some.inj hs
      exact ⟨machine, world, .refl, hl⟩
    · next later after hm =>
      obtain ⟨last, before, hmv, hl⟩ := ih hs
      have hf : GoesOn host outside (machine, world) (later, after) := hm
      exact ⟨last, before, hmv.head hf, hl⟩

/-- The machine, if it goes on after the step. -/
def Moved.remaining (moved : Moved σ τ (Except Error Status)) : List (Machine τ) :=
  match moved.stop with
  | .ok .suspended | .ok .waiting => [moved.machine]
  | _ => []

theorem Moved.of_mem_remaining {moved : Moved σ τ (Except Error Status)} {machine : Machine τ}
    (h : machine ∈ moved.remaining) :
    machine = moved.machine ∧ (moved.stop = .ok .suspended ∨ moved.stop = .ok .waiting) := by
  unfold remaining at h
  split at h
  · next hs => exact ⟨List.mem_singleton.mp h, .inl hs⟩
  · next hs => exact ⟨List.mem_singleton.mp h, .inr hs⟩
  · cases h

/-- The value that the machine has finished with. -/
def Moved.given (moved : Moved σ τ (Except Error Status)) : List Constant :=
  match moved.stop with
  | .ok (.finished value) => [value]
  | _ => []

end Machine

/-! ## Systems -/

/-- A program that runs. -/
structure System (σ τ : Type) where
  program : Program
  /-- The units that have been accepted. -/
  units : List Code
  /-- The machines that have neither finished nor failed. -/
  running : List (Machine τ)
  /-- Values that machines have finished with, as far as the host has kept them. -/
  results : List Constant
  world : World σ

/-- The value refers to nothing. -/
def Constant.isPlain : Constant → Bool
  | .none | .boolean _ | .number _ | .string _ => true
  | .identifier _ | .object _ => false

namespace System

variable {host : Host σ τ} {system next : System σ τ}

/-- The store of the program. -/
abbrev store (system : System σ τ) : Store := system.world.store

/-- While a machine has its turn, the Global scope, the other machines and the results are
held. -/
structure Covers (host : Host σ τ) (system : System σ τ) (others : List (Machine τ))
    (outside : Held) : Prop where
  root : .scope system.program.root ∈ outside ()
  machines : ∀ other ∈ others, ∀ ref ∈ other.refs host, ref ∈ outside ()
  results : ∀ result ∈ system.results, ∀ ref ∈ result.refs, ref ∈ outside ()

/-- What can happen to a program. -/
inductive Step (host : Host σ τ) : System σ τ → System σ τ → Prop where
  /-- Sources are registered as one more unit, or refused. -/
  | register (system : System σ τ) (sources : List Source) :
      Step host system
        { system with
          units := system.units
            ++ (Program.register system.store system.program.root sources).1.toOption.toList
          world := { system.world with
            store := (Program.register system.store system.program.root sources).2 } }
  /-- A unit begins to run. -/
  | begin {system : System σ τ} {code : Code} (accepted : code ∈ system.units) :
      Step host system
        { system with
          running := system.running ++ [system.program.machineOf system.store code] }
  /-- A call of a function begins, in the scope that declares it. -/
  | call {system : System σ τ} {scope : ScopeId} {name : String} {function : Function}
      {args : List Constant} (declared : system.store.ownFunction? scope name = some function)
      (known : ∀ arg ∈ args, arg.isPlain = true ∨ arg ∈ system.results) :
      Step host system
        { system with
          running := system.running ++ [.ofCall function args (function.callParent scope)] }
  /-- A machine has its turn. -/
  | turn {system : System σ τ} {before after : List (Machine τ)} {machine : Machine τ}
      {outside : Held} {moves : Nat} {moved : Machine.Moved σ τ (Except Error Status)}
      (running : system.running = before ++ machine :: after)
      (covers : Covers host system (before ++ after) outside)
      (stepped : machine.step host outside moves system.world = some moved) :
      Step host system
        { system with
          running := before ++ moved.remaining ++ after
          results := system.results ++ moved.given
          world := moved.world }
  /-- The host drops machines and results. -/
  | drop {system : System σ τ} {running : List (Machine τ)} {results : List Constant}
      (fewer : running.Sublist system.running)
      (forgotten : ∀ result ∈ results, result ∈ system.results) :
      Step host system { system with running, results }
  /-- The frame ends. -/
  | endFrame (system : System σ τ) :
      Step host system
        { system with
          world := { system.world with store := system.program.endFrame system.store } }
  /-- Something happens to the surroundings of the program. -/
  | surroundings (system : System σ τ) (context : Context σ) :
      Step host system { system with world := { system.world with context } }

/-- The system of a program that has just been built. -/
def start (program : Program) (store : Store) (context : Context σ) : System σ τ where
  program
  units := [program.code]
  running := []
  results := []
  world := ⟨store, context⟩

/-- A state that a program can get into. -/
inductive Reachable (host : Host σ τ) : System σ τ → Prop where
  | build {library sources : List Source} {program : Program} {store : Store}
      (built : Program.build library sources = .ok (program, store)) (context : Context σ) :
      Reachable host (start program store context)
  | step {system next : System σ τ} (before : Reachable host system)
      (step : Step host system next) : Reachable host next

end System

end StepScript
