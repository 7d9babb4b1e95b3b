import StepScript.Grammar.Parser
import StepScript.Registration.Draft
import StepScript.Scheduler
set_option autoImplicit false

/-!
# Programs

A program is built from sources: they are parsed and registered as one unit in a new
Global scope.  More sources can be loaded later.  A frame runs the updates that have
been registered and then releases the executions that wait for its end.
-/

namespace StepScript

structure Source where
  name : String
  text : String
  deriving DecidableEq, Repr, Inhabited

structure Program where
  root : ScopeId
  code : Code
  deriving Inhabited

namespace Program

def register (store : Store) (root : ScopeId) (sources : List Source) :
    Except Error Code × Store :=
  match sources.mapM fun source => Grammar.parseText source.text source.name with
  | .error error => (.error error, store)
  | .ok files =>
    match store.addUnit root files with
    | (.error error, store) => (.error error, store)
    | (.ok classes, store) => (.ok { files, classes }, store)

def build (library sources : List Source) : Except Error (Program × Store) :=
  let (root, store) := Store.newGlobal {}
  match register store root (library ++ sources) with
  | (.error error, _) => .error error
  | (.ok code, store) => .ok ({ root, code }, store)

def check (library sources : List Source) : Except Error Unit :=
  (build library sources).map fun _ => ()

/-- Register a source as one more unit of the program, which stays usable when that
fails. -/
def extend (program : Program) (store : Store) (source : Source) :
    Except Error Code × Store :=
  register store program.root [source]

/-- The unit of a source, and the store of the program with it. -/
def load (program : Program) (store : Store) (source : Source) :
    Except Error (Code × Store) :=
  match program.extend store source with
  | (.error error, _) => .error error
  | (.ok code, store) => .ok (code, store)

variable {σ τ : Type}

def refs (program : Program) : List Ref := [.scope program.root]

def machineOf (program : Program) (store : Store) (code : Code) : Machine τ :=
  .ofCode store (fun _ => program.refs) code program.root

def machine (program : Program) (store : Store) : Machine τ :=
  program.machineOf store program.code

/-! ## Frames -/

/-- The answer of something that runs: a failure or nothing, and the world. -/
abbrev Ran (σ : Type) : Type := Option (Except Error Unit × World σ)

def callUpdate (host : Host σ τ) (outside : Held) (bound : Nat) (function : Function)
    (parent : ScopeId) (world : World σ) : Ran σ :=
  let execution : Execution τ :=
    { id := 0, name := function.qualifiedName, machine := .ofCall function [] parent }
  (execution.complete host outside bound world).map fun (result, world) =>
    (result.map fun _ => (), world)

def updateBehaviours (host : Host σ τ) (outside : Held) (bound : Nat) :
    List ObjectRef → World σ → Ran σ
  | [], world => some (.ok (), world)
  | behaviour :: rest, world =>
    let function := (world.store.outerScope? behaviour).bind fun scope =>
      (world.store.ownFunction? scope "update").map (·, scope)
    match function with
    | none => updateBehaviours host outside bound rest world
    | some (function, scope) =>
      match callUpdate host outside bound function scope world with
      | some (.ok (), world) => updateBehaviours host outside bound rest world
      | stop => stop

def updateObject (host : Host σ τ) (outside : Held) (bound : Nat) (object : ObjectRef)
    (world : World σ) : Ran σ :=
  let found := (world.store.outerScope? object).bind fun scope =>
    world.store.memberFunction? outside scope "update"
  let updated :=
    match found with
    | some (function, place) =>
      callUpdate host outside bound function (function.callParent place) world
    | none => some (.ok (), world)
  match updated with
  | some (.ok (), world) =>
    updateBehaviours host outside bound (world.store.object object).behaviours world
  | stop => stop

def updateTarget (host : Host σ τ) (outside : Held) (bound : Nat) (target : UpdateTarget)
    (world : World σ) : Ran σ :=
  match target with
  | .ofClass id =>
    let scope := (world.store.classAt id).sharedScope
    match world.store.ownFunction? scope "update" with
    | some function => callUpdate host outside bound function scope world
    | none => some (.ok (), world)
  | .ofObject object => updateObject host outside bound object world

def updateTargets (host : Host σ τ) (outside : Held) (bound : Nat) :
    List UpdateTarget → World σ → Ran σ
  | [], world => some (.ok (), world)
  | target :: rest, world =>
    match updateTarget host outside bound target world with
    | some (.ok (), world) => updateTargets host outside bound rest world
    | stop => stop

/-- Run the updates that are registered for a phase when it begins. -/
def update (host : Host σ τ) (outside : Held) (bound : Nat) (program : Program)
    (order : UpdateOrder) (world : World σ) : Ran σ :=
  let (targets, store) := world.store.withState (fun _ => program.refs) program.root
    fun state => (state.registry order, state)
  let held : Held := fun _ =>
    outside () ++ program.refs ++ targets.flatMap UpdateTarget.refs
  updateTargets host held bound targets { world with store }

def endFrame (program : Program) (store : Store) : Store :=
  let (waiters, store) := store.withState (fun _ => program.refs) program.root
    fun state => (state.waiters, { state with waiters := [] })
  waiters.foldl Store.release store

def updatePhases (host : Host σ τ) (outside : Held) (bound : Nat) (program : Program) :
    List UpdateOrder → World σ → Ran σ
  | [], world => some (.ok (), world)
  | order :: rest, world =>
    match program.update host outside bound order world with
    | some (.ok (), world) => updatePhases host outside bound program rest world
    | stop => stop

def frame (host : Host σ τ) (outside : Held) (bound : Nat) (program : Program)
    (world : World σ) : Ran σ :=
  match program.updatePhases host outside bound UpdateOrder.all world with
  | some (.ok (), ⟨store, context⟩) =>
    some (.ok (), ⟨program.endFrame store, { context with frame := context.frame + 1 }⟩)
  | stop => stop

/-! ## Running -/

def frameBetween (host : Host σ τ) (bound : Nat) (program : Program) :
    Scheduler.Between σ τ (Option Error) := fun kept scheduler world =>
  match program.frame host (fun _ => scheduler.refs host) bound world with
  | none => none
  | some (.ok (), world) => some (kept, scheduler, world)
  | some (.error error, world) => some (some error, scheduler.stop, world)

/-- Run a machine, with a frame whenever everything waits, and give the failure of a
frame, the first failure of an execution, and the value of the machine. -/
def drive (host : Host σ τ) (bound : Nat) (program : Program) (config : Config)
    (name : String) (machine : Machine τ) (world : World σ) :
    Option ((Option Error × Option Error × Constant) × World σ) :=
  let (id, scheduler) := Scheduler.spawn { config } name machine
  match scheduler.run host (fun _ => program.refs) bound (program.frameBetween host bound)
      none world with
  | none => none
  | some (failed, scheduler, world) =>
    some ((failed, scheduler.failures.head?.map (·.error),
      (scheduler.result? id).getD .none), world)

def run (host : Host σ τ) (bound : Nat) (library sources : List Source) (config : Config)
    (context : Context σ) : Option (Except Error Constant × Context σ) :=
  match build library sources with
  | .error error => some (.error error, context)
  | .ok (program, store) =>
    match program.drive host bound config "main" (program.machine store) ⟨store, context⟩ with
    | none => none
    | some ((some error, _, _), world) => some (.error error, world.context)
    | some ((none, some error, _), world) => some (.error error, world.context)
    | some ((none, none, value), world) => some (.ok value, world.context)

end Program

end StepScript
