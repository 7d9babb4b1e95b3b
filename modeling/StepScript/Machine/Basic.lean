import StepScript.Machine.Node
import StepScript.Machine.Start
set_option autoImplicit false

/-!
# Machines

A machine is one execution: a stack of frames.  It runs in a world, which is the store
of the program and the surroundings that the host keeps.  One move resumes the frame on
top; one step makes moves up to the next pause.
-/

namespace StepScript

structure World (σ : Type) where
  store : Store
  context : Context σ
  deriving Inhabited

inductive Frame (τ : Type) where
  | node (frame : NodeFrame)
  | start (start : Start)
  | call (call : Call)
  /-- A call of a native function; the task that it has left behind is polled. -/
  | native (function : Function) (scope : ScopeId) (task : Option (HostTask τ))
  | construct (construction : Construction)
  deriving Inhabited

namespace Frame

variable {σ τ : Type}

def ofWork : Work → Frame τ
  | .node evaluated scope => .node { node := evaluated, scope }
  | .call begun => .call begun
  | .native function scope => .native function scope none
  | .construct begun => .construct begun

/-- What a frame holds.  The steps of a construction work in scopes of its object. -/
def refs (host : Host σ τ) : Frame τ → List Ref
  | .node frame => .scope frame.scope :: frame.progress.refs
  | .start begun => begun.refs
  | .call begun => begun.refs
  | .native function scope task =>
    function.refs ++ .scope scope :: task.toList.flatMap (HostTask.refs host)
  | .construct begun => [.object begun.object]

def node? : Frame τ → Option Node
  | .node frame => some frame.node
  | _ => none

structure Resumed (σ τ : Type) where
  frame : Frame τ
  world : World σ
  flow : Except Error Flow

def pollTask (host : Host σ τ) (world : World σ) (function : Function) (scope : ScopeId)
    (task : HostTask τ) : Resumed σ τ :=
  let (answer, task, context) := task.poll host world.context
  ⟨.native function scope (some task), { world with context },
    answer.map fun
      | .ready value => .give value
      | .pending => .wait⟩

/-- Resume a call of a native function: call it the first time, and poll its task. -/
def resumeNative (host : Host σ τ) (held : Held) (world : World σ) (function : Function)
    (scope : ScopeId) (task : Option (HostTask τ)) : Resumed σ τ :=
  match task with
  | some task => pollTask host world function scope task
  | none =>
    match host.native? function.owner function.name with
    | none =>
      ⟨.native function scope none, world,
        .error (.runtime (.missingNative function.qualifiedName))⟩
    | some provided =>
      let (answer, context) := provided (world.store.argument held scope) world.context
      let world := { world with context }
      match answer with
      | .error error => ⟨.native function scope none, world, .error error⟩
      | .ok (.done value) => ⟨.native function scope none, world, .ok (.give value)⟩
      | .ok (.pending task) => pollTask host world function scope task

def resume (host : Host σ τ) (held : Held) (frame : Frame τ) (world : World σ)
    (incoming : Option Outcome) : Resumed σ τ :=
  match frame, world with
  | .node frame, ⟨store, context⟩ =>
    let ⟨progress, store, flow⟩ := frame.resume store held incoming
    ⟨.node { frame with progress }, ⟨store, context⟩, flow⟩
  | .start begun, ⟨store, context⟩ =>
    let ⟨begun, store, flow⟩ := begun.resume store held incoming
    ⟨.start begun, ⟨store, context⟩, flow⟩
  | .call begun, ⟨store, context⟩ =>
    let ⟨begun, store, flow⟩ := begun.resume store incoming
    ⟨.call begun, ⟨store, context⟩, flow⟩
  | .construct begun, ⟨store, context⟩ =>
    let ⟨begun, store, flow⟩ := begun.resume store held incoming
    ⟨.construct begun, ⟨store, context⟩, flow⟩
  | .native function scope task, world =>
    resumeNative host held world function scope task

end Frame

/-! ## The stack -/

/-- Frames, the one on top first, with their number. -/
structure Stack (τ : Type) where
  frames : List (Frame τ)
  depth : Nat
  depth_eq : depth = frames.length

namespace Stack

variable {τ : Type}

instance : Inhabited (Stack τ) := ⟨⟨[], 0, rfl⟩⟩

def single (frame : Frame τ) : Stack τ := ⟨[frame], 1, rfl⟩

def push (stack : Stack τ) (frame : Frame τ) : Stack τ :=
  ⟨frame :: stack.frames, stack.depth + 1, by simp [stack.depth_eq]⟩

def pop? : Stack τ → Option (Frame τ × Stack τ)
  | ⟨[], _, _⟩ => none
  | ⟨frame :: rest, depth, _⟩ =>
    some (frame, ⟨rest, depth - 1, by simp_all⟩)

def node? (stack : Stack τ) : Option Node := stack.frames.findSome? Frame.node?

def locate (stack : Stack τ) (error : Error) : Error :=
  match stack.node? with
  | some node => error.atNode node.kind.name node.token
  | none => error

end Stack

/-! ## Machines -/

structure Machine (τ : Type) where
  stack : Stack τ
  /-- The outcome for the frame on top. -/
  incoming : Option Outcome := none
  result : Option Constant := none
  deriving Inhabited

inductive Status where
  /-- There is more to do. -/
  | suspended
  /-- The execution waits for the end of the frame or for a task. -/
  | waiting
  | finished (value : Constant)
  deriving DecidableEq, Inhabited

namespace Machine

variable {σ τ : Type}

/-- A stack has at most this many frames. -/
def maxDepth : Nat := 10000

def ofWork (work : Work) : Machine τ := { stack := .single (.ofWork work) }

def ofNode (node : Node) (scope : ScopeId) : Machine τ := ofWork (.node node scope)

def ofCall (function : Function) (args : List Constant) (parent : ScopeId) : Machine τ :=
  ofWork (.call (.ofArguments function args parent))

def ofCode (store : Store) (held : Held) (code : Code) (scope : ScopeId) : Machine τ :=
  { stack := .single (.start (.ofCode store held code scope)) }

def refs (host : Host σ τ) (machine : Machine τ) : List Ref :=
  machine.stack.frames.flatMap (Frame.refs host)
    ++ machine.incoming.toList.flatMap Outcome.refs
    ++ machine.result.toList.flatMap Constant.refs

structure Moved (σ τ ρ : Type) where
  machine : Machine τ
  world : World σ
  /-- Where the machine has stopped. -/
  stop : ρ

/-- Go on after a frame has been resumed, where `below` are the frames below it. -/
def follow (resumed : Frame.Resumed σ τ) (below : Stack τ) :
    Moved σ τ (Option (Except Error Status)) :=
  let ⟨frame, world, flow⟩ := resumed
  match flow with
  | .error error =>
    let stack := below.push frame
    ⟨{ stack }, world, some (.error (stack.locate error))⟩
  | .ok (.push work) =>
    let stack := below.push frame
    if maxDepth ≤ stack.depth then
      ⟨{ stack }, world, some (.error (stack.locate (.runtime .stackOverflow)))⟩
    else ⟨{ stack := stack.push (.ofWork work) }, world, none⟩
  | .ok (.done outcome) =>
    if below.frames.isEmpty then
      match Start.outcomeValue outcome with
      | .error error => ⟨{ stack := below }, world, some (.error error)⟩
      | .ok value =>
        ⟨{ stack := below, result := some value }, world, some (.ok (.finished value))⟩
    else ⟨{ stack := below, incoming := some outcome }, world, none⟩
  | .ok .yield => ⟨{ stack := below.push frame }, world, some (.ok .suspended)⟩
  | .ok .wait => ⟨{ stack := below.push frame }, world, some (.ok .waiting)⟩

/-- Resume the frame on top.  The move stops the step, or it leaves the machine
running.  `outside` is what is held beside the machine. -/
def move (host : Host σ τ) (outside : Held) (machine : Machine τ) (world : World σ) :
    Moved σ τ (Option (Except Error Status)) :=
  match machine.stack.pop? with
  | none => ⟨machine, world, some (.ok (.finished (machine.result.getD .none)))⟩
  | some (frame, below) =>
    follow (frame.resume host (fun _ => outside () ++ machine.refs host) world
      machine.incoming) below

/-- Make moves up to the next pause, but no more than `moves` of them: a machine that is
still running then gives no answer. -/
def step (host : Host σ τ) (outside : Held) : (moves : Nat) → Machine τ → World σ →
    Option (Moved σ τ (Except Error Status))
  | 0, _, _ => none
  | moves + 1, machine, world =>
    match machine.move host outside world with
    | ⟨machine, world, some stop⟩ => some ⟨machine, world, stop⟩
    | ⟨machine, world, none⟩ => step host outside moves machine world

end Machine

end StepScript
