import StepScript.Store.Lookup
set_option autoImplicit false

/-!
# Hosts

A host runs programs and provides the native functions that they declare.  A native
function answers at once, fails, or leaves a task behind that is polled in every later
step until it is ready.

A host is given by two types: the state `σ` that it keeps beside a program, and the
tasks `τ` that its functions leave behind.
-/

namespace StepScript

/-! ## What a host keeps beside a program -/

structure Sink where
  written : String := ""
  /-- Why every write fails, if it does. -/
  fault : Option String := none
  deriving Inhabited

def Sink.write (sink : Sink) (text : String) : Except String Sink :=
  match sink.fault with
  | some fault => .error fault
  | none => .ok { sink with written := sink.written ++ text }

/-- A signal that a host gives once, when work outside of a program is done. -/
structure Completion where
  name : String
  deriving DecidableEq, Repr, Inhabited

structure Context (σ : Type) where
  sink : Sink := {}
  /-- Number of frames that have ended. -/
  frame : Nat := 0
  /-- Time in milliseconds. -/
  clock : Nat := 0
  /-- The completions that have been signalled. -/
  signalled : List Completion := []
  state : σ
  deriving Inhabited

namespace Context

variable {σ : Type}

def isComplete (context : Context σ) (completion : Completion) : Bool :=
  context.signalled.contains completion

def complete (context : Context σ) (completion : Completion) : Context σ :=
  { context with signalled := completion :: context.signalled }

end Context

/-! ## Tasks -/

/-- Work that a native function leaves behind. -/
inductive HostTask (τ : Type) where
  /-- Finish once a completion has been signalled.  A task that has finished has no
  work left. -/
  | after (completion : Completion) (finish : Option τ)
  /-- A task that the host polls itself. -/
  | polled (task : τ)
  deriving Inhabited

inductive Poll where
  | pending
  | ready (value : Constant)
  deriving DecidableEq, Inhabited

inductive NativeAnswer (τ : Type) where
  | done (value : Constant)
  | pending (task : HostTask τ)
  deriving Inhabited

/-- A native function: it reads its parameters by name and answers or fails. -/
abbrev Native (σ τ : Type) : Type :=
  (String → Except Error Constant) → Context σ →
    Except Error (NativeAnswer τ) × Context σ

structure Host (σ τ : Type) where
  /-- The native function of a class or behaviour, or of the files. -/
  native? : (owner : Option String) → (name : String) → Option (Native σ τ)
  /-- Poll a task; the task may change, also when it fails. -/
  poll : τ → Context σ → Except Error Poll × τ × Context σ
  /-- Finish a task whose completion has been signalled. -/
  finish : τ → Context σ → Except Error Constant × Context σ
  /-- What a task holds. -/
  refs : τ → List Ref

namespace HostTask

variable {σ τ : Type}

def poll (host : Host σ τ) (task : HostTask τ) (context : Context σ) :
    Except Error Poll × HostTask τ × Context σ :=
  match task with
  | .after completion finish =>
    if context.isComplete completion then
      match finish with
      | none => (.error (.runtime .polledAfterCompletion), task, context)
      | some work =>
        match host.finish work context with
        | (.ok value, context) => (.ok (.ready value), .after completion none, context)
        | (.error error, context) => (.error error, .after completion none, context)
    else (.ok .pending, task, context)
  | .polled work =>
    let (answer, work, context) := host.poll work context
    (answer, .polled work, context)

def refs (host : Host σ τ) : HostTask τ → List Ref
  | .after _ (some work) => host.refs work
  | .after _ none => []
  | .polled work => host.refs work

def map {τ' : Type} (rename : τ → τ') : HostTask τ → HostTask τ'
  | .after completion finish => .after completion (finish.map rename)
  | .polled work => .polled (rename work)

end HostTask

def NativeAnswer.map {τ τ' : Type} (rename : τ → τ') : NativeAnswer τ → NativeAnswer τ'
  | .done value => .done value
  | .pending task => .pending (task.map rename)

def Native.map {σ τ τ' : Type} (rename : τ → τ') (native : Native σ τ) : Native σ τ' :=
  fun argument context =>
    let (answer, context) := native argument context
    (answer.map (·.map rename), context)

def Host.join {σ τ τ' : Type} (first : Host σ τ) (second : Host σ τ') :
    Host σ (τ ⊕ τ') where
  native? owner name :=
    match first.native? owner name with
    | some native => some (native.map .inl)
    | none => (second.native? owner name).map (·.map .inr)
  poll
    | .inl task, context =>
      let (answer, task, context) := first.poll task context
      (answer, .inl task, context)
    | .inr task, context =>
      let (answer, task, context) := second.poll task context
      (answer, .inr task, context)
  finish
    | .inl task, context => first.finish task context
    | .inr task, context => second.finish task context
  refs
    | .inl task => first.refs task
    | .inr task => second.refs task

end StepScript
