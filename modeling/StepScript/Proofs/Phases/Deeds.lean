import StepScript.Proofs.Running.Histories
set_option autoImplicit false

/-!
# What constructions do

The moves of the machines leave a chronicle of all constructions (`System.chronicle`): when they
begin, when the work of a step is given away, when a step is done, and when they finish.  Each event
has the stores before and after it.  `Performs` says what it is for events to perform steps in
their order, one after the other.
-/

namespace StepScript

/-! ## Deeds -/

/-- Something that a construction does. -/
inductive Deed where
  /-- The object is made. -/
  | begins
  /-- The work of a step is given away. -/
  | starts (step : ConstructionStep)
  /-- A step is done. -/
  | completes (step : ConstructionStep)
  /-- A property is left as it is. -/
  | skips (step : ConstructionStep)
  /-- The object is given back. -/
  | finishes

/-- Something that the construction of an object has done. -/
structure Event where
  object : ObjectRef
  deed : Deed
  before : Store
  after : Store

namespace Construction

/-- What the construction of an object does when it goes through its steps. -/
def stepEvents (held : Held) (object : ObjectRef) : List ConstructionStep → Store → List Event
  | [], store => [⟨object, .finishes, store, store⟩]
  | .parameter scope name initial :: _, store =>
    [⟨object, .starts (.parameter scope name initial), store, store⟩]
  | .property scope name initial :: steps, store =>
    let step := .property scope name initial
    if store.bindsVariable scope name then
      ⟨object, .skips step, store, store⟩ :: stepEvents held object steps store
    else
      match initial with
      | some _ => [⟨object, .starts step, store, store⟩]
      | none =>
        ⟨object, .completes step, store, store.setOwn scope name .none⟩
          :: stepEvents held object steps (store.setOwn scope name .none)
  | .behaviour scope behaviour :: _, store =>
    match ofBehaviour store held behaviour object with
    | (.error _, _) => []
    | (.ok _, later) => [⟨object, .starts (.behaviour scope behaviour), store, later⟩]
  | .body constructor scope :: _, store =>
    [⟨object, .starts (.body constructor scope), store, (Call.ofBody store constructor scope).2⟩]
  | .phase :: _, store => [⟨object, .completes .phase, store, store⟩]
  | .register :: steps, store =>
    ⟨object, .completes .register, store, register store held object⟩
      :: stepEvents held object steps (register store held object)

/-- What a construction does when it is resumed. -/
def events (construction : Construction) (store : Store) (held : Held)
    (incoming : Option Outcome) : List Event :=
  match incoming with
  | none => stepEvents held construction.object construction.steps store
  | some outcome =>
    match receive store construction.object construction.current outcome with
    | (.error _, _) => []
    | (.ok (), later) =>
      (construction.current.toList.map fun step =>
        ⟨construction.object, .completes step, store, later⟩)
        ++ stepEvents held construction.object construction.steps later

end Construction

variable {σ τ : Type}

/-- The construction that a resumed node gives away. -/
def NodeFrame.events (frame : NodeFrame) (store : Store) (held : Held)
    (incoming : Option Outcome) : List Event :=
  match frame.resume store held incoming with
  | ⟨_, later, .ok (.push (.construct begun))⟩ => [⟨begun.object, .begins, store, later⟩]
  | _ => []

/-- What constructions do when a frame is resumed. -/
def Frame.events (frame : Frame τ) (store : Store) (held : Held) (incoming : Option Outcome) :
    List Event :=
  match frame with
  | .node frame => frame.events store held incoming
  | .construct construction => construction.events store held incoming
  | _ => []

/-- What constructions do in a move. -/
def Move.events (host : Host σ τ) (move : Move σ τ) : List Event :=
  match move.machine.stack.frames with
  | [] => []
  | frame :: _ =>
    frame.events move.world.store (fun _ => move.outside () ++ move.machine.refs host)
      move.machine.incoming

namespace Event

/-- The work of the step is given away.  The first value of a property is evaluated only if its
scope does not bind the name yet. -/
def Starts (event : Event) : ConstructionStep → Prop
  | .parameter .. => event.after = event.before
  | .property scope name initial =>
    initial.isSome = true ∧ event.before.bindsVariable scope name = false ∧
      event.after = event.before
  | .behaviour _ behaviour =>
    ∃ held construction, Construction.ofBehaviour event.before held behaviour event.object
      = (.ok construction, event.after)
  | .body constructor scope => event.after = (Call.ofBody event.before constructor scope).2
  | .phase | .register => False

/-- The step is done with the outcome of its work. -/
def Completes (event : Event) : ConstructionStep → Prop
  | .parameter scope name _ | .property scope name _ =>
    ∃ value, event.after = event.before.setOwn scope name value
  | .behaviour scope behaviour =>
    ∃ attached : ObjectRef, attached.typeName = behaviour.name ∧
      attached.key < event.before.objects.size ∧
      event.after = (event.before.attach scope attached).modifyObject event.object fun owner =>
        { owner with behaviours := owner.behaviours ++ [attached] }
  | .body .. => event.after = event.before
  | .phase | .register => False

/-- The step is done without giving work away. -/
def Passes (event : Event) : ConstructionStep → Prop
  | .property scope name initial =>
    event.deed = .skips (.property scope name initial) ∧
        event.before.bindsVariable scope name = true ∧ event.after = event.before ∨
      event.deed = .completes (.property scope name initial) ∧ initial = none ∧
        event.before.bindsVariable scope name = false ∧
        event.after = event.before.setOwn scope name .none
  | .phase => event.deed = .completes .phase ∧ event.after = event.before
  | .register =>
    event.deed = .completes .register ∧
      ∃ held, event.after = Construction.register event.before held event.object
  | .parameter .. | .behaviour .. | .body .. => False

end Event

/-- The events perform the steps `done` one after the other, and have then given the work of
`current` away. -/
inductive Performs (object : ObjectRef) :
    List ConstructionStep → Option ConstructionStep → List Event → Prop where
  | nothing : Performs object [] none []
  | starts {done : List ConstructionStep} {step : ConstructionStep} {events : List Event}
      {event : Event} (before : Performs object done none events) (of : event.object = object)
      (deed : event.deed = .starts step) (effect : event.Starts step) :
      Performs object done (some step) (events ++ [event])
  | completes {done : List ConstructionStep} {step : ConstructionStep} {events : List Event}
      {event : Event} (before : Performs object done (some step) events)
      (of : event.object = object) (deed : event.deed = .completes step)
      (effect : event.Completes step) : Performs object (done ++ [step]) none (events ++ [event])
  | passes {done : List ConstructionStep} {step : ConstructionStep} {events : List Event}
      {event : Event} (before : Performs object done none events) (of : event.object = object)
      (effect : event.Passes step) : Performs object (done ++ [step]) none (events ++ [event])

namespace Performs

variable {object : ObjectRef} {done : List ConstructionStep} {current : Option ConstructionStep}
  {events : List Event}

end Performs

end StepScript
