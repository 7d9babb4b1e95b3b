import StepScript.Proofs.Failures
import StepScript.Proofs.Safety.Declared
set_option autoImplicit false

/-!
# Frames that can be resumed

A frame is resumed with the outcome of the work that it gave away.  `Takes` says, for each
kind of frame and each stage of it, what the frame can be resumed with.  `Resumed.Keeps` is
what one resumption has to keep to: it does not fail internally, it finishes with an outcome
of the right kind, and the work that it gives away answers with something that it takes.
-/

namespace StepScript

/-! ## Failures -/

/-- The error is a failure of the evaluator itself. -/
def Error.IsInternal (error : Error) : Prop := ∃ fault, error.cause = .internal fault

/-- The computation does not fail internally. -/
structure Safe {α : Type} (outcome : Except Error α) : Prop where
  not_internal : ∀ error, outcome = .error error → ¬ error.IsInternal

section Safe

variable {α β : Type}

theorem Error.not_isInternal {error : Error} (h : ∀ fault, error.cause ≠ .internal fault) :
    ¬ error.IsInternal := fun ⟨fault, hf⟩ => h fault hf

theorem Safe.of_ok (answer : α) : Safe (.ok answer : Except Error α) := ⟨fun _ h => nomatch h⟩

theorem Safe.of_error {error : Error} (h : ∀ fault, error.cause ≠ .internal fault) :
    Safe (.error error : Except Error α) := by
  refine ⟨fun other ho => ?_⟩
  obtain rfl := Except.error.inj ho
  exact Error.not_isInternal h

theorem Safe.bind {outcome : Except Error α} {next : α → Except Error β} (h : Safe outcome)
    (hn : ∀ answer, outcome = .ok answer → Safe (next answer)) : Safe (outcome >>= next) := by
  cases outcome with
  | error error => exact ⟨fun other ho => h.not_internal other (by cases ho; rfl)⟩
  | ok answer => exact hn answer rfl

theorem Safe.mapM {compute : α → Except Error β} (items : List α)
    (h : ∀ item, Safe (compute item)) : Safe (items.mapM compute) := by
  induction items with
  | nil => exact .of_ok []
  | cons item rest ih =>
    rw [List.mapM_cons]
    exact (h item).bind fun _ _ => ih.bind fun _ _ => .of_ok _

end Safe

theorem Ordinary.safe {α : Type} {answer : Except Error α} (h : Ordinary answer) : Safe answer := by
  refine ⟨fun error he ⟨fault, hf⟩ => ?_⟩
  have ho := h.of_failure error he
  simp [Error.IsOrdinary, hf] at ho

/-! ## Outcomes -/

namespace Outcome

/-- The outcome is a value. -/
def IsValue : Outcome → Prop
  | .value _ => True
  | _ => False

/-- The outcome is an object. -/
def IsObject : Outcome → Prop
  | .value (.object _) => True
  | _ => False

/-- The outcome is no jump. -/
def IsResult : Outcome → Prop
  | .value _ | .giveBack _ => True
  | .breakLoop | .continueLoop => False

/-- A node that is evaluated in the role may finish with the outcome. -/
def Suits : Role → Outcome → Prop
  | .expression => IsValue
  | .statement false => IsResult
  | .statement true => fun _ => True

theorem IsObject.isValue {outcome : Outcome} (h : outcome.IsObject) : outcome.IsValue := by
  cases outcome <;> trivial

theorem IsValue.suits {outcome : Outcome} (h : outcome.IsValue) (role : Role) :
    Suits role outcome := by
  match role with
  | .expression => exact h
  | .statement false => cases outcome <;> trivial
  | .statement true => trivial

theorem suits_value (role : Role) (result : Constant) : Suits role (.value result) :=
  IsValue.suits (show IsValue (.value result) from trivial) role

theorem IsResult.suits {outcome : Outcome} (h : outcome.IsResult) (inLoop : Bool) :
    Suits (.statement inLoop) outcome := by
  cases inLoop <;> first | exact h | trivial

theorem suits_giveBack (inLoop : Bool) (result : Constant) :
    Suits (.statement inLoop) (.giveBack result) :=
  IsResult.suits (show IsResult (.giveBack result) from trivial) inLoop

/-- Nothing has come in, or something with the property. -/
def MayGet (P : Outcome → Prop) : Option Outcome → Prop
  | none => True
  | some outcome => P outcome

/-- Something with the property has come in. -/
def Gets (P : Outcome → Prop) : Option Outcome → Prop
  | none => False
  | some outcome => P outcome

theorem receivedValue_of_gets {incoming : Option Outcome} (h : Gets IsValue incoming) :
    ∃ value, incoming = some (.value value) := by
  match incoming with
  | some (.value result) => exact ⟨result, rfl⟩

end Outcome

open Outcome (IsValue IsObject IsResult Suits MayGet Gets suits_value)

/-! ## What frames take -/

/-- The arguments that are known are some of those of the call, and there is one left for an
outcome that comes in before the call. -/
def Known (args : List Node) (values : List Constant) (calling : Bool)
    (incoming : Option Outcome) : Prop :=
  values.length ≤ args.length ∧
    (incoming.isSome = true → calling = false → values.length < args.length)

/-- The next argument is to come in. -/
theorem known_next {args : List Node} {values : List Constant} {arg : Node}
    (h : args[values.length]? = some arg) (calling : Bool) (incoming : Option Outcome) :
    Known args values calling incoming := by
  obtain ⟨hlt, -⟩ := List.getElem?_eq_some_iff.mp h
  exact ⟨Nat.le_of_lt hlt, fun _ _ => hlt⟩

/-- The call has begun. -/
theorem known_calling (args : List Node) (incoming : Option Outcome) :
    Known args [] true incoming :=
  ⟨Nat.zero_le _, fun _ h => nomatch h⟩

/-- The arguments of a member that is called. -/
def memberArguments (member : Node) : List Node :=
  match member.kind with
  | .call _ args => args
  | _ => []

/-- The node is the access to a member. -/
def isAccess (node : Node) : Bool :=
  match node.kind with
  | .member .. => true
  | _ => false

/-- The frame of a node that is evaluated in the role, and has come so far, can be resumed
with `incoming`.  There is no such stage that is not one of the kind of the node. -/
def NodeFrame.Takes (role : Role) (kind : NodeKind) (progress : Progress)
    (incoming : Option Outcome) : Prop :=
  match kind with
  | .unary .. | .giveBack (some _) => progress = .start ∧ MayGet IsValue incoming
  | .binary .. =>
    match progress with
    | .start | .left _ => MayGet IsValue incoming
    | .both .. => incoming = none
    | _ => False
  | .member _ member =>
    match progress with
    | .start => incoming = none
    | .target => Gets IsValue incoming
    | .member _ values calling =>
      MayGet IsValue incoming ∧ Known (memberArguments member) values calling incoming
    | _ => False
  | .call _ args | .create _ args =>
    match progress with
    | .start => incoming = none
    | .arguments values calling => MayGet IsValue incoming ∧ Known args values calling incoming
    | _ => False
  | .block body | .file _ body =>
    match progress with
    | .start => incoming = none
    | .statements count _ =>
      MayGet (Suits role) incoming ∧ count ≤ body.length ∧
        (incoming.isSome = true → count < body.length)
    | _ => False
  | .assign target _ =>
    match progress with
    | .start => incoming = none
    | .target => Gets IsValue incoming ∧ isAccess target = true
    | .assigning found => Gets IsValue incoming ∧ found.isSome = isAccess target
    | _ => False
  | .branch .. =>
    match progress with
    | .start => incoming = none
    | .condition => Gets IsValue incoming
    | .body => Gets (Suits role) incoming
    | _ => False
  | .whileLoop .. | .repeatLoop .. =>
    match progress with
    | .start => incoming = none
    | .condition => Gets IsValue incoming
    | .body => incoming.isSome = true
    | _ => False
  | .forLoop .. =>
    match progress with
    | .start | .round _ => incoming = none
    | .first _ | .bound _ | .step .. => Gets IsValue incoming
    | .rounds .. => incoming.isSome = true
    | _ => False
  | .waitForUpdate =>
    match progress with
    | .start | .waiting _ => incoming = none
    | _ => False
  | _ => progress = .start ∧ incoming = none

/-- A call can be resumed with `incoming`. -/
structure Call.Takes (call : Call) (incoming : Option Outcome) : Prop where
  function : call.function.Fits
  stage : match call.stage with
    | .bind _ | .ready _ => incoming = none
    | .fill _ _ rest => Gets IsValue incoming ∧ ∀ entry ∈ rest, Node.Fits .expression entry.2
    | .running _ => Gets IsResult incoming

/-- The code of a step of a construction can be evaluated. -/
def ConstructionStep.Fits : ConstructionStep → Prop
  | .parameter _ _ initial => initial.Fits .expression
  | .property _ _ initial => ∀ node ∈ initial, node.Fits .expression
  | .behaviour _ attached => attached.members.Fits
  | .body function _ => function.Fits
  | .phase | .register => True

/-- A construction can be resumed with `incoming`. -/
structure Construction.Takes (construction : Construction) (incoming : Option Outcome) : Prop where
  steps : ∀ step ∈ construction.steps, step.Fits
  current : match construction.current with
    | some (.parameter ..) | some (.property ..) => MayGet IsValue incoming
    | some (.behaviour ..) => MayGet IsObject incoming
    | _ => True

/-- The code of a step of the start of a unit can be evaluated. -/
def StartStep.Fits : StartStep → Prop
  | .sharedProperty _ _ initial => ∀ node ∈ initial, node.Fits .expression
  | .file source => (∃ name body, source.kind = .file name body) ∧ source.Fits (.statement false)
  | .sharedConstructor _ | .register _ => True

/-- The start of a unit can be resumed with `incoming`. -/
structure Start.Takes (start : Start) (incoming : Option Outcome) : Prop where
  steps : ∀ step ∈ start.steps, step.Fits
  current : MayGet IsResult incoming

/-! ## What a resumption keeps to -/

/-- The work can be done, and answers with outcomes of the kind. -/
inductive Work.Ready : Work → (Outcome → Prop) → Prop where
  | node {node : Node} {role : Role} (scope : ScopeId) (fits : node.Fits role) :
      Ready (.node node scope) (Suits role)
  | call {call : Call} (takes : call.Takes none) : Ready (.call call) IsValue
  | native (function : Function) (scope : ScopeId) : Ready (.native function scope) IsValue
  | construct {construction : Construction} (takes : construction.Takes none) :
      Ready (.construct construction) IsObject

/-- The flow does not fail internally, finishes with outcomes of the kind, and leaves a frame
that takes what comes in next. -/
def Flow.Keeps (gives : Outcome → Prop) (takes : Option Outcome → Prop) :
    Except Error Flow → Prop
  | .error error => ¬ error.IsInternal
  | .ok (.push work) =>
    ∃ answers, work.Ready answers ∧ ∀ outcome, answers outcome → takes (some outcome)
  | .ok (.done outcome) => gives outcome
  | .ok .yield | .ok .wait => takes none

/-- The code in the store can still be evaluated, and the flow keeps to its rules. -/
structure Resumed.Keeps {φ : Type} (gives : Outcome → Prop) (takes : φ → Option Outcome → Prop)
    (resumed : Resumed φ) : Prop where
  store : resumed.store.Fits
  flow : Flow.Keeps gives (takes resumed.frame) resumed.flow

section Keeps

variable {gives : Outcome → Prop} {takes : Option Outcome → Prop}

theorem Flow.keeps_error {error : Error} (h : ∀ fault, error.cause ≠ .internal fault) :
    Flow.Keeps gives takes (.error error) :=
  Error.not_isInternal h

theorem Flow.keeps_node {node : Node} {role : Role} (scope : ScopeId) (hn : node.Fits role)
    (ht : ∀ outcome, Suits role outcome → takes (some outcome)) :
    Flow.Keeps gives takes (.ok (.push (.node node scope))) :=
  ⟨Suits role, .node scope hn, ht⟩

/-- A value that is computed is given. -/
theorem Flow.keeps_give {role : Role} {outcome : Except Error Constant} (h : Safe outcome) :
    Flow.Keeps (Suits role) takes (outcome.map .give) := by
  cases outcome with
  | error error => exact h.not_internal error rfl
  | ok result => exact suits_value role result

end Keeps

end StepScript
