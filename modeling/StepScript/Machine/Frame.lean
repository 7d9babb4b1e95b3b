import StepScript.Host.Basic
set_option autoImplicit false

/-!
# Frames

Evaluation keeps its state in a stack of frames, so that it can stop between any two
steps and go on later.  A frame is resumed with the outcome of the work that it gave
away last, and answers with a flow: more work to give away, an outcome of its own, or a
pause.
-/

namespace StepScript

/-! ## Outcomes -/

/-- What a finished frame hands to the frame below it. -/
inductive Outcome where
  | value (value : Constant)
  /-- A `return` leaves the function with a value. -/
  | giveBack (value : Constant)
  | breakLoop
  | continueLoop
  deriving DecidableEq, Inhabited

namespace Outcome

def refs : Outcome → List Ref
  | .value result | .giveBack result => result.refs
  | .breakLoop | .continueLoop => []

def received (incoming : Option Outcome) : Except Error Outcome :=
  match incoming with
  | some outcome => .ok outcome
  | none => .error (.internal .resumedWithoutResult)

def receivedValue (incoming : Option Outcome) : Except Error Constant :=
  match incoming with
  | some (.value result) => .ok result
  | some _ => .error (.internal .controlFlowAsValue)
  | none => .error (.internal .resumedWithoutResult)

end Outcome

/-! ## Frames of nodes -/

inductive Progress where
  | start
  /-- The left operand is known. -/
  | left (lhs : Constant)
  /-- Both operands are known. -/
  | both (lhs rhs : Constant)
  /-- The object in front of a member is being evaluated. -/
  | target
  /-- The scope of the members is known, and so are the first arguments of the call;
  `calling` once the call has begun. -/
  | member (scope : ScopeId) (values : List Constant) (calling : Bool)
  /-- The first arguments of a call or of a construction are known; `calling` once it
  has begun. -/
  | arguments (values : List Constant) (calling : Bool)
  /-- The number of statements that are done, and the value of the last one. -/
  | statements (count : Nat) (last : Option Constant)
  /-- The value to assign is being evaluated.  A member has the scope it belongs to. -/
  | assigning (scope : Option ScopeId)
  /-- The condition is being evaluated. -/
  | condition
  /-- The body of a loop or a branch is running. -/
  | body
  /-- The first value of the loop variable is being evaluated. -/
  | first (scope : ScopeId)
  /-- The next round of a `for` loop is due. -/
  | round (scope : ScopeId)
  /-- The bound of a `for` loop is being evaluated. -/
  | bound (scope : ScopeId)
  /-- The step of a `for` loop is being evaluated. -/
  | step (scope : ScopeId) (limit : Constant)
  /-- Bound and step of a round are known. -/
  | test (scope : ScopeId) (limit step : Constant)
  /-- The body of a `for` loop is running. -/
  | rounds (scope : ScopeId) (limit step : Constant)
  /-- The execution waits for the end of the frame. -/
  | waiting (ticket : Ticket)
  deriving Inhabited

def Progress.refs : Progress → List Ref
  | .start | .target | .condition | .body | .waiting _ => []
  | .left lhs => lhs.refs
  | .both lhs rhs => lhs.refs ++ rhs.refs
  | .member scope values _ => .scope scope :: values.flatMap Constant.refs
  | .arguments values _ => values.flatMap Constant.refs
  | .statements _ last => last.toList.flatMap Constant.refs
  | .assigning scope => scope.toList.map .scope
  | .first scope | .round scope | .bound scope => [.scope scope]
  | .step scope limit => .scope scope :: limit.refs
  | .test scope limit pace | .rounds scope limit pace =>
    .scope scope :: limit.refs ++ pace.refs

structure NodeFrame where
  node : Node
  scope : ScopeId
  progress : Progress := .start
  deriving Inhabited

/-! ## Frames of calls -/

inductive CallStage where
  /-- The arguments are about to be bound to the parameters. -/
  | bind (args : List Constant)
  /-- The value of a parameter without an argument is being evaluated; `rest` are the
  other parameters of that kind. -/
  | fill (scope : ScopeId) (param : String) (rest : List (String × Node))
  /-- All parameters are bound. -/
  | ready (scope : ScopeId)
  | running (scope : ScopeId)
  deriving Inhabited

structure Call where
  function : Function
  parent : ScopeId
  stage : CallStage
  deriving Inhabited

def Call.refs (call : Call) : List Ref :=
  call.function.refs ++ .scope call.parent ::
    match call.stage with
    | .bind args => args.flatMap Constant.refs
    | .fill scope _ _ | .ready scope | .running scope => [.scope scope]

/-! ## Frames of constructions -/

inductive ConstructionStep where
  /-- Evaluate a parameter without an argument. -/
  | parameter (scope : ScopeId) (name : String) (initial : Node)
  /-- Give a property its first value, unless its name is bound already. -/
  | property (scope : ScopeId) (name : String) (initial : Option Node)
  /-- Attach a behaviour to a level. -/
  | behaviour (scope : ScopeId) (behaviour : Behaviour)
  /-- Run the body of a constructor. -/
  | body (constructor : Function) (scope : ScopeId)
  /-- Pause between two phases. -/
  | phase
  /-- Register the object for updates. -/
  | register
  deriving Inhabited

structure Construction where
  object : ObjectRef
  /-- The step whose work has been given away. -/
  current : Option ConstructionStep := none
  steps : List ConstructionStep
  deriving Inhabited

/-! ## Frames of units -/

inductive StartStep where
  /-- Give a shared property its first value, unless its name is bound already. -/
  | sharedProperty (owner : ClassId) (name : String) (initial : Option Node)
  | sharedConstructor (owner : ClassId)
  /-- Register the class for updates. -/
  | register (owner : ClassId)
  /-- Run the statements of a file. -/
  | file (file : Node)
  deriving Inhabited

/-- The start of a unit: its shared state, then its files. -/
structure Start where
  root : ScopeId
  /-- The step whose work has been given away. -/
  current : Option StartStep := none
  steps : List StartStep
  /-- The value of the last file so far. -/
  last : Constant := .none
  deriving Inhabited

/-! ## Work and flow -/

inductive Work where
  | node (node : Node) (scope : ScopeId)
  | call (call : Call)
  | native (function : Function) (scope : ScopeId)
  | construct (construction : Construction)
  deriving Inhabited

inductive Flow where
  /-- Give work away and be resumed with its outcome. -/
  | push (work : Work)
  | done (outcome : Outcome)
  /-- Let other executions run. -/
  | yield
  /-- Wait for the end of the frame or for a task. -/
  | wait
  deriving Inhabited

def Flow.give (value : Constant) : Flow := .done (.value value)

/-- A resumed frame: its new state, the store, and how it goes on.  The new state
matters also after an error, because a failed frame can be resumed again. -/
structure Resumed (φ : Type) where
  frame : φ
  store : Store
  flow : Except Error Flow

end StepScript
