import StepScript.Machine.Basic
set_option autoImplicit false

/-!
# Direct evaluation

The value of a node by recursion over the tree, without frames, pauses or a limit on the
depth: operands and arguments from left to right, names after the arguments, conditions
before bodies.  An evaluation that goes on forever has no answer, and neither has one that
waits for the end of a frame or for a task of the host.

The lifetime of objects can be seen by a program, so an evaluation knows what the
evaluations around it hold: `below` lists it.  What has just come in as the value of a part
stands at the end of the list.
-/

namespace StepScript

namespace Outcome

/-- The value that an outcome is, for evaluations that need one. -/
def asValue : Outcome → Except Error Constant
  | .value result => .ok result
  | _ => .error (.internal .controlFlowAsValue)

/-- The outcome of a call whose body has ended: the value that it gives back. -/
def ofBody : Outcome → Except Error Outcome
  | .value _ => .ok (.value .none)
  | .giveBack result => .ok (.value result)
  | .breakLoop | .continueLoop => .error (.internal .jumpOutsideLoop)

end Outcome

/-- A host that code is evaluated for. -/
abbrev Direct (σ τ : Type) := Host σ τ

namespace Direct

variable {σ τ : Type}

/-- What is held while a name is looked up: from outside, by the evaluation itself, by
those around it, and what has just come in. -/
def holding (outside : Held) (own below came : List Ref) : Held :=
  fun _ => outside () ++ (own ++ below ++ came)

/-- The value of an answer. -/
def valueOf (answer : Except Error Outcome) : Except Error Constant := answer.bind Outcome.asValue

/-- The value of an answer that has to be a number. -/
def numberOf (answer : Except Error Outcome) : Except Error Constant := do
  let value ← valueOf answer
  let _ ← value.asNumber
  return value

/-- The value of the loop variable in the next round. -/
def nextNumber (store : Store) (held : Held) (scope : ScopeId) (var : String)
    (step : Constant) : Except Error Float := do
  let step ← step.asNumber
  let number ← NodeFrame.loopNumber store held scope var
  return number + step

/-- A `for` loop that has begun: its variable lives in the scope `inner`. -/
structure Counting where
  var : String
  last : Node
  step : Option Node
  body : Node
  scope : ScopeId
  inner : ScopeId

/-- What the frame of a `for` loop holds. -/
def Counting.refs (loop : Counting) : List Ref := [.scope loop.scope, .scope loop.inner]

/-- Call a native function that answers at once. -/
def callNative (host : Host σ τ) (held : Held) (function : Function) (scope : ScopeId)
    (world : World σ) : Option (Except Error Outcome × World σ) :=
  match host.native? function.owner function.name with
  | none => some (.error (.runtime (.missingNative function.qualifiedName)), world)
  | some provided =>
    let (answer, context) := provided (world.store.argument held scope) world.context
    match answer with
    | .error error => some (.error error, { world with context })
    | .ok (.done value) => some (.ok (.value value), { world with context })
    | .ok (.pending _) => none

mutual

/-- The outcome of a node in a scope. -/
def evalNode (host : Direct σ τ) (outside : Held) (below : List Ref) (node : Node)
    (scope : ScopeId) (world : World σ) : Option (Except Error Outcome × World σ) :=
  match node.kind with
  | .literal (.identifier name) =>
    let held := holding outside [.scope scope] below []
    some ((NodeFrame.variableValue world.store held scope name).map .value, world)
  | .literal value => some (.ok (.value value), world)
  | .typeName name =>
    let held := holding outside [.scope scope] below []
    some ((NodeFrame.typeValue world.store held scope name).map .value, world)
  | .unary op operand => do
    let (answer, world) ← host |>.evalNode outside (.scope scope :: below) operand scope world
    some (((valueOf answer).bind op.apply).map .value, world)
  | .binary op lhs rhs => do
    let (left, world) ← host |>.evalNode outside (.scope scope :: below) lhs scope world
    match valueOf left with
    | .error error => some (.error error, world)
    | .ok l =>
      let (right, world) ←
        host |>.evalNode outside (.scope scope :: (l.refs ++ below)) rhs scope world
      some (((valueOf right).bind (op.apply l)).map .value, world)
  | .member target member => do
    let (answer, world) ← host |>.evalOwner outside below target scope world
    match answer with
    | .error error => some (.error error, world)
    | .ok (found, came) => host |>.evalAccess outside below came member scope found world
  | .call name args => do
    let (answer, world) ← host |>.evalArguments outside below [.scope scope]
      (holding outside [.scope scope] below []) scope [] args world
    match answer with
    | .error error => some (.error error, world)
    | .ok (values, held) =>
      match world.store.function? held scope name with
      | none => some (.error (.undefinedName (.functionName name)), world)
      | some (function, found) =>
        host |>.evalCall outside (.scope scope :: below) function values
          (function.callParent found) world
  | .create className args => do
    let (answer, world) ← host |>.evalArguments outside below [.scope scope]
      (holding outside [.scope scope] below []) scope [] args world
    match answer with
    | .error error => some (.error error, world)
    | .ok (values, held) =>
      match world.store.class? held scope className with
      | none =>
        let error : Error :=
          if (world.store.behaviour? held scope className).isSome then
            .type (.newBehaviour className)
          else .undefinedName (.className className)
        some (.error error, world)
      | some id =>
        match Construction.ofClass world.store held id values with
        | (.error error, store) => some (.error error, { world with store })
        | (.ok construction, store) =>
          host |>.construct outside (.scope scope :: below) [] construction.object
            construction.steps { world with store }
  | .block body | .file _ body => host |>.evalStatements outside below scope none body world
  | .assign target value =>
    match target.kind with
    | .member object _ => do
      let (answer, world) ← host |>.evalOwner outside below object scope world
      match answer with
      | .error error => some (.error error, world)
      | .ok (found, _) => host |>.evalAssigned outside below target value scope (some found) world
    | _ => host |>.evalAssigned outside below target value scope none world
  | .branch condition thenBranch elseBranch => do
    let (answer, world) ←
      host |>.evalNode outside (.scope scope :: below) condition scope world
    match valueOf answer with
    | .error error => some (.error error, world)
    | .ok value =>
      if value.truthy then
        host |>.evalNode outside (.scope scope :: below) thenBranch scope world
      else
        match elseBranch with
        | some other => host |>.evalNode outside (.scope scope :: below) other scope world
        | none => some (.ok (.value .none), world)
  | .whileLoop condition body => do
    let (answer, world) ←
      host |>.evalNode outside (.scope scope :: below) condition scope world
    match valueOf answer with
    | .error error => some (.error error, world)
    | .ok value =>
      if value.truthy then
        let (answer, world) ←
          host |>.evalNode outside (.scope scope :: below) body scope world
        match answer with
        | .error error => some (.error error, world)
        | .ok .breakLoop => some (.ok (.value .none), world)
        | .ok (.giveBack result) => some (.ok (.giveBack result), world)
        | .ok _ => host |>.evalNode outside below node scope world
      else some (.ok (.value .none), world)
  | .repeatLoop body condition => do
    let (answer, world) ← host |>.evalNode outside (.scope scope :: below) body scope world
    match answer with
    | .error error => some (.error error, world)
    | .ok .breakLoop => some (.ok (.value .none), world)
    | .ok (.giveBack result) => some (.ok (.giveBack result), world)
    | .ok _ =>
      let (answer, world) ←
        host |>.evalNode outside (.scope scope :: below) condition scope world
      match valueOf answer with
      | .error error => some (.error error, world)
      | .ok value =>
        if value.truthy then some (.ok (.value .none), world)
        else host |>.evalNode outside below node scope world
  | .forLoop var first last step body =>
    let (inner, store) := world.store.newScope .generic scope
    do
      let (answer, world) ← host |>.evalNode outside (.scope scope :: .scope inner :: below)
        first scope { world with store }
      match numberOf answer with
      | .error error => some (.error error, world)
      | .ok value =>
        host |>.evalRounds outside below { var, last, step, body, scope, inner }
          { world with store := world.store.setOwn inner var value }
  | .giveBack none => some (.ok (.giveBack .none), world)
  | .giveBack (some value) => do
    let (answer, world) ← host |>.evalNode outside (.scope scope :: below) value scope world
    some ((valueOf answer).map .giveBack, world)
  | .breakLoop => some (.ok .breakLoop, world)
  | .continueLoop => some (.ok .continueLoop, world)
  | .waitForUpdate => none
  | .classDecl .. | .behaviourDecl .. | .functionDecl .. | .constructorDecl ..
  | .propertyDecl .. | .hasBehaviour _ | .contract .. | .updateOrder _ =>
    some (.ok (.value .none), world)
partial_fixpoint

/-- The scope of the members of a target, and what has come in for it. -/
def evalOwner (host : Direct σ τ) (outside : Held) (below : List Ref) (target : Node)
    (scope : ScopeId) (world : World σ) :
    Option (Except Error (ScopeId × List Ref) × World σ) :=
  match target.kind with
  | .typeName name =>
    let held := holding outside [.scope scope] below []
    some ((NodeFrame.typeScope world.store held scope name).map fun found => (found, []), world)
  | _ => do
    let (answer, world) ← host |>.evalNode outside (.scope scope :: below) target scope world
    some ((valueOf answer).bind fun value =>
      (NodeFrame.memberScope world.store value).map fun found => (found, value.refs), world)
partial_fixpoint

/-- The outcome of a member in the scope `found` of its owner. -/
def evalAccess (host : Direct σ τ) (outside : Held) (below came : List Ref) (member : Node)
    (scope found : ScopeId) (world : World σ) : Option (Except Error Outcome × World σ) :=
  let held := holding outside [.scope scope] below came
  match member.kind with
  | .literal (.identifier name) =>
    match world.store.memberValue? held found name with
    | some value => some (.ok (.value value), world)
    | none => some (.error (.undefinedName (.propertyName name)), world)
  | .typeName name =>
    match world.store.attached? held found name with
    | some behaviour => some (.ok (.value (.object behaviour)), world)
    | none => some (.error (.undefinedName (.missingBehaviour name)), world)
  | .call name args => do
    let (answer, world) ← host |>.evalArguments outside below [.scope scope, .scope found] held
      scope [] args world
    match answer with
    | .error error => some (.error error, world)
    | .ok (values, held) =>
      match world.store.memberFunction? held found name with
      | none => some (.error (.undefinedName (.functionName name)), world)
      | some (function, place) =>
        host |>.evalCall outside (.scope scope :: .scope found :: below) function values
          (function.callParent place) world
  | kind => some (.error (.internal (.invalidMember kind.name)), world)
partial_fixpoint

/-- The values of arguments, behind those that are known, and what is held when the last
of them has come in. -/
def evalArguments (host : Direct σ τ) (outside : Held) (below own : List Ref) (held : Held)
    (scope : ScopeId) (values : List Constant) (args : List Node) (world : World σ) :
    Option (Except Error (List Constant × Held) × World σ) :=
  match args with
  | [] => some (.ok (values, held), world)
  | arg :: rest => do
    let (answer, world) ← host |>.evalNode outside
      (own ++ values.flatMap Constant.refs ++ below) arg scope world
    match valueOf answer with
    | .error error => some (.error error, world)
    | .ok value =>
      host |>.evalArguments outside below own
        (holding outside (own ++ values.flatMap Constant.refs) below value.refs) scope
        (values ++ [value]) rest world
partial_fixpoint

/-- The outcome of statements, where `last` is the value of the one before them. -/
def evalStatements (host : Direct σ τ) (outside : Held) (below : List Ref) (scope : ScopeId)
    (last : Option Constant) (body : List Node) (world : World σ) :
    Option (Except Error Outcome × World σ) :=
  match body with
  | [] => some (.ok (.value (last.getD .none)), world)
  | statement :: rest => do
    let (answer, world) ← host |>.evalNode outside
      (.scope scope :: (last.toList.flatMap Constant.refs ++ below)) statement scope world
    match answer with
    | .error error => some (.error error, world)
    | .ok (.value value) => host |>.evalStatements outside below scope (some value) rest world
    | .ok outcome => some (.ok outcome, world)
partial_fixpoint

/-- Evaluate the value of an assignment and assign it. -/
def evalAssigned (host : Direct σ τ) (outside : Held) (below : List Ref) (target value : Node)
    (scope : ScopeId) (found : Option ScopeId) (world : World σ) :
    Option (Except Error Outcome × World σ) := do
  let own : List Ref := .scope scope :: found.toList.map .scope
  let (answer, world) ← host |>.evalNode outside (own ++ below) value scope world
  match valueOf answer with
  | .error error => some (.error error, world)
  | .ok result =>
    let (assigned, store) := NodeFrame.assignTo target scope found world.store
      (holding outside own below result.refs) result
    some (assigned.map fun _ => .value .none, { world with store })
partial_fixpoint

/-- The rounds of a `for` loop: bound and step are evaluated before each of them. -/
def evalRounds (host : Direct σ τ) (outside : Held) (below : List Ref) (loop : Counting)
    (world : World σ) : Option (Except Error Outcome × World σ) := do
  let (answer, world) ← host |>.evalNode outside (loop.refs ++ below) loop.last loop.inner world
  match numberOf answer with
  | .error error => some (.error error, world)
  | .ok limit =>
    match loop.step with
    | none =>
      host |>.evalRound outside below loop limit (.number 1)
        (holding outside loop.refs below limit.refs) world
    | some step =>
      let (answer, world) ← host |>.evalNode outside (loop.refs ++ limit.refs ++ below) step
        loop.inner world
      match valueOf answer with
      | .error error => some (.error error, world)
      | .ok pace =>
        host |>.evalRound outside below loop limit pace
          (holding outside (loop.refs ++ limit.refs) below pace.refs) world
partial_fixpoint

/-- One round of a `for` loop with its bound and its step, and the rounds after it. -/
def evalRound (host : Direct σ τ) (outside : Held) (below : List Ref) (loop : Counting)
    (limit pace : Constant) (held : Held) (world : World σ) :
    Option (Except Error Outcome × World σ) :=
  match NodeFrame.hasRound limit pace fun _ =>
      NodeFrame.loopNumber world.store held loop.inner loop.var with
  | .error error => some (.error error, world)
  | .ok false => some (.ok (.value .none), world)
  | .ok true => do
    let own := loop.refs ++ (limit.refs ++ pace.refs)
    let (answer, world) ← host |>.evalNode outside (own ++ below) loop.body loop.inner world
    match answer with
    | .error error => some (.error error, world)
    | .ok .breakLoop => some (.ok (.value .none), world)
    | .ok (.giveBack result) => some (.ok (.giveBack result), world)
    | .ok outcome =>
      match nextNumber world.store (holding outside own below outcome.refs) loop.inner
          loop.var pace with
      | .error error => some (.error error, world)
      | .ok next =>
        host |>.evalRounds outside below loop
          { world with store := world.store.setOwn loop.inner loop.var (.number next) }
partial_fixpoint

/-- Call a function with arguments under a parent scope. -/
def evalCall (host : Direct σ τ) (outside : Held) (below : List Ref) (function : Function)
    (args : List Constant) (parent : ScopeId) (world : World σ) :
    Option (Except Error Outcome × World σ) :=
  match Binding.ofArguments (.function function.qualifiedName) function.params args with
  | .error error => some (.error error, world)
  | .ok binding =>
    let (scope, store) := world.store.newScope .function parent
    host |>.evalDefaults outside below function parent scope binding.left
      { world with store := store.setAllOwn scope binding.bound }
partial_fixpoint

/-- Evaluate the parameters that have no argument, then the body. -/
def evalDefaults (host : Direct σ τ) (outside : Held) (below : List Ref) (function : Function)
    (parent scope : ScopeId) (left : List (String × Node)) (world : World σ) :
    Option (Except Error Outcome × World σ) :=
  match left with
  | [] => host |>.evalBody outside below function parent scope world
  | (param, initial) :: rest => do
    let (answer, world) ← host |>.evalNode outside
      (function.refs ++ [.scope parent, .scope scope] ++ below) initial scope world
    match valueOf answer with
    | .error error => some (.error error, world)
    | .ok value =>
      host |>.evalDefaults outside below function parent scope rest
        { world with store := world.store.setOwn scope param value }
partial_fixpoint

/-- Run the body of a function whose parameters are bound in `scope`, or let the host run
it. -/
def evalBody (host : Direct σ τ) (outside : Held) (below : List Ref) (function : Function)
    (parent scope : ScopeId) (world : World σ) :
    Option (Except Error Outcome × World σ) :=
  let own := function.refs ++ [.scope parent, .scope scope]
  match function.body with
  | some body => do
    let (answer, world) ← host |>.evalNode outside (own ++ below) body scope world
    some (answer.bind Outcome.ofBody, world)
  | none =>
    callNative host (holding outside (function.refs ++ [.scope scope]) (own ++ below) [])
      function scope world
partial_fixpoint

/-- Go through the steps of a construction. -/
def construct (host : Direct σ τ) (outside : Held) (below came : List Ref) (object : ObjectRef)
    (steps : List ConstructionStep) (world : World σ) :
    Option (Except Error Outcome × World σ) :=
  match steps with
  | [] => some (.ok (.value (.object object)), world)
  | .parameter scope name initial :: rest => do
    let (answer, world) ←
      host |>.evalNode outside (.object object :: below) initial scope world
    match valueOf answer with
    | .error error => some (.error error, world)
    | .ok value =>
      host |>.construct outside below value.refs object rest
        { world with store := world.store.setOwn scope name value }
  | .property scope name initial :: rest =>
    if world.store.bindsVariable scope name then
      host |>.construct outside below came object rest world
    else
      match initial with
      | some expression => do
        let (answer, world) ←
          host |>.evalNode outside (.object object :: below) expression scope world
        match valueOf answer with
        | .error error => some (.error error, world)
        | .ok value =>
          host |>.construct outside below value.refs object rest
            { world with store := world.store.setOwn scope name value }
      | none =>
        host |>.construct outside below came object rest
          { world with store := world.store.setOwn scope name .none }
  | .behaviour scope behaviour :: rest =>
    match Construction.ofBehaviour world.store (holding outside [.object object] below came)
        behaviour object with
    | (.error error, store) => some (.error error, { world with store })
    | (.ok construction, store) => do
      let (answer, world) ← host |>.construct outside (.object object :: below) []
        construction.object construction.steps { world with store }
      match valueOf answer with
      | .error error => some (.error error, world)
      | .ok (.object attached) =>
        let store := (world.store.attach scope attached).modifyObject object fun owner =>
          { owner with behaviours := owner.behaviours ++ [attached] }
        host |>.construct outside below [.object attached] object rest { world with store }
      | .ok value => some (.error (.internal (.notABehaviour value)), world)
  | .body constructor scope :: rest =>
    let (inner, store) := world.store.newScope .function scope
    do
      let (answer, world) ← host |>.evalBody outside (.object object :: below) constructor scope
        inner { world with store }
      match answer with
      | .error error => some (.error error, world)
      | .ok outcome => host |>.construct outside below outcome.refs object rest world
  | .phase :: rest => host |>.construct outside below [] object rest world
  | .register :: rest =>
    let held := holding outside [.object object] below came
    host |>.construct outside below came object rest
      { world with store := Construction.register world.store held object }
partial_fixpoint

end

/-- Go through the steps of the start of a unit, where `last` is the value of the last file
so far. -/
def evalStart (host : Host σ τ) (outside : Held) (root : ScopeId) (last : Constant) :
    List StartStep → World σ → Option (Except Error Outcome × World σ)
  | [], world => some (.ok (.value last), world)
  | .sharedProperty id name initial :: rest, world =>
    let scope := (world.store.classAt id).sharedScope
    if world.store.bindsVariable scope name then evalStart host outside root last rest world
    else
      match initial with
      | some expression => do
        let (answer, world) ←
          evalNode host outside (.scope root :: last.refs) expression scope world
        match answer.bind Start.outcomeValue with
        | .error error => some (.error error, world)
        | .ok value =>
          let store := world.store.setOwn (world.store.classAt id).sharedScope name value
          evalStart host outside root last rest { world with store }
      | none =>
        evalStart host outside root last rest
          { world with store := world.store.setOwn scope name .none }
  | .sharedConstructor id :: rest, world =>
    match (world.store.classAt id).sharedConstructor with
    | some constructor => do
      let (answer, world) ← evalCall host outside (.scope root :: last.refs) constructor []
        (world.store.classAt id).sharedScope world
      match answer.bind Start.outcomeValue with
      | .error error => some (.error error, world)
      | .ok _ => evalStart host outside root last rest world
    | none => evalStart host outside root last rest world
  | .register id :: rest, world =>
    let held := holding outside (.scope root :: last.refs) [] []
    evalStart host outside root last rest
      { world with store := Start.register world.store held root id }
  | .file file :: rest, world =>
    match file.kind with
    | .file name _ =>
      let held := holding outside (.scope root :: last.refs) [] []
      let (scope, store) := world.store.fileScope held root name
      do
        let (answer, world) ← evalNode host outside (.scope root :: last.refs) file scope
          { world with store }
        match answer.bind Start.outcomeValue with
        | .error error => some (.error error, world)
        | .ok value => evalStart host outside root value rest world
    | _ => some (.error (.internal .nonFileInUnit), world)

end Direct

end StepScript
