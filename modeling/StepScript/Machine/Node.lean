import StepScript.Machine.Construction
import StepScript.Arithmetic
set_option autoImplicit false

/-!
# Evaluation of nodes

How the frame of a node goes on, for each kind of node.  Operands and arguments are
evaluated from left to right, and the name of a function or a class is looked up after
its arguments.
-/

namespace StepScript

namespace NodeFrame

/-! ## Names -/

/-- The value of a variable.  Inside an object, `self` is the object unless the name is
bound. -/
def variableValue (store : Store) (held : Held) (scope : ScopeId) (name : String) :
    Except Error Constant :=
  match store.value? held scope name with
  | some value => .ok value
  | none =>
    match if name = "self" then store.enclosingObject? held scope else none with
    | some object => .ok (.object object)
    | none => .error (.undefinedName (.variableName name))

/-- The value of a type name: the behaviour object of that name. -/
def typeValue (store : Store) (held : Held) (scope : ScopeId) (name : String) :
    Except Error Constant :=
  match store.attached? held scope name with
  | some behaviour => .ok (.object behaviour)
  | none =>
    if (store.class? held scope name).isSome then .error (.type (.classAsValue name))
    else .error (.undefinedName (.plainName name))

def memberScope (store : Store) (value : Constant) : Except Error ScopeId :=
  match value.object?.bind store.outerScope? with
  | some scope => .ok scope
  | none => .error (.type (.noMembers value))

/-- The scope of the members behind a type name: that of an attached behaviour object,
or else the shared scope of a class. -/
def typeScope (store : Store) (held : Held) (scope : ScopeId) (name : String) :
    Except Error ScopeId :=
  match store.attached? held scope name with
  | some behaviour => memberScope store (.object behaviour)
  | none =>
    match store.class? held scope name with
    | some id => .ok (store.classAt id).sharedScope
    | none =>
      if (store.behaviour? held scope name).isSome then
        .error (.undefinedName (.detachedBehaviour name))
      else .error (.undefinedName (.typeName name))

/-! ## Expressions -/

def unary (op : UnaryOp) (operand : Node) (scope : ScopeId) (store : Store)
    (incoming : Option Outcome) : Resumed Progress :=
  match incoming with
  | none => ⟨.start, store, .ok (.push (.node operand scope))⟩
  | some _ =>
    ⟨.start, store, do
      let value ← Outcome.receivedValue incoming
      return .give (← op.apply value)⟩

/-- Resume a binary operation.  It pauses once both operands are known. -/
def binary (op : BinaryOp) (lhs rhs : Node) (scope : ScopeId) (store : Store)
    (progress : Progress) (incoming : Option Outcome) : Resumed Progress :=
  match progress, incoming with
  | .both l r, _ => ⟨progress, store, (op.apply l r).map .give⟩
  | .left l, some _ =>
    match Outcome.receivedValue incoming with
    | .error error => ⟨progress, store, .error error⟩
    | .ok r => ⟨.both l r, store, .ok .yield⟩
  | .left l, none => ⟨.left l, store, .ok (.push (.node rhs scope))⟩
  | _, some _ =>
    match Outcome.receivedValue incoming with
    | .error error => ⟨progress, store, .error error⟩
    | .ok l => ⟨.left l, store, .ok (.push (.node rhs scope))⟩
  | _, none => ⟨.start, store, .ok (.push (.node lhs scope))⟩

/-- The arguments of a call after an outcome has come in: the outcome of an argument
joins the others, and the outcome of the call itself is the outcome of the node. -/
def takeArgument (values : List Constant) (calling : Bool) (incoming : Option Outcome) :
    Except Error (List Constant ⊕ Outcome) :=
  match incoming with
  | none => .ok (.inl values)
  | some outcome =>
    if calling then .ok (.inr outcome)
    else (Outcome.receivedValue incoming).map fun value => .inl (values ++ [value])

def access (member : Node) (scope : ScopeId) (store : Store) (held : Held)
    (target : ScopeId) (values : List Constant) (calling : Bool)
    (incoming : Option Outcome) : Resumed Progress :=
  match member.kind with
  | .literal (.identifier name) =>
    ⟨.member target values calling, store,
      match store.memberValue? held target name with
      | some value => .ok (.give value)
      | none => .error (.undefinedName (.propertyName name))⟩
  | .typeName name =>
    ⟨.member target values calling, store,
      match store.attached? held target name with
      | some behaviour => .ok (.give (.object behaviour))
      | none => .error (.undefinedName (.missingBehaviour name))⟩
  | .call name args =>
    match takeArgument values calling incoming with
    | .error error => ⟨.member target values calling, store, .error error⟩
    | .ok (.inr outcome) => ⟨.member target values calling, store, .ok (.done outcome)⟩
    | .ok (.inl values) =>
      match args[values.length]? with
      | some arg =>
        ⟨.member target values calling, store, .ok (.push (.node arg scope))⟩
      | none =>
        match store.memberFunction? held target name with
        | none =>
          ⟨.member target values calling, store,
            .error (.undefinedName (.functionName name))⟩
        | some (function, found) =>
          ⟨.member target [] true, store,
            .ok (.push (.call
              (.ofArguments function values (function.callParent found))))⟩
  | kind =>
    ⟨.member target values calling, store, .error (.internal (.invalidMember kind.name))⟩

def memberAccess (target member : Node) (scope : ScopeId) (store : Store) (held : Held)
    (progress : Progress) (incoming : Option Outcome) : Resumed Progress :=
  match progress with
  | .member found values calling => access member scope store held found values calling incoming
  | .target =>
    match Outcome.receivedValue incoming with
    | .error error => ⟨.target, store, .error error⟩
    | .ok value =>
      match memberScope store value with
      | .error error => ⟨.target, store, .error error⟩
      | .ok found => access member scope store held found [] false none
  | _ =>
    match target.kind with
    | .typeName name =>
      match typeScope store held scope name with
      | .error error => ⟨.start, store, .error error⟩
      | .ok found => access member scope store held found [] false incoming
    | _ => ⟨.target, store, .ok (.push (.node target scope))⟩

/-- The arguments that are known, and whether the call has begun. -/
def knownArguments : Progress → List Constant × Bool
  | .arguments values calling => (values, calling)
  | _ => ([], false)

def call (name : String) (args : List Node) (scope : ScopeId) (store : Store)
    (held : Held) (progress : Progress) (incoming : Option Outcome) : Resumed Progress :=
  let (values, calling) := knownArguments progress
  match takeArgument values calling incoming with
  | .error error => ⟨progress, store, .error error⟩
  | .ok (.inr outcome) => ⟨progress, store, .ok (.done outcome)⟩
  | .ok (.inl values) =>
    match args[values.length]? with
    | some arg => ⟨.arguments values calling, store, .ok (.push (.node arg scope))⟩
    | none =>
      match store.function? held scope name with
      | none =>
        ⟨.arguments values calling, store, .error (.undefinedName (.functionName name))⟩
      | some (function, found) =>
        ⟨.arguments [] true, store,
          .ok (.push (.call
            (.ofArguments function values (function.callParent found))))⟩

def create (className : String) (args : List Node) (scope : ScopeId) (store : Store)
    (held : Held) (progress : Progress) (incoming : Option Outcome) : Resumed Progress :=
  let (values, calling) := knownArguments progress
  match takeArgument values calling incoming with
  | .error error => ⟨progress, store, .error error⟩
  | .ok (.inr outcome) => ⟨progress, store, .ok (.done outcome)⟩
  | .ok (.inl values) =>
    match args[values.length]? with
    | some arg => ⟨.arguments values calling, store, .ok (.push (.node arg scope))⟩
    | none =>
      match store.class? held scope className with
      | none =>
        let error : Error :=
          if (store.behaviour? held scope className).isSome then
            .type (.newBehaviour className)
          else .undefinedName (.className className)
        ⟨.arguments values calling, store, .error error⟩
      | some id =>
        let (construction, store) := Construction.ofClass store held id values
        ⟨.arguments [] true, store,
          construction.map fun construction => .push (.construct construction)⟩

/-! ## Statements -/

/-- Resume a list of statements.  It pauses after each of them, and its value is that of
the last one. -/
def statements (body : List Node) (scope : ScopeId) (store : Store) (progress : Progress)
    (incoming : Option Outcome) : Resumed Progress :=
  let (count, last) : Nat × Option Constant :=
    match progress with
    | .statements count last => (count, last)
    | _ => (0, none)
  match incoming with
  | some (.value value) => ⟨.statements (count + 1) (some value), store, .ok .yield⟩
  | some outcome => ⟨progress, store, .ok (.done outcome)⟩
  | none =>
    match body[count]? with
    | some statement =>
      ⟨.statements count last, store, .ok (.push (.node statement scope))⟩
    | none => ⟨.statements count last, store, .ok (.give (last.getD .none))⟩

def assignTo (target : Node) (scope : ScopeId) (found : Option ScopeId) (store : Store)
    (held : Held) (value : Constant) : Except Error Unit × Store :=
  match target.kind with
  | .literal (.identifier name) => (.ok (), store.setVariable held scope name value)
  | .member _ member =>
    match member.kind, found with
    | .literal (.identifier name), some found =>
      (.ok (), store.setMember held found name value)
    | .literal (.identifier _), none => (.error (.internal .unresolvedTarget), store)
    | _, _ => (.error (.internal .invalidAssignment), store)
  | _ => (.error (.internal .invalidAssignment), store)

def evaluateAssigned (value : Node) (scope : ScopeId) (found : Option ScopeId)
    (store : Store) : Resumed Progress :=
  ⟨.assigning found, store, .ok (.push (.node value scope))⟩

def assign (target value : Node) (scope : ScopeId) (store : Store) (held : Held)
    (progress : Progress) (incoming : Option Outcome) : Resumed Progress :=
  match progress with
  | .assigning found =>
    match Outcome.receivedValue incoming with
    | .error error => ⟨progress, store, .error error⟩
    | .ok result =>
      let (assigned, store) := assignTo target scope found store held result
      ⟨progress, store, assigned.map fun _ => .give .none⟩
  | .target =>
    match Outcome.receivedValue incoming with
    | .error error => ⟨.target, store, .error error⟩
    | .ok object =>
      match memberScope store object with
      | .error error => ⟨.target, store, .error error⟩
      | .ok found => evaluateAssigned value scope (some found) store
  | _ =>
    match target.kind with
    | .member object _ =>
      match object.kind with
      | .typeName name =>
        match typeScope store held scope name with
        | .error error => ⟨.start, store, .error error⟩
        | .ok found => evaluateAssigned value scope (some found) store
      | _ => ⟨.target, store, .ok (.push (.node object scope))⟩
    | _ => evaluateAssigned value scope none store

def branch (condition thenBranch : Node) (elseBranch : Option Node) (scope : ScopeId)
    (store : Store) (progress : Progress) (incoming : Option Outcome) : Resumed Progress :=
  match progress with
  | .condition =>
    ⟨.body, store, do
      if (← Outcome.receivedValue incoming).truthy then
        return .push (.node thenBranch scope)
      else
        match elseBranch with
        | some other => return .push (.node other scope)
        | none => return .give .none⟩
  | .body => ⟨.body, store, (Outcome.received incoming).map .done⟩
  | _ => ⟨.condition, store, .ok (.push (.node condition scope))⟩

/-! ## Loops -/

/-- Resume a `while` loop.  It pauses after each round. -/
def whileLoop (condition body : Node) (scope : ScopeId) (store : Store)
    (progress : Progress) (incoming : Option Outcome) : Resumed Progress :=
  match progress with
  | .condition =>
    match Outcome.receivedValue incoming with
    | .error error => ⟨.condition, store, .error error⟩
    | .ok value =>
      if value.truthy then ⟨.body, store, .ok (.push (.node body scope))⟩
      else ⟨.condition, store, .ok (.give .none)⟩
  | .body =>
    match Outcome.received incoming with
    | .error error => ⟨.body, store, .error error⟩
    | .ok .breakLoop => ⟨.body, store, .ok (.give .none)⟩
    | .ok (.giveBack value) => ⟨.body, store, .ok (.done (.giveBack value))⟩
    | .ok _ => ⟨.start, store, .ok .yield⟩
  | _ => ⟨.condition, store, .ok (.push (.node condition scope))⟩

/-- Resume a `repeat` loop.  It pauses after each round that is not the last. -/
def repeatLoop (body condition : Node) (scope : ScopeId) (store : Store)
    (progress : Progress) (incoming : Option Outcome) : Resumed Progress :=
  match progress with
  | .body =>
    match Outcome.received incoming with
    | .error error => ⟨.body, store, .error error⟩
    | .ok .breakLoop => ⟨.body, store, .ok (.give .none)⟩
    | .ok (.giveBack value) => ⟨.body, store, .ok (.done (.giveBack value))⟩
    | .ok _ => ⟨.condition, store, .ok (.push (.node condition scope))⟩
  | .condition =>
    match Outcome.receivedValue incoming with
    | .error error => ⟨.condition, store, .error error⟩
    | .ok value =>
      if value.truthy then ⟨.condition, store, .ok (.give .none)⟩
      else ⟨.start, store, .ok .yield⟩
  | _ => ⟨.body, store, .ok (.push (.node body scope))⟩

def loopNumber (store : Store) (held : Held) (scope : ScopeId) (var : String) :
    Except Error Float :=
  ((store.value? held scope var).getD .none).asNumber

/-- There is another round: the variable has not passed the limit in the direction of
the step. -/
def hasRound (limit step : Constant) (number : Unit → Except Error Float) :
    Except Error Bool := do
  let limit ← limit.asNumber
  let step ← step.asNumber
  if step == 0 then throw (.runtime .zeroStep)
  let number ← number ()
  return if step ≥ 0 then number ≤ limit else number ≥ limit

/-- Begin a round of a `for` loop, or end the loop. -/
def beginRound (var : String) (body : Node) (scope : ScopeId) (limit step : Constant)
    (store : Store) (held : Held) : Resumed Progress :=
  match hasRound limit step fun _ => loopNumber store held scope var with
  | .error error => ⟨.test scope limit step, store, .error error⟩
  | .ok true => ⟨.rounds scope limit step, store, .ok (.push (.node body scope))⟩
  | .ok false => ⟨.test scope limit step, store, .ok (.give .none)⟩

/-- Resume a `for` loop.  Its variable lives in a scope of its own, in which the bound,
the step and the body are evaluated.  Bound and step are evaluated anew in each round,
and the loop pauses after each round. -/
def forLoop (var : String) (first last : Node) (step : Option Node) (body : Node)
    (scope : ScopeId) (store : Store) (held : Held) (progress : Progress)
    (incoming : Option Outcome) : Resumed Progress :=
  match progress with
  | .first inner =>
    match (do let value ← Outcome.receivedValue incoming
              let _ ← value.asNumber
              return value : Except Error Constant) with
    | .error error => ⟨.first inner, store, .error error⟩
    | .ok value =>
      ⟨.bound inner, store.setOwn inner var value, .ok (.push (.node last inner))⟩
  | .round inner => ⟨.bound inner, store, .ok (.push (.node last inner))⟩
  | .bound inner =>
    match (do let value ← Outcome.receivedValue incoming
              let _ ← value.asNumber
              return value : Except Error Constant) with
    | .error error => ⟨.bound inner, store, .error error⟩
    | .ok limit =>
      match step with
      | some step => ⟨.step inner limit, store, .ok (.push (.node step inner))⟩
      | none => beginRound var body inner limit (.number 1) store held
  | .step inner limit =>
    match Outcome.receivedValue incoming with
    | .error error => ⟨.step inner limit, store, .error error⟩
    | .ok step => beginRound var body inner limit step store held
  | .test inner limit step => beginRound var body inner limit step store held
  | .rounds inner limit step =>
    match Outcome.received incoming with
    | .error error => ⟨progress, store, .error error⟩
    | .ok .breakLoop => ⟨progress, store, .ok (.give .none)⟩
    | .ok (.giveBack value) => ⟨progress, store, .ok (.done (.giveBack value))⟩
    | .ok _ =>
      match (do let step ← step.asNumber
                let number ← loopNumber store held inner var
                return number + step : Except Error Float) with
      | .error error => ⟨.rounds inner limit step, store, .error error⟩
      | .ok next => ⟨.round inner, store.setOwn inner var (.number next), .ok .yield⟩
  | _ =>
    let (inner, store) := store.newScope .generic scope
    ⟨.first inner, store, .ok (.push (.node first scope))⟩

def waitForUpdate (scope : ScopeId) (store : Store) (held : Held) (progress : Progress) :
    Resumed Progress :=
  match progress with
  | .waiting ticket =>
    ⟨progress, store, .ok (if store.isReleased ticket then .give .none else .wait)⟩
  | _ =>
    let (ticket, store) := store.newTicket
    let store := store.modifyState held scope fun state =>
      { state with waiters := state.waiters ++ [ticket] }
    ⟨.waiting ticket, store, .ok .wait⟩

/-! ## All nodes -/

/-- Resume the evaluation of a node.  Declarations have been registered before, so
nothing is left to do for them. -/
def resume (frame : NodeFrame) (store : Store) (held : Held) (incoming : Option Outcome) :
    Resumed Progress :=
  let scope := frame.scope
  let progress := frame.progress
  match frame.node.kind with
  | .literal (.identifier name) =>
    ⟨.start, store, (variableValue store held scope name).map .give⟩
  | .literal value => ⟨.start, store, .ok (.give value)⟩
  | .typeName name => ⟨.start, store, (typeValue store held scope name).map .give⟩
  | .unary op operand => unary op operand scope store incoming
  | .binary op lhs rhs => binary op lhs rhs scope store progress incoming
  | .member target member => memberAccess target member scope store held progress incoming
  | .call name args => call name args scope store held progress incoming
  | .create className args => create className args scope store held progress incoming
  | .block body | .file _ body => statements body scope store progress incoming
  | .assign target value => assign target value scope store held progress incoming
  | .branch condition thenBranch elseBranch =>
    branch condition thenBranch elseBranch scope store progress incoming
  | .whileLoop condition body => whileLoop condition body scope store progress incoming
  | .repeatLoop body condition => repeatLoop body condition scope store progress incoming
  | .forLoop var first last step body =>
    forLoop var first last step body scope store held progress incoming
  | .giveBack none => ⟨.start, store, .ok (.done (.giveBack .none))⟩
  | .giveBack (some value) =>
    match incoming with
    | none => ⟨.start, store, .ok (.push (.node value scope))⟩
    | some _ =>
      ⟨.start, store, (Outcome.receivedValue incoming).map fun result =>
        .done (.giveBack result)⟩
  | .breakLoop => ⟨.start, store, .ok (.done .breakLoop)⟩
  | .continueLoop => ⟨.start, store, .ok (.done .continueLoop)⟩
  | .waitForUpdate => waitForUpdate scope store held progress
  | .classDecl .. | .behaviourDecl .. | .functionDecl .. | .constructorDecl ..
  | .propertyDecl .. | .hasBehaviour _ | .contract .. | .updateOrder _ =>
    ⟨.start, store, .ok (.give .none)⟩

end NodeFrame

end StepScript
