import StepScript.Store.Liveness
import StepScript.Error
set_option autoImplicit false

/-!
# Looking names up

A name is looked up in a scope, then in the delegate of the scope, then in its parent,
and so on to the root.  The scopes of a chain differ from each other, so the number of
scopes bounds every walk.
-/

namespace StepScript

namespace Store

variable {α : Type}

/-! ## Walks along a chain -/

/-- The parent of a scope.  A link that does not keep the parent alive leads nowhere
once the parent is gone. -/
def parentOf (store : Store) (held : Held) (id : ScopeId) : Option ScopeId :=
  match (store.scope id).parent with
  | some (.strong parent) => some parent
  | some (.weak parent) =>
    if store.alive held (.scope parent) then some parent else none
  | none => none

/-- The scope holds the names of a file or of the whole program. -/
def isFileLevel (store : Store) (id : ScopeId) : Bool :=
  match (store.scope id).kind with
  | .file | .global => true
  | _ => false

/-- Visit the scopes of a chain, each followed by its delegate, until a visit gives an
answer. -/
def walkFrom (store : Store) (held : Held) (membersOnly : Bool)
    (visit : ScopeId → Scope → Option α) : (bound : Nat) → ScopeId → Option α
  | 0, _ => none
  | bound + 1, id =>
    if membersOnly && store.isFileLevel id then none
    else
      match visit id (store.scope id) with
      | some answer => some answer
      | none =>
        match (store.scope id).delegate.bind fun other => visit other (store.scope other) with
        | some answer => some answer
        | none =>
          match store.parentOf held id with
          | some parent => store.walkFrom held membersOnly visit bound parent
          | none => none

def find (store : Store) (held : Held) (id : ScopeId)
    (visit : ScopeId → Scope → Option α) : Option α :=
  store.walkFrom held false visit store.scopes.size id

/-- Visit a chain up to the first scope of a file or of the whole program, which is left
out. -/
def findMember (store : Store) (held : Held) (id : ScopeId)
    (visit : ScopeId → Scope → Option α) : Option α :=
  store.walkFrom held true visit store.scopes.size id

def nearestFrom (store : Store) (held : Held) (kind : ScopeKind) :
    (bound : Nat) → ScopeId → Option ScopeId
  | 0, _ => none
  | bound + 1, id =>
    if (store.scope id).kind = kind then some id
    else
      match store.parentOf held id with
      | some parent => store.nearestFrom held kind bound parent
      | none => none

def nearest (store : Store) (held : Held) (id : ScopeId) (kind : ScopeKind) :
    Option ScopeId :=
  store.nearestFrom held kind store.scopes.size id

def rootFrom (store : Store) (held : Held) : (bound : Nat) → ScopeId → ScopeId
  | 0, id => id
  | bound + 1, id =>
    match store.parentOf held id with
    | some parent => store.rootFrom held bound parent
    | none => id

def root (store : Store) (held : Held) (id : ScopeId) : ScopeId :=
  store.rootFrom held store.scopes.size id

/-! ## Names -/

def value? (store : Store) (held : Held) (id : ScopeId) (name : String) :
    Option Constant :=
  store.find held id fun _ scope => scope.values.get? name

def memberValue? (store : Store) (held : Held) (id : ScopeId) (name : String) :
    Option Constant :=
  store.findMember held id fun _ scope => scope.values.get? name

def function? (store : Store) (held : Held) (id : ScopeId) (name : String) :
    Option (Function × ScopeId) :=
  store.find held id fun place scope => (scope.functions.get? name).map (·, place)

/-- A function of the object or class that the scope belongs to, and the scope that
declares it. -/
def memberFunction? (store : Store) (held : Held) (id : ScopeId) (name : String) :
    Option (Function × ScopeId) :=
  store.findMember held id fun place scope => (scope.functions.get? name).map (·, place)

def class? (store : Store) (held : Held) (id : ScopeId) (name : String) : Option ClassId :=
  store.find held id fun _ scope => scope.classes.get? name

def behaviour? (store : Store) (held : Held) (id : ScopeId) (name : String) :
    Option Behaviour :=
  store.find held id fun _ scope => scope.behaviours.get? name

def attached? (store : Store) (held : Held) (id : ScopeId) (name : String) :
    Option ObjectRef :=
  store.find held id fun _ scope => scope.attached.find? (·.typeName == name)

def enclosingObject? (store : Store) (held : Held) (id : ScopeId) : Option ObjectRef :=
  store.find held id fun _ scope =>
    scope.object.bind fun object =>
      if store.alive held (.object object) then some object else none

/-- Bind a variable where the chain binds it already, or else in the scope itself. -/
def setVariable (store : Store) (held : Held) (id : ScopeId) (name : String)
    (value : Constant) : Store :=
  let place := store.find held id fun place scope =>
    if scope.values.binds name then some place else none
  store.setOwn (place.getD id) name value

/-- Bind a property where the object or class binds it already, or else in the scope
itself. -/
def setMember (store : Store) (held : Held) (id : ScopeId) (name : String)
    (value : Constant) : Store :=
  let place := store.findMember held id fun place scope =>
    if scope.values.binds name then some place else none
  store.setOwn (place.getD id) name value

def argument (store : Store) (held : Held) (id : ScopeId) (name : String) :
    Except Error Constant :=
  match store.value? held id name with
  | some value => .ok value
  | none => .error (.undefinedName (.argument name))

/-! ## The state of the program -/

/-- Use the state at the root of a chain.  A root that has none gets an empty one. -/
def withState (store : Store) (held : Held) (id : ScopeId)
    (use : GlobalState → α × GlobalState) : α × Store :=
  let root := store.root held id
  let (answer, state) := use ((store.scope root).state.getD {})
  (answer, store.modifyScope root fun scope => { scope with state := some state })

def modifyState (store : Store) (held : Held) (id : ScopeId)
    (change : GlobalState → GlobalState) : Store :=
  (store.withState held id fun state => ((), change state)).2

def nextSerial (store : Store) (held : Held) (id : ScopeId) : Nat × Store :=
  store.withState held id fun state =>
    (state.lastSerial + 1, { state with lastSerial := state.lastSerial + 1 })

def existingFile? (store : Store) (held : Held) (id : ScopeId) (name : String) :
    Option ScopeId × Store :=
  store.withState held id fun state => (state.files.get? name, state)

def addFile (store : Store) (held : Held) (id : ScopeId) (name : String) (file : ScopeId) :
    Store :=
  store.modifyState held id fun state => { state with files := state.files.insert name file }

def fileScope (store : Store) (held : Held) (id : ScopeId) (name : String) :
    ScopeId × Store :=
  match store.existingFile? held id name with
  | (some file, store) => (file, store)
  | (none, store) =>
    let (file, store) := store.newScope .file (store.root held id)
    (file, store.addFile held id name file)

/-! ## Registering names -/

def registerFunction (store : Store) (id : ScopeId) (function : Function) :
    Except Error Store :=
  if (store.scope id).functions.binds function.name then
    .error (.registration (.duplicateFunction function.name) function.token)
  else
    .ok (store.modifyScope id fun scope =>
      { scope with functions := scope.functions.insert function.name function })

/-- Declare a class in a scope, and in the state of the program if the scope has one. -/
def registerClass (store : Store) (id : ScopeId) (declared : ClassId) :
    Except Error Store :=
  let name := (store.classAt declared).name
  if (store.scope id).classes.binds name then
    .error (.registration (.duplicateClass name) (store.classAt declared).token)
  else
    .ok (store.modifyScope id fun scope =>
      { scope with
        classes := scope.classes.insert name declared
        state := scope.state.map fun state =>
          { state with classes := state.classes ++ [declared] } })

/-- Declare a behaviour in a scope, and in the state of the program if the scope has
one. -/
def registerBehaviour (store : Store) (id : ScopeId) (behaviour : Behaviour) :
    Except Error Store :=
  if (store.scope id).behaviours.binds behaviour.name then
    .error (.registration (.duplicateBehaviour behaviour.name) behaviour.token)
  else
    .ok (store.modifyScope id fun scope =>
      { scope with
        behaviours := scope.behaviours.insert behaviour.name behaviour
        state := scope.state.map fun state =>
          { state with behaviours := state.behaviours ++ [behaviour] } })

/-! ## Clearing -/

/-- The scope without its names and its state. -/
def clearOwn (store : Store) (id : ScopeId) : Store :=
  store.modifyScope id fun scope =>
    { kind := scope.kind, parent := scope.parent, delegate := scope.delegate,
      object := scope.object }

/-- Clear a scope; with a state go the scopes of its files and classes too, as deep as
states lie within states. -/
def clearWithin (store : Store) : (depth : Nat) → ScopeId → Store
  | 0, id => store.clearOwn id
  | depth + 1, id =>
    let state := (store.scope id).state
    let store := store.clearOwn id
    match state with
    | none => store
    | some state =>
      let shared := state.classes.map fun declared => (store.classAt declared).sharedScope
      (state.files.entries ++ shared).foldl
        (fun store id => store.clearWithin depth id) store

/-- Drop every name of a scope, and of the files and classes of its state. -/
def clear (store : Store) (id : ScopeId) : Store :=
  store.clearWithin store.scopes.size id

end Store

end StepScript
