import StepScript.Declaration
set_option autoImplicit false

/-!
# The store

Everything that a program can change: scopes, objects and classes.  A scope binds
names and has a parent, in which names that it does not bind are looked up.
-/

namespace StepScript

inductive ScopeKind where
  | generic
  | function
  | classLevel
  | object
  | file
  | global
  deriving DecidableEq, Repr, Inhabited

inductive ParentLink where
  /-- The parent lives as long as the scope does. -/
  | strong (scope : ScopeId)
  /-- The link does not keep the parent alive. -/
  | weak (scope : ScopeId)
  deriving DecidableEq, Repr, Inhabited

inductive UpdateTarget where
  | ofClass (target : ClassId)
  | ofObject (target : ObjectRef)
  deriving DecidableEq, Repr, Inhabited

/-- A wait for the end of the frame, by its place in the store. -/
structure Ticket where
  index : Nat
  deriving DecidableEq, Repr, Inhabited

/-- The state of a whole program, which the scope at the root of its chains carries. -/
structure GlobalState where
  /-- Classes in the order of their registration. -/
  classes : List ClassId := []
  /-- Behaviours in the order of their registration. -/
  behaviours : List Behaviour := []
  pre : List UpdateTarget := []
  normal : List UpdateTarget := []
  post : List UpdateTarget := []
  /-- Waits that the end of the frame releases. -/
  waiters : List Ticket := []
  files : Table ScopeId := []
  /-- Number of the object created last. -/
  lastSerial : Nat := 0
  deriving Inhabited

namespace GlobalState

def registry (state : GlobalState) : UpdateOrder → List UpdateTarget
  | .pre => state.pre
  | .normal => state.normal
  | .post => state.post

def register (state : GlobalState) (order : UpdateOrder) (target : UpdateTarget) :
    GlobalState :=
  match order with
  | .pre => { state with pre := state.pre ++ [target] }
  | .normal => { state with normal := state.normal ++ [target] }
  | .post => { state with post := state.post ++ [target] }

end GlobalState

structure Scope where
  kind : ScopeKind
  parent : Option ParentLink := none
  /-- A scope whose names are looked up right after the names of this one. -/
  delegate : Option ScopeId := none
  /-- The variables with their values. -/
  values : Table Constant := []
  functions : Table Function := []
  classes : Table ClassId := []
  behaviours : Table Behaviour := []
  /-- Behaviour objects attached to this level of an object. -/
  attached : List ObjectRef := []
  /-- The object that the scope is a level of.  The scope does not keep it alive. -/
  object : Option ObjectRef := none
  state : Option GlobalState := none
  deriving Inhabited

structure Object where
  classId : Option ClassId := none
  /-- One scope for each level of the class, the most derived first. -/
  scopes : List ScopeId := []
  /-- Behaviour objects attached at any level. -/
  behaviours : List ObjectRef := []
  deriving Inhabited

/-- Scopes, objects and classes by their places, and for each wait whether it has been
released. -/
structure Store where
  scopes : Array Scope := #[]
  objects : Array Object := #[]
  classes : Array Class := #[]
  released : Array Bool := #[]
  deriving Inhabited

namespace Store

/-! ## Reading and writing -/

def scope (store : Store) (id : ScopeId) : Scope := store.scopes[id.index]?.getD default

def object (store : Store) (ref : ObjectRef) : Object := store.objects[ref.key]?.getD default

def classAt (store : Store) (id : ClassId) : Class := store.classes[id.index]?.getD default

def modifyScope (store : Store) (id : ScopeId) (change : Scope → Scope) : Store :=
  { store with scopes := store.scopes.modify id.index change }

def modifyObject (store : Store) (ref : ObjectRef) (change : Object → Object) : Store :=
  { store with objects := store.objects.modify ref.key change }

def modifyClass (store : Store) (id : ClassId) (change : Class → Class) : Store :=
  { store with classes := store.classes.modify id.index change }

/-! ## New scopes, objects and waits -/

def addScope (store : Store) (scope : Scope) : ScopeId × Store :=
  (⟨store.scopes.size⟩, { store with scopes := store.scopes.push scope })

def newGlobal (store : Store) : ScopeId × Store :=
  store.addScope { kind := .global, state := some {} }

def newScope (store : Store) (kind : ScopeKind) (parent : ScopeId) : ScopeId × Store :=
  store.addScope { kind, parent := some (.strong parent) }

/-- A new scope that does not keep its parent alive. -/
def newDetached (store : Store) (kind : ScopeKind) (parent : ScopeId) : ScopeId × Store :=
  store.addScope { kind, parent := some (.weak parent) }

/-- A new class level of an object: names are looked up in the shared scope of the
class right after it. -/
def newWrapper (store : Store) (shared parent : ScopeId) : ScopeId × Store :=
  store.addScope
    { kind := .classLevel, parent := some (.strong parent), delegate := some shared }

def addObject (store : Store) (typeName : String) (serial : Nat) (object : Object) :
    ObjectRef × Store :=
  (⟨store.objects.size, typeName, serial⟩, { store with objects := store.objects.push object })

def addClass (store : Store) (declared : Class) : ClassId × Store :=
  (⟨store.classes.size⟩, { store with classes := store.classes.push declared })

def newTicket (store : Store) : Ticket × Store :=
  (⟨store.released.size⟩, { store with released := store.released.push false })

def isReleased (store : Store) (ticket : Ticket) : Bool :=
  store.released[ticket.index]?.getD false

def release (store : Store) (ticket : Ticket) : Store :=
  { store with released := store.released.setIfInBounds ticket.index true }

/-! ## Own entries of a scope -/

/-- The scope itself binds the variable. -/
def bindsVariable (store : Store) (id : ScopeId) (name : String) : Bool :=
  (store.scope id).values.binds name

def setOwn (store : Store) (id : ScopeId) (name : String) (value : Constant) : Store :=
  store.modifyScope id fun scope =>
    { scope with values := scope.values.insert name value }

def ownFunction? (store : Store) (id : ScopeId) (name : String) : Option Function :=
  (store.scope id).functions.get? name

def setFunctions (store : Store) (id : ScopeId) (functions : Table Function) : Store :=
  store.modifyScope id fun scope => { scope with functions }

def setParent (store : Store) (id parent : ScopeId) : Store :=
  store.modifyScope id fun scope => { scope with parent := some (.strong parent) }

def setObject (store : Store) (id : ScopeId) (object : ObjectRef) : Store :=
  store.modifyScope id fun scope => { scope with object := some object }

def attach (store : Store) (id : ScopeId) (behaviour : ObjectRef) : Store :=
  store.modifyScope id fun scope => { scope with attached := scope.attached ++ [behaviour] }

/-- The scope that lookups of members of an object start from. -/
def outerScope? (store : Store) (object : ObjectRef) : Option ScopeId :=
  (store.object object).scopes.head?

/-! ## Classes and their ancestors -/

/-- A class followed by its ancestors, as far as their names are new.  Each ancestor
is another class of the store, so their number bounds the way up. -/
def ancestorsFrom (store : Store) : (bound : Nat) → (seen : List String) → ClassId →
    List ClassId
  | 0, _, id => [id]
  | bound + 1, seen, id =>
    match (store.classAt id).parent with
    | some parent =>
      let name := (store.classAt parent).name
      if seen.contains name then [id]
      else id :: store.ancestorsFrom bound (name :: seen) parent
    | none => [id]

def hierarchy (store : Store) (id : ClassId) : List ClassId :=
  store.ancestorsFrom store.classes.size [(store.classAt id).name] id

def isA (store : Store) (id : ClassId) (name : String) : Bool :=
  (store.hierarchy id).any fun level => (store.classAt level).name == name

def updateOrderOf (store : Store) (id : ClassId) : UpdateOrder :=
  ((store.hierarchy id).findSome? fun level => (store.classAt level).updateOrder).getD .normal

def allBehaviours (store : Store) (id : ClassId) : List String :=
  (store.hierarchy id).flatMap fun level => (store.classAt level).behaviours.map (·.1)

def hasInstanceUpdate (store : Store) (id : ClassId) : Bool :=
  (store.hierarchy id).any fun level =>
    (store.classAt level).members.functions.binds "update"

end Store

end StepScript
