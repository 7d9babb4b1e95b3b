import StepScript.Tree.Basic
import StepScript.Table
set_option autoImplicit false

/-!
# Declared things

What registration makes of declarations: functions, properties, classes and
behaviours.  Scopes and classes live in the store and are referred to by their place
in it.
-/

namespace StepScript

/-- A scope, by its place in the store. -/
structure ScopeId where
  index : Nat
  deriving DecidableEq, Repr, Inhabited

/-- A class, by its place in the store. -/
structure ClassId where
  index : Nat
  deriving DecidableEq, Repr, Inhabited

structure Function where
  name : String
  params : List Parameter
  /-- Absent for a function of the host. -/
  body : Option Node
  /-- The class or behaviour that declares it. -/
  owner : Option String
  /-- For a function of a file, the scope of the file; calls run in it. -/
  home : Option ScopeId
  token : Token
  deriving Inhabited

namespace Function

def isNative (function : Function) : Bool := function.body.isNone

def qualifiedName (function : Function) : String :=
  match function.owner with
  | some owner => s!"{owner}.{function.name}"
  | none => function.name

def signature (function : Function) : String :=
  let params := ", ".intercalate (function.params.map (·.name))
  s!"{function.qualifiedName}({params})"

end Function

structure Property where
  name : String
  initial : Option Node
  token : Token
  deriving Inhabited

structure Members where
  properties : List Property := []
  functions : Table Function := []
  constructor : Option Function := none
  deriving Inhabited

def Members.hasProperty (members : Members) (name : String) : Bool :=
  members.properties.any (·.name == name)

abbrev Mention : Type := String × Token

structure Class where
  name : String
  token : Token
  parentName : Option String
  /-- The class of that name, once the classes of the unit are linked. -/
  parent : Option ClassId := none
  members : Members
  sharedProperties : List Property
  sharedConstructor : Option Function
  /-- The behaviours attached at this level. -/
  behaviours : List Mention
  updateOrder : Option UpdateOrder
  /-- State and functions of the class itself. -/
  sharedScope : ScopeId
  /-- Scope of the declaring file. -/
  home : ScopeId
  deriving Inhabited

structure Behaviour where
  name : String
  token : Token
  members : Members
  requires : List Mention
  supports : List Mention
  excludes : List Mention
  deriving Inhabited

end StepScript
