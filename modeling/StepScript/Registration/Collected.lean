import StepScript.Declaration
import StepScript.Registration.Placement
set_option autoImplicit false

/-!
# Bodies of classes and behaviours

The declarations of a body are collected one by one; each is checked against those
before it.
-/

namespace StepScript

inductive OwnerKind where
  | ofClass
  | ofBehaviour
  deriving DecidableEq, Repr, Inhabited

def OwnerKind.text : OwnerKind → String
  | .ofClass => "class"
  | .ofBehaviour => "behaviour"

structure Collected where
  members : Members := {}
  sharedProperties : List Property := []
  sharedFunctions : Table Function := []
  sharedConstructor : Option Function := none
  behaviours : List Mention := []
  updateOrder : Option UpdateOrder := none
  requires : List Mention := []
  supports : List Mention := []
  excludes : List Mention := []
  deriving Inhabited

namespace Collected

def hasProperty (collected : Collected) (name : String) : Bool :=
  collected.members.hasProperty name || collected.sharedProperties.any (·.name == name)

def addProperty (collected : Collected) (owner name : String) (initial : Option Node)
    (shared : Bool) (token : Token) : Except Error Collected :=
  if collected.hasProperty name then
    .error (.registration (.duplicateProperty name owner) token)
  else
    let property : Property := { name, initial, token }
    if shared then
      .ok { collected with sharedProperties := collected.sharedProperties ++ [property] }
    else
      let members := collected.members
      .ok { collected with
        members := { members with properties := members.properties ++ [property] } }

/-- Add a function.  A shared function and one of the instances may have the same
name. -/
def addFunction (collected : Collected) (owner name : String) (params : List Parameter)
    (body : Option Node) (shared : Bool) (token : Token) : Except Error Collected :=
  let members := collected.members
  let table := if shared then collected.sharedFunctions else members.functions
  if table.binds name then .error (.registration (.duplicateMember name owner) token)
  else
    match checkFunctionBody body with
    | .error error => .error error
    | .ok () =>
      let table := table.insert name { name, params, body, owner, home := none, token }
      if shared then .ok { collected with sharedFunctions := table }
      else .ok { collected with members := { members with functions := table } }

/-- Add a constructor.  A shared constructor takes no parameters, and a behaviour is
constructed without arguments, so that each parameter needs an expression for its
value. -/
def addConstructor (collected : Collected) (owner : String) (kind : OwnerKind)
    (params : List Parameter) (body : Node) (shared : Bool) (token : Token) :
    Except Error Collected :=
  let members := collected.members
  let taken := if shared then collected.sharedConstructor.isSome
    else members.constructor.isSome
  if taken then .error (.registration (.secondConstructor owner) token)
  else if shared && !params.isEmpty then
    .error (.registration .sharedConstructorParameters token)
  else
    match params.find? fun param => kind == .ofBehaviour && param.initial.isNone with
    | some param => .error (.registration (.parameterWithoutDefault param.name owner) token)
    | none =>
      match checkFunctionBody (some body) with
      | .error error => .error error
      | .ok () =>
        let constructor : Function :=
          { name := "constructor", params, body, owner, home := none, token }
        if shared then .ok { collected with sharedConstructor := constructor }
        else .ok { collected with members := { members with constructor } }

def addAttachment (collected : Collected) (owner name : String) (token : Token) :
    Except Error Collected :=
  if collected.behaviours.any (·.1 == name) then
    .error (.registration (.attachedTwice name owner) token)
  else .ok { collected with behaviours := collected.behaviours ++ [(name, token)] }

def addUpdateOrder (collected : Collected) (owner : String) (order : UpdateOrder)
    (token : Token) : Except Error Collected :=
  if collected.updateOrder.isSome then
    .error (.registration (.secondUpdateOrder owner) token)
  else .ok { collected with updateOrder := some order }

def addContract (collected : Collected) (owner : String) (contract : Contract)
    (name : String) (token : Token) : Except Error Collected :=
  if name = owner then .error (.registration (.selfContract owner) token)
  else
    match contract with
    | .requires => .ok { collected with requires := collected.requires ++ [(name, token)] }
    | .supports => .ok { collected with supports := collected.supports ++ [(name, token)] }
    | .excludes => .ok { collected with excludes := collected.excludes ++ [(name, token)] }

def declaresShared : NodeKind → Bool
  | .functionDecl _ _ _ shared _ => shared
  | .propertyDecl _ _ shared => shared
  | .constructorDecl _ _ shared => shared
  | _ => false

def add (owner : String) (kind : OwnerKind) (collected : Collected) (statement : Node) :
    Except Error Collected :=
  let token := statement.token
  if kind = .ofBehaviour && declaresShared statement.kind then
    .error (.registration .sharedInBehaviour token)
  else
    match statement.kind, kind with
    | .propertyDecl name initial shared, _ =>
      collected.addProperty owner name initial shared token
    | .functionDecl name params body shared _, _ =>
      collected.addFunction owner name params body shared token
    | .constructorDecl params body shared, _ =>
      collected.addConstructor owner kind params body shared token
    | .hasBehaviour name, .ofClass => collected.addAttachment owner name token
    | .updateOrder order, .ofClass => collected.addUpdateOrder owner order token
    | .contract contract name, .ofBehaviour => collected.addContract owner contract name token
    | other, _ =>
      if other.isDeclaration then
        .error (.registration (.notInOwner other.name kind.text) token)
      else .error (.registration (.onlyDeclarations kind.text) token)

def ofBody (owner : String) (kind : OwnerKind) (body : Node) : Except Error Collected :=
  body.statements.foldlM (add owner kind) {}

end Collected

end StepScript
