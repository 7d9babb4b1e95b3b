import StepScript.Constant
import StepScript.Operation
set_option autoImplicit false

/-!
# Errors

An error is a cause together with the place that it points at.  The causes are
grouped by kind, and each group has one function that words its messages.
-/

namespace StepScript

inductive ErrorKind where
  /-- The source does not match the grammar. -/
  | parse
  /-- The declarations of a unit do not fit together. -/
  | registration
  /-- A name is bound nowhere in sight. -/
  | undefinedName
  /-- An operand or a target has the wrong type. -/
  | type
  | divisionByZero
  /-- A call has too few or too many arguments. -/
  | arity
  | runtime
  deriving DecidableEq, Repr, Inhabited

def ErrorKind.text : ErrorKind → String
  | .parse => "parse error"
  | .registration => "registration error"
  | .undefinedName => "undefined name"
  | .type => "type error"
  | .divisionByZero => "division by zero"
  | .arity => "arity error"
  | .runtime => "runtime error"

/-! ## Registration -/

inductive RegistrationFault where
  | duplicateClass (name : String)
  | duplicateBehaviour (name : String)
  | duplicateFunction (name : String)
  | sharedOutsideClass
  | onlyInClass (what : String)
  | onlyInBehaviour (what : String)
  | notInBlock (what : String)
  | outsideLoop (word : String)
  | sharedInBehaviour
  | duplicateProperty (name owner : String)
  | duplicateMember (name owner : String)
  | secondConstructor (owner : String)
  | sharedConstructorParameters
  | parameterWithoutDefault (parameter behaviour : String)
  | attachedTwice (name owner : String)
  | secondUpdateOrder (owner : String)
  | selfContract (behaviour : String)
  | notInOwner (what owner : String)
  | onlyDeclarations (owner : String)
  | extendsBehaviour (name parent : String)
  | unknownParent (parent name : String)
  | inheritanceCycle (name : String)
  | unknownContract (name behaviour : String)
  | requiredAndExcluded (behaviour name : String)
  | attachedClass (name : String)
  | unknownAttachment (name : String)
  | attachedTwiceInHierarchy (name owner : String)
  | missingRequirement (name required owner : String)
  | violatedExclusion (name excluded owner : String)
  deriving DecidableEq, Repr, Inhabited

def RegistrationFault.message : RegistrationFault → String
  | .duplicateClass name => s!"Class '{name}' is already declared"
  | .duplicateBehaviour name => s!"Behaviour '{name}' is already declared"
  | .duplicateFunction name => s!"Function '{name}' is already declared"
  | .sharedOutsideClass => "'shared' is only allowed inside a class"
  | .onlyInClass what => s!"{what} is only allowed inside a class"
  | .onlyInBehaviour what => s!"{what} is only allowed inside a behaviour"
  | .notInBlock what => s!"{what} is not allowed inside a block"
  | .outsideLoop word => s!"'{word}' outside of a loop"
  | .sharedInBehaviour => "Behaviours cannot declare shared members"
  | .duplicateProperty name owner => s!"Property '{name}' is already declared in '{owner}'"
  | .duplicateMember name owner => s!"Function '{name}' is already declared in '{owner}'"
  | .secondConstructor owner => s!"'{owner}' already has a constructor"
  | .sharedConstructorParameters => "A shared constructor cannot take parameters"
  | .parameterWithoutDefault parameter behaviour =>
    s!"Parameter '{parameter}' of the constructor of behaviour '{behaviour}' needs a default"
  | .attachedTwice name owner => s!"Behaviour '{name}' is already attached to '{owner}'"
  | .secondUpdateOrder owner => s!"'{owner}' already declares an update order"
  | .selfContract behaviour => s!"Behaviour '{behaviour}' cannot refer to itself"
  | .notInOwner what owner => s!"{what} is not allowed inside a {owner}"
  | .onlyDeclarations owner => s!"Only declarations are allowed inside a {owner}"
  | .extendsBehaviour name parent => s!"Class '{name}' cannot extend behaviour '{parent}'"
  | .unknownParent parent name => s!"Unknown parent class '{parent}' of '{name}'"
  | .inheritanceCycle name => s!"Inheritance cycle through '{name}'"
  | .unknownContract name behaviour => s!"Unknown behaviour '{name}' in '{behaviour}'"
  | .requiredAndExcluded behaviour name =>
    s!"Behaviour '{behaviour}' both requires and excludes '{name}'"
  | .attachedClass name => s!"'{name}' is a class, not a behaviour"
  | .unknownAttachment name => s!"Unknown behaviour '{name}'"
  | .attachedTwiceInHierarchy name owner =>
    s!"Behaviour '{name}' is attached more than once in the hierarchy of '{owner}'"
  | .missingRequirement name required owner =>
    s!"Behaviour '{name}' requires behaviour '{required}', which '{owner}' does not have"
  | .violatedExclusion name excluded owner =>
    s!"Behaviour '{name}' excludes behaviour '{excluded}', which '{owner}' has"

/-! ## Evaluation -/

inductive UndefinedName where
  | variableName (name : String)
  | plainName (name : String)
  | detachedBehaviour (name : String)
  | typeName (name : String)
  | propertyName (name : String)
  | missingBehaviour (name : String)
  | functionName (name : String)
  | className (name : String)
  | behaviourName (name : String)
  | argument (name : String)
  deriving DecidableEq, Repr, Inhabited

def UndefinedName.message : UndefinedName → String
  | .variableName name => s!"Unknown variable '{name}'"
  | .plainName name => s!"Unknown name '{name}'"
  | .detachedBehaviour name => s!"Behaviour '{name}' is not attached here"
  | .typeName name => s!"Unknown type '{name}'"
  | .propertyName name => s!"Unknown property '{name}'"
  | .missingBehaviour name => s!"Behaviour '{name}' is not attached"
  | .functionName name => s!"Unknown function '{name}'"
  | .className name => s!"Unknown class '{name}'"
  | .behaviourName name => s!"Unknown behaviour '{name}'"
  | .argument name => s!"Missing argument '{name}'"

inductive TypeFault where
  | notNumber (value : Constant)
  | notObject (value : Constant)
  | noMembers (value : Constant)
  | classAsValue (name : String)
  | newBehaviour (name : String)
  | binary (op : BinaryOp) (lhs rhs : Constant)
  | unary (op : UnaryOp) (operand : Constant)
  deriving DecidableEq, Inhabited

def TypeFault.message : TypeFault → String
  | .notNumber value => s!"Expected Number, got {value.describe}"
  | .notObject value => s!"Expected Object, got {value.describe}"
  | .noMembers value => s!"Cannot access members of {value.describe}"
  | .classAsValue name =>
    s!"Class '{name}' is not a value, use 'new {name}' or access its members"
  | .newBehaviour name => s!"Behaviour '{name}' cannot be created with 'new'"
  | .binary op lhs rhs => s!"Cannot apply '{op.text}' to {lhs.describe} and {rhs.describe}"
  | .unary op operand => s!"Cannot apply '{op.text}' to {operand.describe}"

inductive Callee where
  | function (qualifiedName : String)
  | constructor (className : String)
  | behaviourConstructor (name : String)
  deriving DecidableEq, Repr, Inhabited

def Callee.text : Callee → String
  | .function name => s!"'{name}'"
  | .constructor name => s!"constructor of '{name}'"
  | .behaviourConstructor name => s!"constructor of behaviour '{name}'"

inductive ArityFault where
  | tooMany (callee : Callee) (limit given : Nat)
  | missing (parameter : String) (callee : Callee)
  | noConstructor (className : String) (given : Nat)
  deriving DecidableEq, Repr, Inhabited

def ArityFault.message : ArityFault → String
  | .tooMany callee limit given =>
    s!"{callee.text} expects at most {limit} arguments, got {given}"
  | .missing parameter callee => s!"Missing argument '{parameter}' for {callee.text}"
  | .noConstructor name given =>
    s!"Class '{name}' has no constructor but was given {given} arguments"

inductive RuntimeFault where
  | emptyTokenStream (source : String)
  | notAFile
  | stackOverflow
  | zeroStep
  | missingNative (qualifiedName : String)
  | cannotWait (execution : String)
  | polledAfterCompletion
  /-- What a host function reports. -/
  | host (description : String)
  deriving DecidableEq, Repr, Inhabited

def RuntimeFault.message : RuntimeFault → String
  | .emptyTokenStream source => s!"{source}: empty token stream"
  | .notAFile => "Expected a file node"
  | .stackOverflow => "Stack overflow"
  | .zeroStep => "Step of a for loop cannot be zero"
  | .missingNative name => s!"Native function '{name}' is not provided by the host"
  | .cannotWait execution => s!"'{execution}' cannot wait for a frame or a resource here"
  | .polledAfterCompletion => "native task polled after completion"
  | .host description => description

/-- A state that the evaluation of a registered unit does not get into.  A machine that
is resumed after it has failed, or that runs statements which were never registered, can
report one. -/
inductive InternalFault where
  | resumedWithoutResult
  | controlFlowAsValue
  | jumpOutsideLoop
  | unresolvedTarget
  | invalidMember (what : String)
  | invalidAssignment
  | notABehaviour (value : Constant)
  | emptyHierarchy
  | nonFileInUnit
  deriving DecidableEq, Inhabited

def InternalFault.message : InternalFault → String
  | .resumedWithoutResult => "Evaluation resumed without a result"
  | .controlFlowAsValue => "Control flow statement used as a value"
  | .jumpOutsideLoop => "'break' or 'continue' outside of a loop"
  | .unresolvedTarget => "Member target was not resolved"
  | .invalidMember what => s!"Invalid member {what}"
  | .invalidAssignment => "Invalid assignment target"
  | .notABehaviour value => s!"Behaviour construction produced {value.describe}"
  | .emptyHierarchy => "Empty class hierarchy"
  | .nonFileInUnit => "Program contains a non-file node"

/-! ## Causes and errors -/

inductive Cause where
  | parse (message : String)
  | registration (fault : RegistrationFault)
  | undefinedName (name : UndefinedName)
  | type (fault : TypeFault)
  | divisionByZero
  | arity (fault : ArityFault)
  | runtime (fault : RuntimeFault)
  | internal (fault : InternalFault)
  deriving DecidableEq, Inhabited

namespace Cause

/-- The kind of the cause.  Internal faults are runtime errors to a host. -/
def kind : Cause → ErrorKind
  | .parse _ => .parse
  | .registration _ => .registration
  | .undefinedName _ => .undefinedName
  | .type _ => .type
  | .divisionByZero => .divisionByZero
  | .arity _ => .arity
  | .runtime _ | .internal _ => .runtime

def description : Cause → String
  | .parse message => message
  | .registration fault => fault.message
  | .undefinedName name => name.message
  | .type fault => fault.message
  | .divisionByZero => "Divide by zero"
  | .arity fault => fault.message
  | .runtime fault => fault.message
  | .internal fault => fault.message

end Cause

/-- A cause, the token that it points at, and the kind of node that was being
evaluated. -/
structure Error where
  cause : Cause
  token : Option Token := none
  node : Option String := none
  deriving DecidableEq, Inhabited

namespace Error

def atToken (cause : Cause) (token : Token) : Error := { cause, token := some token }

def registration (fault : RegistrationFault) (token : Token) : Error :=
  atToken (.registration fault) token

def undefinedName (name : UndefinedName) : Error := { cause := .undefinedName name }

def type (fault : TypeFault) : Error := { cause := .type fault }

def arity (fault : ArityFault) : Error := { cause := .arity fault }

def runtime (fault : RuntimeFault) : Error := { cause := .runtime fault }

def internal (fault : InternalFault) : Error := { cause := .internal fault }

/-- Point at `token`, unless the error points somewhere already. -/
def withToken (error : Error) (token : Token) : Error :=
  { error with token := error.token.or (some token) }

/-- Point at a node, given by its kind and token, unless the error points at one
already. -/
def atNode (error : Error) (node : String) (token : Token) : Error :=
  { error with node := error.node.or (some node) }.withToken token

/-- The message of the error: its place, if it has one, and its description. -/
def message (error : Error) : String :=
  match error.token with
  | some token => s!"{token.place}: {error.cause.description}"
  | none => error.cause.description

end Error

def Constant.asNumber (value : Constant) : Except Error Float :=
  match value with
  | .number float => .ok float
  | _ => .error (.type (.notNumber value))

def Constant.asObject (value : Constant) : Except Error ObjectRef :=
  match value with
  | .object ref => .ok ref
  | _ => .error (.type (.notObject value))

end StepScript
