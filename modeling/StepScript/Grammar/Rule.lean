import StepScript.Grammar.Fault
import StepScript.Tree.Basic
set_option autoImplicit false

/-!
# Rules

A rule is a sequence of entries and a builder.  Each entry matches some tokens and
may capture what it matched in a slot; the builder makes a node of the captures.
-/

namespace StepScript.Grammar

inductive Slot where
  | name
  | parent
  | body
  | params
  | shared
  | initial
  | order
  | condition
  | thenBranch
  | elseBranch
  | first
  | last
  | step
  | value
  | target
  | args
  deriving DecidableEq, Repr, Inhabited

def Slot.text : Slot → String
  | .name => "name"
  | .parent => "parent"
  | .body => "body"
  | .params => "params"
  | .shared => "shared"
  | .initial => "default"
  | .order => "order"
  | .condition => "cond"
  | .thenBranch => "then"
  | .elseBranch => "else"
  | .first => "from"
  | .last => "to"
  | .step => "step"
  | .value => "value"
  | .target => "target"
  | .args => "args"

inductive Entry where
  /-- A token that reads exactly so. -/
  | word (text : String)
  /-- A token of a kind. -/
  | kind (kind : TokenKind)
  /-- A type name other than `True`, `False` and `None`. -/
  | typeName
  | identifier
  | expression
  | statement
  /-- Expressions between parentheses, with commas between them. -/
  | arguments
  /-- Names with optional initial values, with commas between them. -/
  | parameters
  /-- Entries that may be absent together. -/
  | optional (group : List (Option Slot × Entry))
  /-- Statements up to one of the words. -/
  | statements (terminators : List String)

abbrev Match : Type := Option Slot × Entry

inductive Capture where
  | text (value : String)
  | node (value : Node)
  | nodes (value : List Node)
  | params (value : List Parameter)
  | present

/-- The captures of a match, the latest first. -/
abbrev Captures : Type := List (Slot × Capture)

inductive Rejection where
  | unknownUpdateOrder (word : String)
  | cannotAssign (what : String)
  | elseWithoutBlock
  /-- The rule has no entry that captures into the slot. -/
  | unbound (slot : Slot)
  /-- The entry captures something else. -/
  | notText (slot : Slot)
  | notNode (slot : Slot)
  | notNodes (slot : Slot)
  | notParams (slot : Slot)
  deriving DecidableEq, Repr, Inhabited

def Rejection.message : Rejection → String
  | .unknownUpdateOrder word => UpdateOrder.unknownMessage word
  | .cannotAssign what => s!"cannot assign to {what}"
  | .elseWithoutBlock => "expected 'if ... then' block after 'else'"
  | .unbound slot => s!"rule did not bind '{slot.text}'"
  | .notText slot => s!"'{slot.text}' is not text"
  | .notNode slot => s!"'{slot.text}' is not a node"
  | .notNodes slot => s!"'{slot.text}' is not a node list"
  | .notParams slot => s!"'{slot.text}' is not a parameter list"

namespace Captures

def has (captures : Captures) (slot : Slot) : Bool := (captures.lookup slot).isSome

def text (captures : Captures) (slot : Slot) : Except Rejection String :=
  match captures.lookup slot with
  | some (.text value) => .ok value
  | some _ => .error (.notText slot)
  | none => .error (.unbound slot)

def node (captures : Captures) (slot : Slot) : Except Rejection Node :=
  match captures.lookup slot with
  | some (.node value) => .ok value
  | some _ => .error (.notNode slot)
  | none => .error (.unbound slot)

def node? (captures : Captures) (slot : Slot) : Except Rejection (Option Node) :=
  if captures.has slot then (captures.node slot).map some else .ok none

def text? (captures : Captures) (slot : Slot) : Except Rejection (Option String) :=
  if captures.has slot then (captures.text slot).map some else .ok none

def nodesOrNone (captures : Captures) (slot : Slot) : Except Rejection (List Node) :=
  match captures.lookup slot with
  | some (.nodes value) => .ok value
  | some _ => .error (.notNodes slot)
  | none => .ok []

def nodes (captures : Captures) (slot : Slot) : Except Rejection (List Node) :=
  if captures.has slot then captures.nodesOrNone slot else .error (.unbound slot)

def paramsOrNone (captures : Captures) (slot : Slot) : Except Rejection (List Parameter) :=
  match captures.lookup slot with
  | some (.params value) => .ok value
  | some _ => .error (.notParams slot)
  | none => .ok []

end Captures

/-- A rule: what it is called, what it matches, and the node it makes of the captures
and the first token of the match. -/
structure Rule where
  name : String
  entries : List Match
  build : Captures → Token → Except Rejection Node

end StepScript.Grammar
