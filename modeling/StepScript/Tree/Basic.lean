import StepScript.Constant
import StepScript.Operation
set_option autoImplicit false

/-!
# Trees

The tree of a source file.  Each node has the token that messages about it point at:
the first token of the construct, or the operator of an operation.
-/

namespace StepScript

inductive UpdateOrder where
  | pre
  | normal
  | post
  deriving DecidableEq, Repr, Inhabited

namespace UpdateOrder

def all : List UpdateOrder := [.pre, .normal, .post]

def text : UpdateOrder → String
  | .pre => "pre"
  | .normal => "normal"
  | .post => "post"

def ofText? : String → Option UpdateOrder
  | "pre" => some .pre
  | "normal" => some .normal
  | "post" => some .post
  | _ => none

def unknownMessage (word : String) : String :=
  s!"Unknown update order '{word}', expected pre, normal or post"

end UpdateOrder

inductive Contract where
  | requires
  | supports
  | excludes
  deriving DecidableEq, Repr, Inhabited

def Contract.text : Contract → String
  | .requires => "requires"
  | .supports => "supports"
  | .excludes => "excludes"

mutual

/-- A node of a tree: what it is, and the token that messages point at. -/
structure Node where
  kind : NodeKind
  token : Token

inductive NodeKind where
  /-- A constant, or an identifier to look up. -/
  | literal (value : Constant)
  /-- A bare type name: an attached behaviour or a class. -/
  | typeName (name : String)
  | unary (op : UnaryOp) (operand : Node)
  | binary (op : BinaryOp) (lhs rhs : Node)
  /-- `target.member`; the member is an identifier, a type name or a call. -/
  | member (target member : Node)
  | call (name : String) (args : List Node)
  /-- `new` with a class and arguments. -/
  | create (className : String) (args : List Node)
  | block (statements : List Node)
  | assign (target value : Node)
  | branch (condition thenBranch : Node) (elseBranch : Option Node)
  | whileLoop (condition body : Node)
  | repeatLoop (body condition : Node)
  | forLoop (var : String) (first last : Node) (step : Option Node) (body : Node)
  | giveBack (value : Option Node)
  | breakLoop
  | continueLoop
  | waitForUpdate
  | classDecl (name : String) (parent : Option String) (body : Node)
  | behaviourDecl (name : String) (body : Node)
  /-- A function; a native one has no body. -/
  | functionDecl (name : String) (params : List Parameter) (body : Option Node)
      (shared native : Bool)
  | constructorDecl (params : List Parameter) (body : Node) (shared : Bool)
  | propertyDecl (name : String) (initial : Option Node) (shared : Bool)
  | hasBehaviour (name : String)
  | contract (contract : Contract) (name : String)
  | updateOrder (order : UpdateOrder)
  | file (name : String) (body : List Node)

structure Parameter where
  name : String
  initial : Option Node

end

instance : Inhabited Node := ⟨⟨.breakLoop, default⟩⟩

instance : Inhabited Parameter := ⟨⟨"", none⟩⟩

def NodeKind.name : NodeKind → String
  | .literal (.identifier _) => "variable"
  | .literal _ => "literal"
  | .typeName _ => "type name"
  | .unary .. => "unary operation"
  | .binary .. => "binary operation"
  | .member .. => "member access"
  | .call .. => "function call"
  | .create .. => "object creation"
  | .block _ => "block"
  | .assign .. => "assignment"
  | .branch .. => "if"
  | .whileLoop .. => "while loop"
  | .repeatLoop .. => "repeat loop"
  | .forLoop .. => "for loop"
  | .giveBack _ => "return"
  | .breakLoop => "break"
  | .continueLoop => "continue"
  | .waitForUpdate => "wait for update"
  | .classDecl .. => "class declaration"
  | .behaviourDecl .. => "behaviour declaration"
  | .functionDecl .. => "function declaration"
  | .constructorDecl .. => "constructor declaration"
  | .propertyDecl .. => "property declaration"
  | .hasBehaviour _ => "behaviour attachment"
  | .contract .. => "behaviour contract"
  | .updateOrder _ => "update order"
  | .file .. => "file"

/-- The kind declares something, so that registration takes it and evaluation passes
over it. -/
def NodeKind.isDeclaration : NodeKind → Bool
  | .classDecl .. | .behaviourDecl .. | .functionDecl .. | .constructorDecl ..
  | .propertyDecl .. | .hasBehaviour _ | .contract .. | .updateOrder _ => true
  | _ => false

/-- The statements of a body: those of a block, or the one statement that stands in
place of a block. -/
def Node.statements (node : Node) : List Node :=
  match node.kind with
  | .block statements => statements
  | _ => [node]

end StepScript
