import StepScript.Tree.Basic
import StepScript.Error
set_option autoImplicit false

/-!
# Statements in their places

Code that runs holds no declarations, and a jump stands inside a loop of the same
function.
-/

namespace StepScript

mutual

def Node.checkPlacement (inLoop : Bool) : Node → Except Error Unit
  | ⟨kind, token⟩ => kind.checkPlacement inLoop token

def NodeKind.checkPlacement (inLoop : Bool) (token : Token) : NodeKind → Except Error Unit
  | .breakLoop | .continueLoop =>
    if inLoop then .ok () else .error (.registration (.outsideLoop token.text) token)
  | .whileLoop _ body | .repeatLoop body _ | .forLoop _ _ _ _ body =>
    body.checkBlockPlacement true
  | .branch _ thenBranch none => thenBranch.checkBlockPlacement inLoop
  | .branch _ thenBranch (some elseBranch) =>
    match thenBranch.checkBlockPlacement inLoop with
    | .error error => .error error
    | .ok () => elseBranch.checkBlockPlacement inLoop
  | kind =>
    if kind.isDeclaration then .error (.registration (.notInBlock kind.name) token)
    else .ok ()

def Node.checkBlockPlacement (inLoop : Bool) : Node → Except Error Unit
  | ⟨.block statements, _⟩ => checkPlacements inLoop statements
  | ⟨kind, token⟩ => kind.checkPlacement inLoop token

def checkPlacements (inLoop : Bool) : List Node → Except Error Unit
  | [] => .ok ()
  | statement :: rest =>
    match statement.checkPlacement inLoop with
    | .error error => .error error
    | .ok () => checkPlacements inLoop rest

end

def checkFunctionBody (body : Option Node) : Except Error Unit :=
  match body with
  | some body => body.checkBlockPlacement false
  | none => .ok ()

end StepScript
