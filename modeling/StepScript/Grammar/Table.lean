import StepScript.Grammar.Rule
set_option autoImplicit false

/-!
# The rules of the language

The statements and the expressions with a head word, as two tables of rules.  The
first rule of a table that matches decides.
-/

namespace StepScript.Grammar

/-! ## Entries -/

def word (text : String) : Match := (none, .word text)

def lineEnd : Match := (none, .kind .endOfLine)

def capture (slot : Slot) (entry : Entry) : Match := (some slot, entry)

def optionally (group : List Match) : Match := (none, .optional group)

def sharedFlag : Match := (some .shared, .optional [word "shared"])

def expression (slot : Slot) : Match := capture slot .expression

def body (slot : Slot) (terminators : List String) : Match :=
  capture slot (.statements terminators)

def parameterList : Match :=
  optionally [word "(", capture .params .parameters, word ")"]

/-! ## Builders -/

def made (token : Token) (kind : NodeKind) : Except Rejection Node := .ok ⟨kind, token⟩

def buildClass (c : Captures) (token : Token) : Except Rejection Node := do
  made token (.classDecl (← c.text .name) (← c.text? .parent) (← c.node .body))

def buildBehaviour (c : Captures) (token : Token) : Except Rejection Node := do
  made token (.behaviourDecl (← c.text .name) (← c.node .body))

def buildFunction (c : Captures) (token : Token) : Except Rejection Node := do
  made token (.functionDecl (← c.text .name) (← c.paramsOrNone .params)
    (some (← c.node .body)) (c.has .shared) false)

def buildNative (c : Captures) (token : Token) : Except Rejection Node := do
  made token (.functionDecl (← c.text .name) (← c.paramsOrNone .params) none
    (c.has .shared) true)

def buildConstructor (c : Captures) (token : Token) : Except Rejection Node := do
  made token (.constructorDecl (← c.paramsOrNone .params) (← c.node .body) (c.has .shared))

def buildProperty (c : Captures) (token : Token) : Except Rejection Node := do
  made token (.propertyDecl (← c.text .name) (← c.node? .initial) (c.has .shared))

def buildContract (contract : Contract) (c : Captures) (token : Token) :
    Except Rejection Node := do
  made token (.contract contract (← c.text .name))

def buildUpdateOrder (c : Captures) (token : Token) : Except Rejection Node := do
  let word ← c.text .order
  match UpdateOrder.ofText? word with
  | some order => made token (.updateOrder order)
  | none => .error (.unknownUpdateOrder word)

def buildBranch (c : Captures) (token : Token) : Except Rejection Node := do
  made token (.branch (← c.node .condition) (← c.node .thenBranch) (← c.node? .elseBranch))

def isBlockBranch (node : Node) : Bool :=
  match node.kind with
  | .branch _ thenBranch _ =>
    match thenBranch.kind with
    | .block _ => true
    | _ => false
  | _ => false

/-- The node of a branch with a further branch behind `else`; the `end` of the further
branch closes both. -/
def buildBranchChain (c : Captures) (token : Token) : Except Rejection Node := do
  let nested ← c.node .elseBranch
  if isBlockBranch nested then
    made token (.branch (← c.node .condition) (← c.node .thenBranch) (some nested))
  else .error .elseWithoutBlock

def isAssignable (node : Node) : Bool :=
  match node.kind with
  | .literal (.identifier _) => true
  | .member _ member =>
    match member.kind with
    | .literal (.identifier _) => true
    | _ => false
  | _ => false

def buildAssign (c : Captures) (token : Token) : Except Rejection Node := do
  let target ← c.node .target
  if isAssignable target then made token (.assign target (← c.node .value))
  else .error (.cannotAssign target.kind.name)

def buildFor (c : Captures) (token : Token) : Except Rejection Node := do
  made token (.forLoop (← c.text .name) (← c.node .first) (← c.node .last)
    (← c.node? .step) (← c.node .body))

/-! ## Rules -/

def classRule : Rule where
  name := "class"
  entries := [word "class", capture .name .typeName,
    optionally [word "of", word "type", capture .parent .typeName],
    lineEnd, body .body ["end"], word "end"]
  build := buildClass

def behaviourRule : Rule where
  name := "behaviour"
  entries := [word "behaviour", capture .name .typeName, lineEnd, body .body ["end"],
    word "end"]
  build := buildBehaviour

def functionRule : Rule where
  name := "function"
  entries := [sharedFlag, word "function", capture .name .identifier, parameterList,
    lineEnd, body .body ["end"], word "end"]
  build := buildFunction

def nativeRule : Rule where
  name := "native function"
  entries := [sharedFlag, word "native", word "function", capture .name .identifier,
    parameterList]
  build := buildNative

def constructorRule : Rule where
  name := "constructor"
  entries := [sharedFlag, word "constructor", parameterList, lineEnd, body .body ["end"],
    word "end"]
  build := buildConstructor

def propertyRule : Rule where
  name := "property"
  entries := [sharedFlag, word "property", capture .name .identifier,
    optionally [word "=", expression .initial]]
  build := buildProperty

def hasBehaviourRule : Rule where
  name := "has behaviour"
  entries := [word "has", word "behaviour", capture .name .typeName]
  build := fun c token => do made token (.hasBehaviour (← c.text .name))

def contractRule (contract : Contract) : Rule where
  name := contract.text
  entries := [word contract.text, word "behaviour", capture .name .typeName]
  build := buildContract contract

def updateOrderRule : Rule where
  name := "update order"
  entries := [word "update", word "order", capture .order .identifier]
  build := buildUpdateOrder

def branchBlockRule : Rule where
  name := "if block"
  entries := [word "if", expression .condition, word "then", lineEnd,
    body .thenBranch ["else", "end"],
    optionally [word "else", lineEnd, body .elseBranch ["end"]], word "end"]
  build := buildBranch

def branchChainRule : Rule where
  name := "if else chain"
  entries := [word "if", expression .condition, word "then", lineEnd,
    body .thenBranch ["else", "end"], word "else", capture .elseBranch .statement]
  build := buildBranchChain

def branchLineRule : Rule where
  name := "if line"
  entries := [word "if", expression .condition, word "then",
    capture .thenBranch .statement,
    optionally [word "else", capture .elseBranch .statement]]
  build := buildBranch

def whileRule : Rule where
  name := "while"
  entries := [word "while", expression .condition, word "do", lineEnd,
    body .body ["end"], word "end"]
  build := fun c token => do
    made token (.whileLoop (← c.node .condition) (← c.node .body))

def repeatRule : Rule where
  name := "repeat"
  entries := [word "repeat", lineEnd, body .body ["until"], word "until",
    expression .condition]
  build := fun c token => do
    made token (.repeatLoop (← c.node .body) (← c.node .condition))

def forRule : Rule where
  name := "for"
  entries := [word "for", capture .name .identifier, word "from", expression .first,
    word "to", expression .last, optionally [word "step", word "by", expression .step],
    word "do", lineEnd, body .body ["end"], word "end"]
  build := buildFor

def returnRule : Rule where
  name := "return"
  entries := [word "return", optionally [expression .value]]
  build := fun c token => do made token (.giveBack (← c.node? .value))

def breakRule : Rule where
  name := "break"
  entries := [word "break"]
  build := fun _ token => made token .breakLoop

def continueRule : Rule where
  name := "continue"
  entries := [word "continue"]
  build := fun _ token => made token .continueLoop

def waitRule : Rule where
  name := "wait for update"
  entries := [word "wait", word "for", word "update"]
  build := fun _ token => made token .waitForUpdate

def assignmentRule : Rule where
  name := "assignment"
  entries := [expression .target, (none, .kind .assign), expression .value]
  build := buildAssign

def expressionRule : Rule where
  name := "expression"
  entries := [expression .value]
  build := fun c _ => c.node .value

def createRule : Rule where
  name := "new"
  entries := [word "new", capture .name .typeName, optionally [capture .args .arguments]]
  build := fun c token => do
    made token (.create (← c.text .name) (← c.nodesOrNone .args))

def callRule : Rule where
  name := "call"
  entries := [capture .name .identifier, capture .args .arguments]
  build := fun c token => do made token (.call (← c.text .name) (← c.nodes .args))

/-! ## Tables -/

/-- The rules of statements, in the order in which they are tried. -/
def statementRules : List Rule :=
  [classRule, behaviourRule, functionRule, nativeRule, constructorRule, propertyRule,
   hasBehaviourRule, contractRule .requires, contractRule .supports, contractRule .excludes,
   updateOrderRule, branchBlockRule, branchChainRule, branchLineRule, whileRule, repeatRule,
   forRule, returnRule, breakRule, continueRule, waitRule, assignmentRule, expressionRule]

/-- The rules of expressions without an operator outside of parentheses, in the order
in which they are tried. -/
def expressionRules : List Rule := [createRule, callRule]

end StepScript.Grammar
