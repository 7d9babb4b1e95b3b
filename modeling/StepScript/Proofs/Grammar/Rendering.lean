import StepScript.Proofs.Grammar.Derivation
set_option autoImplicit false

/-!
# The rendering of trees

Every tree has one rendering: a statement per line, a branch in one line or in several as its
parts tell, literals as their tokens spell them, and parentheses around an operand that binds
looser than its operator allows.  The tokens of other nodes play no part in it.

`Node.bare` is the rendering without these parentheses, and `Node.erase` is the tree without
the places of its tokens.
-/

namespace StepScript

open Symbol (keyword identifier leftParen rightParen comma assign dot lineEnd fileEnd)

/-! ## Priorities -/

/-- How tightly the operator of an operation binds. -/
def BinaryOp.priority (op : BinaryOp) : Nat := op.kind.binaryPriority?.getD 0

/-- How tightly the operator in front of its operand binds. -/
def UnaryOp.priority (op : UnaryOp) : Nat := op.kind.unaryPriority?.getD 0

/-- How tightly a point binds. -/
def memberPriority : Nat := 100

/-- How tightly what has no operator binds: tighter than every operator. -/
def leafPriority : Nat := 200

/-- How tightly the loosest operator of an expression binds. -/
def Node.priority (node : Node) : Nat :=
  match node.kind with
  | .unary op _ => op.priority
  | .binary op _ _ => op.priority
  | .member _ _ => memberPriority
  | _ => leafPriority

/-- The node is a block of statements. -/
def Node.isBlock (node : Node) : Bool :=
  match node.kind with
  | .block _ => true
  | _ => false

/-! ## Renderings -/

/-- Symbols in parentheses. -/
def parenthesised (symbols : List Symbol) : List Symbol := leftParen :: (symbols ++ [rightParen])

/-- An operand, which is grouped if it has to be. -/
def operand (group : List Symbol → List Symbol) (grouped : Bool) (symbols : List Symbol) :
    List Symbol :=
  if grouped then group symbols else symbols

/-- Parameters or arguments in their parentheses, or nothing at all. -/
def listed {α : Type} (items : List α) (symbols : List Symbol) : List Symbol :=
  if items.isEmpty then [] else parenthesised symbols

mutual

/-- The symbols of a node, where `group` shows that symbols belong together. -/
def Node.rendering (group : List Symbol → List Symbol) : Node → List Symbol
  | ⟨kind, token⟩ => kind.rendering group token

/-- The symbols of what a node is. -/
def NodeKind.rendering (group : List Symbol → List Symbol) (token : Token) :
    NodeKind → List Symbol
  | .literal _ | .typeName _ => [token.symbol]
  | .unary op argument =>
    op.symbol :: operand group (argument.priority < op.priority) (argument.rendering group)
  | .binary op lhs rhs =>
    operand group (lhs.priority < op.priority) (lhs.rendering group)
      ++ op.symbol :: operand group (rhs.priority ≤ op.priority) (rhs.rendering group)
  | .member target member =>
    operand group (target.priority < memberPriority) (target.rendering group)
      ++ dot :: member.rendering group
  | .call name args => identifier name :: parenthesised (argumentsRendering group args)
  | .create name args =>
    keyword "new" :: .typeName name :: listed args (argumentsRendering group args)
  | .block statements => linesRendering group statements
  | .assign target value => target.rendering group ++ assign :: value.rendering group
  | .branch condition thenBranch none =>
    if thenBranch.isBlock then
      keyword "if" :: (condition.rendering group ++ keyword "then" :: lineEnd
        :: (thenBranch.rendering group ++ [keyword "end"]))
    else
      keyword "if" :: (condition.rendering group ++ keyword "then" :: thenBranch.rendering group)
  | .branch condition thenBranch (some elseBranch) =>
    if thenBranch.isBlock then
      keyword "if" :: (condition.rendering group ++ keyword "then" :: lineEnd
        :: (thenBranch.rendering group ++ keyword "else" :: (if elseBranch.isBlock then
                lineEnd :: (elseBranch.rendering group ++ [keyword "end"])
              else elseBranch.rendering group)))
    else
      keyword "if" :: (condition.rendering group ++ keyword "then"
        :: (thenBranch.rendering group ++ keyword "else" :: elseBranch.rendering group))
  | .whileLoop condition body =>
    keyword "while" :: (condition.rendering group ++ keyword "do" :: lineEnd
      :: (body.rendering group ++ [keyword "end"]))
  | .repeatLoop body condition =>
    keyword "repeat" :: lineEnd
      :: (body.rendering group ++ keyword "until" :: condition.rendering group)
  | .forLoop var first last none body =>
    keyword "for" :: identifier var :: keyword "from" :: (first.rendering group
      ++ keyword "to" :: (last.rendering group
        ++ keyword "do" :: lineEnd :: (body.rendering group ++ [keyword "end"])))
  | .forLoop var first last (some step) body =>
    keyword "for" :: identifier var :: keyword "from" :: (first.rendering group
      ++ keyword "to" :: (last.rendering group
        ++ keyword "step" :: keyword "by" :: (step.rendering group
          ++ keyword "do" :: lineEnd :: (body.rendering group ++ [keyword "end"]))))
  | .giveBack none => [keyword "return"]
  | .giveBack (some value) => keyword "return" :: value.rendering group
  | .breakLoop => [keyword "break"]
  | .continueLoop => [keyword "continue"]
  | .waitForUpdate => [keyword "wait", keyword "for", identifier "update"]
  | .classDecl name parent body =>
    keyword "class" :: .typeName name :: (Grammar.parentClause parent
      ++ lineEnd :: (body.rendering group ++ [keyword "end"]))
  | .behaviourDecl name body =>
    keyword "behaviour" :: .typeName name :: lineEnd :: (body.rendering group ++ [keyword "end"])
  | .functionDecl name params (some body) shared _ =>
    Grammar.sharedMark shared ++ keyword "function" :: identifier name
      :: (listed params (parametersRendering group params)
        ++ lineEnd :: (body.rendering group ++ [keyword "end"]))
  | .functionDecl name params none shared _ =>
    Grammar.sharedMark shared ++ keyword "native" :: keyword "function" :: identifier name
      :: listed params (parametersRendering group params)
  | .constructorDecl params body shared =>
    Grammar.sharedMark shared ++ keyword "constructor"
      :: (listed params (parametersRendering group params)
        ++ lineEnd :: (body.rendering group ++ [keyword "end"]))
  | .propertyDecl name none shared =>
    Grammar.sharedMark shared ++ [keyword "property", identifier name]
  | .propertyDecl name (some initial) shared =>
    Grammar.sharedMark shared ++ keyword "property" :: identifier name :: assign
      :: initial.rendering group
  | .hasBehaviour name => [keyword "has", keyword "behaviour", .typeName name]
  | .contract contract name => [keyword contract.text, keyword "behaviour", .typeName name]
  | .updateOrder order => [identifier "update", identifier "order", identifier order.text]
  | .file _ body => linesRendering group body ++ [fileEnd]

/-- Expressions with commas between them. -/
def argumentsRendering (group : List Symbol → List Symbol) : List Node → List Symbol
  | [] => []
  | [arg] => arg.rendering group
  | arg :: args => arg.rendering group ++ comma :: argumentsRendering group args

/-- Parameters with commas between them. -/
def parametersRendering (group : List Symbol → List Symbol) : List Parameter → List Symbol
  | [] => []
  | [param] => param.rendering group
  | param :: params => param.rendering group ++ comma :: parametersRendering group params

/-- A parameter and its initial value, if it has one. -/
def Parameter.rendering (group : List Symbol → List Symbol) : Parameter → List Symbol
  | ⟨name, none⟩ => [identifier name]
  | ⟨name, some initial⟩ => identifier name :: assign :: initial.rendering group

/-- Statements, each with the end of its line. -/
def linesRendering (group : List Symbol → List Symbol) : List Node → List Symbol
  | [] => []
  | node :: nodes => node.rendering group ++ lineEnd :: linesRendering group nodes

end

/-- The rendering of a tree. -/
def Node.canonical (node : Node) : List Symbol := node.rendering parenthesised

/-- The rendering without grouping parentheses. -/
def Node.bare (node : Node) : List Symbol := node.rendering id

section Branches

variable {group : List Symbol → List Symbol} {condition thenBranch elseBranch : Node}
  {nodes : List Node} {start token : Token}

/-- A branch with a further branch behind `else`. -/
theorem rendering_chain (h : elseBranch.isBlock = false) :
    Node.rendering group ⟨.branch condition ⟨.block nodes, start⟩ (some elseBranch), token⟩
      = keyword "if" :: (condition.rendering group ++ keyword "then" :: lineEnd
        :: (linesRendering group nodes ++ keyword "else" :: elseBranch.rendering group)) := by
  have hb : (⟨.block nodes, start⟩ : Node).isBlock = true := rfl
  simp [Node.rendering, NodeKind.rendering, hb, h]

/-- A branch in one line. -/
theorem rendering_line (h : thenBranch.isBlock = false) :
    Node.rendering group ⟨.branch condition thenBranch none, token⟩ = keyword "if"
        :: (condition.rendering group ++ keyword "then" :: thenBranch.rendering group) := by
  simp [Node.rendering, NodeKind.rendering, h]

theorem rendering_lineElse (h : thenBranch.isBlock = false) :
    Node.rendering group ⟨.branch condition thenBranch (some elseBranch), token⟩
      = keyword "if" :: (condition.rendering group ++ keyword "then"
        :: (thenBranch.rendering group ++ keyword "else" :: elseBranch.rendering group)) := by
  simp [Node.rendering, NodeKind.rendering, h]

end Branches

/-! ## Trees without places -/

/-- The token without its place. -/
def Token.placeless (token : Token) : Token :=
  { (default : Token) with kind := token.kind, text := token.text }

mutual

/-- The node without the places of tokens: a leaf keeps kind and text of its token, and other
nodes have no token of their own. -/
def Node.erase : Node → Node
  | ⟨.literal value, token⟩ => ⟨.literal value, token.placeless⟩
  | ⟨.typeName name, token⟩ => ⟨.typeName name, token.placeless⟩
  | ⟨kind, _⟩ => ⟨kind.erase, default⟩

/-- What a node is, without the places of tokens. -/
def NodeKind.erase : NodeKind → NodeKind
  | .literal value => .literal value
  | .typeName name => .typeName name
  | .unary op argument => .unary op argument.erase
  | .binary op lhs rhs => .binary op lhs.erase rhs.erase
  | .member target member => .member target.erase member.erase
  | .call name args => .call name (eraseAll args)
  | .create name args => .create name (eraseAll args)
  | .block statements => .block (eraseAll statements)
  | .assign target value => .assign target.erase value.erase
  | .branch condition thenBranch none => .branch condition.erase thenBranch.erase none
  | .branch condition thenBranch (some elseBranch) =>
    .branch condition.erase thenBranch.erase (some elseBranch.erase)
  | .whileLoop condition body => .whileLoop condition.erase body.erase
  | .repeatLoop body condition => .repeatLoop body.erase condition.erase
  | .forLoop var first last none body => .forLoop var first.erase last.erase none body.erase
  | .forLoop var first last (some step) body =>
    .forLoop var first.erase last.erase (some step.erase) body.erase
  | .giveBack none => .giveBack none
  | .giveBack (some value) => .giveBack (some value.erase)
  | .breakLoop => .breakLoop
  | .continueLoop => .continueLoop
  | .waitForUpdate => .waitForUpdate
  | .classDecl name parent body => .classDecl name parent body.erase
  | .behaviourDecl name body => .behaviourDecl name body.erase
  | .functionDecl name params none shared native =>
    .functionDecl name (eraseParameters params) none shared native
  | .functionDecl name params (some body) shared native =>
    .functionDecl name (eraseParameters params) (some body.erase) shared native
  | .constructorDecl params body shared =>
    .constructorDecl (eraseParameters params) body.erase shared
  | .propertyDecl name none shared => .propertyDecl name none shared
  | .propertyDecl name (some initial) shared => .propertyDecl name (some initial.erase) shared
  | .hasBehaviour name => .hasBehaviour name
  | .contract contract name => .contract contract name
  | .updateOrder order => .updateOrder order
  | .file name body => .file name (eraseAll body)

def eraseAll : List Node → List Node
  | [] => []
  | node :: nodes => node.erase :: eraseAll nodes

def eraseParameters : List Parameter → List Parameter
  | [] => []
  | ⟨name, none⟩ :: params => ⟨name, none⟩ :: eraseParameters params
  | ⟨name, some initial⟩ :: params => ⟨name, some initial.erase⟩ :: eraseParameters params

end

@[simp] theorem Node.erase_file (name : String) (nodes : List Node) (token : Token) :
    Node.erase ⟨.file name nodes, token⟩ = ⟨.file name (eraseAll nodes), default⟩ := by
  simp [Node.erase, NodeKind.erase]

theorem Node.kind_erase (node : Node) : node.erase.kind = node.kind.erase := by
  obtain ⟨kind, token⟩ := node
  cases kind <;> rfl

section Optional

variable (name : String) (first second : Node) (value : Option Node) (params : List Parameter)
  (shared native : Bool)

@[simp] theorem NodeKind.erase_branch : (NodeKind.branch first second value).erase
    = .branch first.erase second.erase (value.map Node.erase) := by
  cases value <;> rfl

@[simp] theorem NodeKind.erase_forLoop (body : Node) :
    (NodeKind.forLoop name first second value body).erase
      = .forLoop name first.erase second.erase (value.map Node.erase) body.erase := by
  cases value <;> rfl

@[simp] theorem NodeKind.erase_giveBack : (NodeKind.giveBack value).erase
    = .giveBack (value.map Node.erase) := by
  cases value <;> rfl

@[simp] theorem NodeKind.erase_functionDecl :
    (NodeKind.functionDecl name params value shared native).erase
      = .functionDecl name (eraseParameters params) (value.map Node.erase) shared native := by
  cases value <;> rfl

@[simp] theorem NodeKind.erase_propertyDecl :
    (NodeKind.propertyDecl name value shared).erase
      = .propertyDecl name (value.map Node.erase) shared := by
  cases value <;> rfl

end Optional

theorem Node.isBlock_erase (node : Node) : node.erase.isBlock = node.isBlock := by
  unfold Node.isBlock
  rw [Node.kind_erase]
  cases node.kind <;> first | rfl | simp

/-! ## Renderings can be read -/

namespace Grammar

/-- The symbols of a phrase. -/
def Phrase.rendering (group : List Symbol → List Symbol) : Phrase → List Symbol
  | .expression node | .statement node => node.rendering group
  | .arguments nodes | .argumentList nodes => argumentsRendering group nodes
  | .parameter param => param.rendering group
  | .parameters params => parametersRendering group params
  | .parameterList params => listed params (parametersRendering group params)
  | .clause _ none => []
  | .clause lead (some node) => lead ++ node.rendering group
  | .lines nodes => linesRendering group nodes

theorem reads_operand {node : Node} {list : List Symbol} (h : Reads (.expression node) list)
    (grouped : Bool) : Reads (.expression node) (operand parenthesised grouped list) := by
  cases grouped with
  | true => exact .group h
  | false => exact h

/-- The phrase is a block that stands for an expression or a statement. -/
def Phrase.isBlock : Phrase → Bool
  | .expression node | .statement node => node.isBlock
  | _ => false

/-- No expression and no statement is a block. -/
theorem Reads.isBlock_eq_false {phrase : Phrase} {list : List Symbol} (h : Reads phrase list) :
    phrase.isBlock = false := by
  induction h with
  | leaf _ made => rcases leaf_node made with ⟨constant, rfl⟩ | ⟨name, rfl⟩ <;> rfl
  | group _ ih => exact ih
  | evaluate _ ih => exact ih
  | _ => rfl

theorem isBlock_of_isBlockBranch {node : Node} (h : isBlockBranch node = true) :
    node.isBlock = false := by
  obtain ⟨kind, token⟩ := node
  cases kind <;> first | rfl | cases h

/-- What has parameters is not empty. -/
theorem Reads.exists_parameter {params : List Parameter} {list : List Symbol}
    (h : Reads (.parameters params) list) : ∃ first rest, params = first :: rest := by
  cases h with
  | lastParameter => exact ⟨_, _, rfl⟩
  | nextParameter => exact ⟨_, _, rfl⟩

/-- What has arguments is not empty. -/
theorem Reads.exists_argument {args : List Node} {list : List Symbol}
    (h : Reads (.arguments args) list) : ∃ first rest, args = first :: rest := by
  cases h with
  | lastArgument => exact ⟨_, _, rfl⟩
  | nextArgument => exact ⟨_, _, rfl⟩

theorem lexical_symbol (op : BinaryOp) : op.symbol.Lexical := by
  have hs : op.symbol = .word op.text := by cases op <;> decide
  rw [hs]
  exact .ofWord op.text

theorem canonical_symbol (op : BinaryOp) : op.symbol.canonical = op.symbol := by
  cases op <;> decide

/-- What can be read at all can be read off its rendering. -/
theorem Reads.rendering {phrase : Phrase} {list : List Symbol} (h : Reads phrase list) :
    Reads phrase (phrase.rendering parenthesised) := by
  induction h with
  | leaf lexical made =>
    rcases leaf_node made with ⟨constant, rfl⟩ | ⟨name, rfl⟩ <;> exact .leaf lexical made
  | group _ ih => exact ih
  | unary token _ ih => exact .unary token (reads_operand ih _)
  | @binary op _ _ _ _ _ token _ _ _ _ ihFirst ihSecond =>
    exact .binary token (lexical_symbol op) (canonical_symbol op) (reads_operand ihFirst _)
      (reads_operand ihSecond _)
  | member token fits _ _ ihFirst ihSecond =>
    exact .member token fits (reads_operand ihFirst _) ihSecond
  | call token named _ ih => exact .call token named ih
  | create token named => exact .create token named
  | @createWith name args _ token named _ ih =>
    cases args with
    | nil => exact .create token named
    | cons arg args => exact .createWith token named ih
  | noArguments => exact .noArguments
  | someArguments _ ih => exact .someArguments ih
  | lastArgument _ ih => exact .lastArgument ih
  | nextArgument _ tail ihHead ihTail =>
    obtain ⟨first, rest, rfl⟩ := tail.exists_argument
    exact .nextArgument ihHead ihTail
  | @parameter name initial _ named _ ih =>
    cases initial with
    | none => exact .parameter named (.noClause _)
    | some initial => exact .parameter named ih
  | lastParameter _ ih => exact .lastParameter ih
  | nextParameter _ tail ihHead ihTail =>
    obtain ⟨first, rest, rfl⟩ := tail.exists_parameter
    exact .nextParameter ihHead ihTail
  | noParameters => exact .noParameters
  | emptyParameters => exact .noParameters
  | someParameters distinct inner ih =>
    obtain ⟨first, rest, rfl⟩ := inner.exists_parameter
    exact .someParameters distinct ih
  | noClause lead => exact .noClause lead
  | someClause _ ih => exact .someClause ih
  | classDecl token start named extending _ ih => exact .classDecl token start named extending ih
  | behaviourDecl token start named _ ih => exact .behaviourDecl token start named ih
  | functionDecl shared token start named _ _ ihList ihBody =>
    exact .functionDecl shared token start named ihList ihBody
  | nativeDecl shared token named _ ih => exact .nativeDecl shared token named ih
  | constructorDecl shared token start _ _ ihList ihBody =>
    exact .constructorDecl shared token start ihList ihBody
  | @propertyDecl name initial _ shared token named _ ih =>
    cases initial with
    | none => exact .propertyDecl shared token named (.noClause _)
    | some initial => exact .propertyDecl shared token named ih
  | hasBehaviour token named => exact .hasBehaviour token named
  | contract contract token named => exact .contract contract token named
  | updateOrder order token => exact .updateOrder order token
  | branchBlock token start _ _ ihTest ihBody => exact .branchBlock token start ihTest ihBody
  | branchBlockElse token start middle _ _ _ ihTest ihBody ihOther =>
    exact .branchBlockElse token start middle ihTest ihBody ihOther
  | branchChain token start chained _ _ _ ihTest ihBody ihOther =>
    rw [Phrase.rendering, rendering_chain (isBlock_of_isBlockBranch chained)]
    exact .branchChain token start chained ihTest ihBody ihOther
  | branchLine token _ body ihTest ihBody =>
    rw [Phrase.rendering, rendering_line body.isBlock_eq_false]
    exact .branchLine token ihTest ihBody
  | branchLineElse token closed _ body _ ihTest ihBody ihOther =>
    rw [Phrase.rendering, rendering_lineElse body.isBlock_eq_false]
    exact .branchLineElse token closed ihTest ihBody ihOther
  | whileLoop token start _ _ ihTest ihBody => exact .whileLoop token start ihTest ihBody
  | repeatLoop token start _ _ ihBody ihTest => exact .repeatLoop token start ihBody ihTest
  | @forLoop var first last step _ _ _ _ _ token start named _ _ _ _ ihFirst ihLast ihStep ihBody =>
    cases step with
    | none => exact .forLoop token start named ihFirst ihLast (.noClause _) ihBody
    | some step => exact .forLoop token start named ihFirst ihLast ihStep ihBody
  | @giveBack value _ token _ ih =>
    cases value with
    | none => exact .giveBack token (.noClause _)
    | some value => exact .giveBack token ih
  | breakLoop token => exact .breakLoop token
  | continueLoop token => exact .continueLoop token
  | waitForUpdate token => exact .waitForUpdate token
  | assign token fits _ _ ihFirst ihSecond => exact .assign token fits ihFirst ihSecond
  | evaluate _ ih => exact .evaluate ih
  | noLines => exact .noLines
  | blankLine _ ih => exact ih
  | line _ _ ihHead ihTail => exact .line ihHead ihTail

end Grammar

end StepScript
