import StepScript.Proofs.Grammar.Symbol
set_option autoImplicit false

/-!
# Derivations

The language as a relation between trees and symbols, without positions, depths and the
order of alternatives: `Reads phrase symbols` says that the symbols can be read as the
phrase.  Operators may bind in any way here.  The tokens of inner nodes are free, since
they only say where messages point at; a leaf has the token that it was read from.
-/

namespace StepScript

namespace Symbol

/-- A keyword. -/
def keyword (text : String) : Symbol := ⟨.keyword, text⟩

/-- An identifier. -/
def identifier (name : String) : Symbol := ⟨.identifier, name⟩

/-- A type name. -/
def typeName (name : String) : Symbol := ⟨.typeName, name⟩

/-- An opening parenthesis. -/
def leftParen : Symbol := ⟨.leftParen, "("⟩

/-- A closing parenthesis. -/
def rightParen : Symbol := ⟨.rightParen, ")"⟩

/-- A comma. -/
def comma : Symbol := ⟨.comma, ","⟩

/-- The sign in front of a value that is given to something. -/
def assign : Symbol := ⟨.assign, "="⟩

/-- The point in front of a member. -/
def dot : Symbol := ⟨.dot, "."⟩

section Kinds

variable (text : String)

@[simp] theorem kind_keyword : (keyword text).kind = .keyword := rfl
@[simp] theorem kind_identifier : (identifier text).kind = .identifier := rfl
@[simp] theorem kind_typeName : (typeName text).kind = .typeName := rfl
@[simp] theorem kind_leftParen : leftParen.kind = .leftParen := rfl
@[simp] theorem kind_rightParen : rightParen.kind = .rightParen := rfl
@[simp] theorem kind_comma : comma.kind = .comma := rfl
@[simp] theorem kind_assign : assign.kind = .assign := rfl
@[simp] theorem kind_dot : dot.kind = .dot := rfl
@[simp] theorem kind_lineEnd : lineEnd.kind = .endOfLine := rfl
@[simp] theorem kind_fileEnd : fileEnd.kind = .endOfFile := rfl

end Kinds

end Symbol

namespace Grammar

/-- The name reads as an identifier. -/
def IsIdentifier (name : String) : Prop := Lexer.classify name = .identifier

/-- The name reads as that of a type, and not as a constant. -/
def IsType (name : String) : Prop := Lexer.classify name = .typeName ∧ name ∉ constantNames

mutual

/-- An `else` behind the statement would belong to it: it is a branch in one line that ends
without `else`. -/
def danglesNode : Node → Bool
  | ⟨kind, _⟩ => danglesKind kind

/-- An `else` behind a statement of the kind would belong to it. -/
def danglesKind : NodeKind → Bool
  | .branch _ ⟨.block _, _⟩ _ => false
  | .branch _ _ none => true
  | .branch _ _ (some elseBranch) => danglesNode elseBranch
  | _ => false

end

theorem leaf_node {token : Token} {node : Node} (h : leaf token = .ok node) :
    (∃ constant, node = ⟨.literal constant, token⟩) ∨
      ∃ name, node = ⟨.typeName name, token⟩ := by
  unfold leaf at h
  split at h
  case h_4 =>
    split at h
    · exact .inr ⟨_, (Except.ok.inj h).symm⟩
    · exact .inl ⟨_, (Except.ok.inj h).symm⟩
  case h_5 => cases h
  all_goals exact .inl ⟨_, (Except.ok.inj h).symm⟩

theorem leaf_kind {token : Token} {node : Node} (h : leaf token = .ok node) :
    token.kind = .number ∨ token.kind = .string ∨ token.kind = .identifier ∨
      token.kind = .typeName := by
  unfold leaf at h
  split at h <;> simp_all

/-! ## Phrases -/

/-- What symbols are read as. -/
inductive Phrase where
  | expression (node : Node)
  /-- Expressions with commas between them, at least one. -/
  | arguments (nodes : List Node)
  /-- What stands between the parentheses of a call. -/
  | argumentList (nodes : List Node)
  | parameter (param : Parameter)
  /-- Parameters with commas between them, at least one. -/
  | parameters (params : List Parameter)
  /-- Parameters in their parentheses, or nothing at all. -/
  | parameterList (params : List Parameter)
  /-- An expression behind the symbols that lead it in, or nothing at all. -/
  | clause (lead : List Symbol) (node : Option Node)
  | statement (node : Node)
  /-- Statements, each with the end of its line, and blank lines. -/
  | lines (nodes : List Node)

/-- The mark of what the instances of a class share. -/
def sharedMark (shared : Bool) : List Symbol := if shared then [.keyword "shared"] else []

/-- The parent of a class, if it has one. -/
def parentClause : Option String → List Symbol
  | none => []
  | some parent => [.keyword "of", .keyword "type", .typeName parent]

section

open StepScript.Symbol

/-- The symbols can be read as the phrase. -/
inductive Reads : Phrase → List Symbol → Prop where
  | leaf {token : Token} {node : Node} (lexical : token.symbol.Lexical)
      (made : Grammar.leaf token = .ok node) : Reads (.expression node) [token.symbol]
  | group {node : Node} {symbols : List Symbol} (inner : Reads (.expression node) symbols) :
      Reads (.expression node) (leftParen :: (symbols ++ [rightParen]))
  | unary {op : UnaryOp} {operand : Node} {symbols : List Symbol} (token : Token)
      (inner : Reads (.expression operand) symbols) :
      Reads (.expression ⟨.unary op operand, token⟩) (op.symbol :: symbols)
  | binary {op : BinaryOp} {lhs rhs : Node} {left right : List Symbol} {symbol : Symbol}
      (token : Token) (lexical : symbol.Lexical) (operator : symbol.canonical = op.symbol)
      (first : Reads (.expression lhs) left) (second : Reads (.expression rhs) right) :
      Reads (.expression ⟨.binary op lhs rhs, token⟩) (left ++ symbol :: right)
  | member {target member : Node} {left right : List Symbol} (token : Token)
      (fits : isMember member = true) (first : Reads (.expression target) left)
      (second : Reads (.expression member) right) :
      Reads (.expression ⟨.member target member, token⟩) (left ++ dot :: right)
  | call {name : String} {args : List Node} {symbols : List Symbol} (token : Token)
      (named : IsIdentifier name) (inner : Reads (.argumentList args) symbols) :
      Reads (.expression ⟨.call name args, token⟩)
        (identifier name :: leftParen :: (symbols ++ [rightParen]))
  | create {name : String} (token : Token) (named : IsType name) :
      Reads (.expression ⟨.create name [], token⟩) [keyword "new", typeName name]
  | createWith {name : String} {args : List Node} {symbols : List Symbol} (token : Token)
      (named : IsType name) (inner : Reads (.argumentList args) symbols) :
      Reads (.expression ⟨.create name args, token⟩)
        (keyword "new" :: typeName name :: leftParen :: (symbols ++ [rightParen]))
  | noArguments : Reads (.argumentList []) []
  | someArguments {args : List Node} {symbols : List Symbol}
      (inner : Reads (.arguments args) symbols) : Reads (.argumentList args) symbols
  | lastArgument {arg : Node} {symbols : List Symbol}
      (only : Reads (.expression arg) symbols) : Reads (.arguments [arg]) symbols
  | nextArgument {arg : Node} {args : List Node} {first rest : List Symbol}
      (head : Reads (.expression arg) first) (tail : Reads (.arguments args) rest) :
      Reads (.arguments (arg :: args)) (first ++ comma :: rest)
  | parameter {name : String} {initial : Option Node} {symbols : List Symbol}
      (named : IsIdentifier name) (inner : Reads (.clause [assign] initial) symbols) :
      Reads (.parameter ⟨name, initial⟩) (identifier name :: symbols)
  | lastParameter {param : Parameter} {symbols : List Symbol}
      (only : Reads (.parameter param) symbols) : Reads (.parameters [param]) symbols
  | nextParameter {param : Parameter} {params : List Parameter} {first rest : List Symbol}
      (head : Reads (.parameter param) first) (tail : Reads (.parameters params) rest) :
      Reads (.parameters (param :: params)) (first ++ comma :: rest)
  | noParameters : Reads (.parameterList []) []
  | emptyParameters : Reads (.parameterList []) [leftParen, rightParen]
  | someParameters {params : List Parameter} {symbols : List Symbol}
      (distinct : (params.map (·.name)).Nodup) (inner : Reads (.parameters params) symbols) :
      Reads (.parameterList params) (leftParen :: (symbols ++ [rightParen]))
  | noClause (lead : List Symbol) : Reads (.clause lead none) []
  | someClause {lead : List Symbol} {node : Node} {symbols : List Symbol}
      (inner : Reads (.expression node) symbols) :
      Reads (.clause lead (some node)) (lead ++ symbols)
  | classDecl {name : String} {parent : Option String} {nodes : List Node}
      {symbols : List Symbol} (token start : Token) (named : IsType name)
      (extending : ∀ other ∈ parent, IsType other) (body : Reads (.lines nodes) symbols) :
      Reads (.statement ⟨.classDecl name parent ⟨.block nodes, start⟩, token⟩)
        (keyword "class" :: typeName name
          :: (parentClause parent ++ .lineEnd :: (symbols ++ [keyword "end"])))
  | behaviourDecl {name : String} {nodes : List Node} {symbols : List Symbol}
      (token start : Token) (named : IsType name) (body : Reads (.lines nodes) symbols) :
      Reads (.statement ⟨.behaviourDecl name ⟨.block nodes, start⟩, token⟩)
        (keyword "behaviour" :: typeName name :: .lineEnd :: (symbols ++ [keyword "end"]))
  | functionDecl {name : String} {params : List Parameter} {nodes : List Node}
      {listed symbols : List Symbol} (shared : Bool) (token start : Token)
      (named : IsIdentifier name) (list : Reads (.parameterList params) listed)
      (body : Reads (.lines nodes) symbols) :
      Reads (.statement
          ⟨.functionDecl name params (some ⟨.block nodes, start⟩) shared false, token⟩)
        (sharedMark shared ++ keyword "function" :: identifier name
          :: (listed ++ .lineEnd :: (symbols ++ [keyword "end"])))
  | nativeDecl {name : String} {params : List Parameter} {listed : List Symbol}
      (shared : Bool) (token : Token) (named : IsIdentifier name)
      (list : Reads (.parameterList params) listed) :
      Reads (.statement ⟨.functionDecl name params none shared true, token⟩)
        (sharedMark shared ++ keyword "native" :: keyword "function" :: identifier name :: listed)
  | constructorDecl {params : List Parameter} {nodes : List Node}
      {listed symbols : List Symbol} (shared : Bool) (token start : Token)
      (list : Reads (.parameterList params) listed) (body : Reads (.lines nodes) symbols) :
      Reads (.statement ⟨.constructorDecl params ⟨.block nodes, start⟩ shared, token⟩)
        (sharedMark shared ++ keyword "constructor"
          :: (listed ++ .lineEnd :: (symbols ++ [keyword "end"])))
  | propertyDecl {name : String} {initial : Option Node} {symbols : List Symbol}
      (shared : Bool) (token : Token) (named : IsIdentifier name)
      (inner : Reads (.clause [assign] initial) symbols) :
      Reads (.statement ⟨.propertyDecl name initial shared, token⟩)
        (sharedMark shared ++ keyword "property" :: identifier name :: symbols)
  | hasBehaviour {name : String} (token : Token) (named : IsType name) :
      Reads (.statement ⟨.hasBehaviour name, token⟩)
        [keyword "has", keyword "behaviour", typeName name]
  | contract {name : String} (contract : Contract) (token : Token) (named : IsType name) :
      Reads (.statement ⟨.contract contract name, token⟩)
        [keyword contract.text, keyword "behaviour", typeName name]
  | updateOrder (order : UpdateOrder) (token : Token) :
      Reads (.statement ⟨.updateOrder order, token⟩)
        [identifier "update", identifier "order", identifier order.text]
  | branchBlock {condition : Node} {nodes : List Node} {tested symbols : List Symbol}
      (token start : Token) (test : Reads (.expression condition) tested)
      (body : Reads (.lines nodes) symbols) :
      Reads (.statement ⟨.branch condition ⟨.block nodes, start⟩ none, token⟩)
        (keyword "if" :: (tested ++ keyword "then" :: .lineEnd :: (symbols ++ [keyword "end"])))
  | branchBlockElse {condition : Node} {nodes others : List Node}
      {tested symbols opposed : List Symbol} (token start middle : Token)
      (test : Reads (.expression condition) tested) (body : Reads (.lines nodes) symbols)
      (other : Reads (.lines others) opposed) :
      Reads (.statement ⟨.branch condition ⟨.block nodes, start⟩
          (some ⟨.block others, middle⟩), token⟩)
        (keyword "if" :: (tested ++ keyword "then" :: .lineEnd :: (symbols ++ keyword "else"
          :: .lineEnd :: (opposed ++ [keyword "end"]))))
  | branchChain {condition nested : Node} {nodes : List Node}
      {tested symbols opposed : List Symbol} (token start : Token)
      (chained : isBlockBranch nested = true) (test : Reads (.expression condition) tested)
      (body : Reads (.lines nodes) symbols) (other : Reads (.statement nested) opposed) :
      Reads (.statement ⟨.branch condition ⟨.block nodes, start⟩ (some nested), token⟩)
        (keyword "if" :: (tested ++ keyword "then" :: .lineEnd
          :: (symbols ++ keyword "else" :: opposed)))
  | branchLine {condition thenBranch : Node} {tested symbols : List Symbol} (token : Token)
      (test : Reads (.expression condition) tested)
      (body : Reads (.statement thenBranch) symbols) :
      Reads (.statement ⟨.branch condition thenBranch none, token⟩)
        (keyword "if" :: (tested ++ keyword "then" :: symbols))
  | branchLineElse {condition thenBranch elseBranch : Node}
      {tested symbols opposed : List Symbol} (token : Token)
      (closed : danglesNode thenBranch = false) (test : Reads (.expression condition) tested)
      (body : Reads (.statement thenBranch) symbols)
      (other : Reads (.statement elseBranch) opposed) :
      Reads (.statement ⟨.branch condition thenBranch (some elseBranch), token⟩)
        (keyword "if" :: (tested ++ keyword "then" :: (symbols ++ keyword "else" :: opposed)))
  | whileLoop {condition : Node} {nodes : List Node} {tested symbols : List Symbol}
      (token start : Token) (test : Reads (.expression condition) tested)
      (body : Reads (.lines nodes) symbols) :
      Reads (.statement ⟨.whileLoop condition ⟨.block nodes, start⟩, token⟩)
        (keyword "while" :: (tested ++ keyword "do" :: .lineEnd :: (symbols ++ [keyword "end"])))
  | repeatLoop {condition : Node} {nodes : List Node} {tested symbols : List Symbol}
      (token start : Token) (body : Reads (.lines nodes) symbols)
      (test : Reads (.expression condition) tested) :
      Reads (.statement ⟨.repeatLoop ⟨.block nodes, start⟩ condition, token⟩)
        (keyword "repeat" :: .lineEnd :: (symbols ++ keyword "until" :: tested))
  | forLoop {var : String} {first last : Node} {step : Option Node} {nodes : List Node}
      {starting ending stepping symbols : List Symbol} (token start : Token)
      (named : IsIdentifier var) (begins : Reads (.expression first) starting)
      (ends : Reads (.expression last) ending)
      (steps : Reads (.clause [keyword "step", keyword "by"] step) stepping)
      (body : Reads (.lines nodes) symbols) :
      Reads (.statement ⟨.forLoop var first last step ⟨.block nodes, start⟩, token⟩)
        (keyword "for" :: identifier var :: keyword "from" :: (starting ++ keyword "to"
          :: (ending ++ (stepping ++ keyword "do" :: .lineEnd :: (symbols ++ [keyword "end"])))))
  | giveBack {value : Option Node} {symbols : List Symbol} (token : Token)
      (inner : Reads (.clause [] value) symbols) :
      Reads (.statement ⟨.giveBack value, token⟩) (keyword "return" :: symbols)
  | breakLoop (token : Token) : Reads (.statement ⟨.breakLoop, token⟩) [keyword "break"]
  | continueLoop (token : Token) :
      Reads (.statement ⟨.continueLoop, token⟩) [keyword "continue"]
  | waitForUpdate (token : Token) :
      Reads (.statement ⟨.waitForUpdate, token⟩)
        [keyword "wait", keyword "for", identifier "update"]
  | assign {target value : Node} {left right : List Symbol} (token : Token)
      (fits : isAssignable target = true) (first : Reads (.expression target) left)
      (second : Reads (.expression value) right) :
      Reads (.statement ⟨.assign target value, token⟩) (left ++ assign :: right)
  | evaluate {node : Node} {symbols : List Symbol}
      (inner : Reads (.expression node) symbols) : Reads (.statement node) symbols
  | noLines : Reads (.lines []) []
  | blankLine {nodes : List Node} {symbols : List Symbol} (rest : Reads (.lines nodes) symbols) :
      Reads (.lines nodes) (.lineEnd :: symbols)
  | line {node : Node} {nodes : List Node} {first rest : List Symbol}
      (head : Reads (.statement node) first) (tail : Reads (.lines nodes) rest) :
      Reads (.lines (node :: nodes)) (first ++ .lineEnd :: rest)

end

end Grammar

end StepScript
