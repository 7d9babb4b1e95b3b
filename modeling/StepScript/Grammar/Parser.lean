import StepScript.Grammar.Table
import StepScript.Token.Lexer
set_option autoImplicit false

/-!
# Parsing

Statements are matched against the table of rules.  The tokens of an expression are
first collected into a run, up to the end of the line, a comma, `=`, a closing
parenthesis of an outer expression or a keyword.  The run is then split again and
again at its loosest operator.  What has no operator left is a leaf, an expression
in parentheses, or matched against the rules of expressions.

Of all failed attempts the one that got furthest is reported.
-/

namespace StepScript.Grammar

structure View where
  tokens : Array Token
  /-- The token that stands at every position past the end. -/
  after : Token

def View.peek (view : View) (pos : Nat) : Token := view.tokens[pos]?.getD view.after

/-- A matcher for one element of a rule: at a position it captures something and
yields the position behind what it matched. -/
abbrev Matcher : Type := Match → Nat → Attempt (Captures × Nat)

/-! ## Sequences of entries and tables of rules -/

/-- Match entries one after the other.  An optional group that fails is skipped; its
fault is reported in place of a later one if it got further. -/
def matchEntries (one : Matcher) : List Match → Nat → Option Fault → Captures →
    Attempt (Captures × Nat)
  | [], pos, _, captures => pure (captures, pos)
  | entry :: rest, pos, skipped, captures => do
    match ← (one entry pos).observe with
    | .ok (found, next) => matchEntries one rest next skipped (found ++ captures)
    | .error fault =>
      match entry.2 with
      | .optional _ =>
        Attempt.record fault
        matchEntries one rest pos (some (furthestOf skipped fault)) captures
      | _ =>
        match skipped with
        | some earlier =>
          .fail (if fault.progress < earlier.progress then earlier else fault)
        | none => .fail fault

def matchRule (view : View) (one : Matcher) (rule : Rule) (pos : Nat) :
    Attempt (Node × Nat) := do
  let (captures, next) ← matchEntries one rule.entries pos none []
  let start := view.peek pos
  match rule.build captures start with
  | .ok node => pure (node, next)
  | .error rejection =>
    .fail (.reached rejection.message start (view.peek (next - 1)).index)

/-- Try rules at a position; the first that matches decides.  `best` is the furthest
fault of the rules tried before. -/
def alternatives (view : View) (one : Matcher) : List Rule → Nat → Option Fault →
    Attempt (Node × Nat)
  | [], pos, best => .fail (best.getD (.expected "statement" (view.peek pos)))
  | rule :: rest, pos, best => do
    match ← (matchRule view one rule pos).observe with
    | .ok found => pure found
    | .error fault =>
      Attempt.record fault
      alternatives view one rest pos (some (furthestOf best fault))

/-! ## Blocks and lists -/

def oneOf (words : List String) : String :=
  " or ".intercalate (words.map fun word => s!"'{word}'")

/-- Statements up to one of the terminators, or to the end of the file if there are
none.  Each round consumes a token, so `rounds` bounds them. -/
def blockFrom (view : View) (statement : Nat → Attempt (Node × Nat))
    (terminators : List String) : (rounds : Nat) → (pos : Nat) → (found : List Node) →
    Attempt (List Node × Nat)
  | 0, pos, _ => .fail (.exhausted (view.peek pos))
  | rounds + 1, pos, found => do
    let token := view.peek pos
    match token.kind with
    | .endOfLine => blockFrom view statement terminators rounds (pos + 1) found
    | .endOfFile =>
      if terminators.isEmpty then pure (found.reverse, pos)
      else .fail (.expected (oneOf terminators) token)
    | _ =>
      if terminators.any token.spells then pure (found.reverse, pos)
      else
        let (node, next) ← statement pos
        let following := view.peek next
        match following.kind with
        | .endOfLine =>
          blockFrom view statement terminators rounds (next + 1) (node :: found)
        | .endOfFile =>
          blockFrom view statement terminators rounds next (node :: found)
        | _ => .fail (.expected "end of line" following)

/-- Expressions with commas between them, at least one. -/
def argumentsFrom (view : View) (expression : Nat → Attempt (Node × Nat)) :
    (rounds : Nat) → (pos : Nat) → (found : List Node) → Attempt (List Node × Nat)
  | 0, pos, _ => .fail (.exhausted (view.peek pos))
  | rounds + 1, pos, found => do
    let (node, next) ← expression pos
    if (view.peek next).kind = .comma then
      argumentsFrom view expression rounds (next + 1) (node :: found)
    else pure ((node :: found).reverse, next)

/-- The name of a parameter, which no parameter in front of it has. -/
def parameterNameAt (view : View) (found : List Parameter) (pos : Nat) : Attempt String :=
  let name := view.peek pos
  if name.kind ≠ .identifier then .fail (.expected "parameter name" name)
  else if found.any (·.name == name.text) then
    .fail (.here s!"duplicate parameter '{name.text}'" name)
  else pure name.text

def initialAt (view : View) (expression : Nat → Attempt (Node × Nat)) (pos : Nat) :
    Attempt (Option Node × Nat) :=
  if (view.peek pos).kind = .assign then do
    let (node, next) ← expression (pos + 1)
    pure (some node, next)
  else pure (none, pos)

/-- Parameters with commas between them, at least one. -/
def parametersFrom (view : View) (expression : Nat → Attempt (Node × Nat)) :
    (rounds : Nat) → (pos : Nat) → (found : List Parameter) →
    Attempt (List Parameter × Nat)
  | 0, pos, _ => .fail (.exhausted (view.peek pos))
  | rounds + 1, pos, found => do
    let name ← parameterNameAt view found pos
    let (initial, next) ← initialAt view expression (pos + 1)
    let found := ⟨name, initial⟩ :: found
    if (view.peek next).kind = .comma then
      parametersFrom view expression rounds (next + 1) found
    else pure (found.reverse, next)

/-- A list that ends in front of a closing parenthesis: none at once, or what `some`
reads. -/
def listOrNone {α : Type} (view : View) (pos : Nat) (nonempty : Attempt (List α × Nat)) :
    Attempt (List α × Nat) :=
  if (view.peek pos).kind = .rightParen then pure ([], pos) else nonempty

/-! ## Expressions -/

/-- Number of tokens of the run at the start of `tokens`, inside `depth` parentheses
of its own. -/
def runLength : (depth : Nat) → List Token → Nat
  | _, [] => 0
  | depth, token :: rest =>
    match token.kind with
    | .endOfLine | .endOfFile => 0
    | .leftParen => runLength (depth + 1) rest + 1
    | .rightParen => if depth = 0 then 0 else runLength (depth - 1) rest + 1
    | _ => if depth = 0 && token.endsExpression then 0 else runLength depth rest + 1

structure SplitPoint where
  index : Nat
  /-- The operator stands in front of its only operand. -/
  unary : Bool
  priority : Nat
  deriving DecidableEq, Repr, Inhabited

/-- The looser of a candidate and the one found further right, which wins a tie. -/
def looser (best : Option SplitPoint) (candidate : SplitPoint) : SplitPoint :=
  match best with
  | some found => if candidate.priority < found.priority then candidate else found
  | none => candidate

/-- The operator at the end of a run, given in reverse, as a place to split it.  Behind
another operator it can only be a sign of its operand, and then the operator further
left is the one to split at. -/
def candidate? (token : Token) (left : List Token) : Option SplitPoint :=
  match left with
  | [] => token.kind.unaryPriority?.map fun priority => ⟨0, true, priority⟩
  | previous :: _ =>
    if previous.kind.isOperator then none
    else token.kind.binaryPriority?.map fun priority => ⟨left.length, false, priority⟩

/-- The loosest operator outside of parentheses of a run, given in reverse; of equally
loose ones the rightmost. -/
def splitPointFrom (after : Token) : (reversed : List Token) → (depth : Nat) →
    Option SplitPoint → Except Fault (Option SplitPoint)
  | [], _, best => .ok best
  | token :: left, depth, best =>
    match token.kind with
    | .rightParen => splitPointFrom after left (depth + 1) best
    | .leftParen =>
      if depth = 0 then .error (.expected "')'" after)
      else splitPointFrom after left (depth - 1) best
    | _ =>
      if 0 < depth then splitPointFrom after left depth best
      else
        match candidate? token left with
        | some candidate => splitPointFrom after left depth (some (looser best candidate))
        | none => splitPointFrom after left depth best

def splitPoint? (run : List Token) (after : Token) : Except Fault (Option SplitPoint) :=
  splitPointFrom after run.reverse 0 none

/-- Index of the parenthesis that closes the first one, `index` tokens having been
read. -/
def closingFrom : (depth index : Nat) → List Token → Option Nat
  | _, _, [] => none
  | depth, index, token :: rest =>
    match token.kind with
    | .leftParen => closingFrom (depth + 1) (index + 1) rest
    | .rightParen =>
      match depth with
      | 0 => none
      | 1 => some index
      | depth + 1 => closingFrom depth (index + 1) rest
    | _ => closingFrom depth (index + 1) rest

/-- The run starts with a parenthesis that its last token closes. -/
def isParenthesised (run : List Token) : Bool :=
  match run with
  | first :: _ =>
    first.kind = .leftParen && closingFrom 0 0 run = some (run.length - 1)
  | [] => false

def leaf (token : Token) : Except Fault Node :=
  match token.kind with
  | .number | .string | .identifier => .ok ⟨.literal (.ofLexeme token.text), token⟩
  | .typeName =>
    match Constant.ofLexeme token.text with
    | .identifier name => .ok ⟨.typeName name, token⟩
    | constant => .ok ⟨.literal constant, token⟩
  | _ => .error (.expected "expression" token)

def isMember (node : Node) : Bool :=
  match node.kind with
  | .literal (.identifier _) | .typeName _ | .call .. => true
  | _ => false

def operation (op : Token) (lhs rhs : Node) (rhsStart : Token) : Except Fault Node :=
  if op.kind = .dot then
    if isMember rhs then .ok ⟨.member lhs rhs, op⟩
    else .error (.expected "member name" rhsStart)
  else
    match BinaryOp.ofKind? op.kind with
    | some binary => .ok ⟨.binary binary lhs rhs, op⟩
    | none => .error (.expected "binary operator" op)

def unaryOperation (op : Token) : UnaryOp :=
  if op.kind = .minus then .negate else .not

/-- The node of a run that is followed by `after`.  `headed` matches a run without
operators against the rules of expressions.  Every part of a run is shorter than the
run, so `depth` bounds the parts within parts. -/
def split (headed : List Token → Token → Attempt (Node × Nat)) : (depth : Nat) →
    List Token → Token → Attempt Node
  | 0, _, after => .fail (.exhausted after)
  | _ + 1, [], after => .fail (.expected "expression" after)
  | depth + 1, first :: rest, after => do
    let run := first :: rest
    match ← Attempt.ofExcept (splitPoint? run after) with
    | some point =>
      match run.drop point.index with
      | [] => .fail (.expected "expression" after)
      | op :: right =>
        if point.unary then
          let operand ← split headed depth right after
          pure ⟨.unary (unaryOperation op) operand, op⟩
        else
          let lhs ← split headed depth (run.take point.index) op
          let rhs ← split headed depth right after
          Attempt.ofExcept (operation op lhs rhs (right.headD after))
    | none =>
      if isParenthesised run then
        split headed depth rest.dropLast (run.getLastD after)
      else if rest.isEmpty then Attempt.ofExcept (leaf first)
      else
        let (node, next) ← headed run after
        match run.drop next with
        | [] => pure node
        | leftover :: _ =>
          let fault := Fault.expected "operator" leftover
          Attempt.record fault
          .fail fault

def expressionAt (view : View) (headed : List Token → Token → Attempt (Node × Nat))
    (pos : Nat) : Attempt (Node × Nat) := do
  let tokens := view.tokens.toList.drop pos
  let length := runLength 0 tokens
  if length = 0 then .fail (.expected "expression" (view.peek pos))
  else
    let node ← split headed (length + 1) (tokens.take length) (view.peek (pos + length))
    pure (node, pos + length)

/-! ## Entries -/

/-- The words that are written as type names and stand for constants. -/
def constantNames : List String := ["True", "False", "None"]

/-- What an entry captures into its slot, if it has one. -/
def inSlot (slot : Option Slot) (capture : Capture) : Captures :=
  match slot with
  | some slot => [(slot, capture)]
  | none => []

def headedRun (one : View → Matcher) (run : List Token) (after : Token) :
    Attempt (Node × Nat) :=
  let inner : View := ⟨run.toArray, after⟩
  alternatives inner (one inner) expressionRules 0 none

def statementAt (view : View) (one : Matcher) (pos : Nat) : Attempt (Node × Nat) :=
  alternatives view one statementRules pos none

def argumentListAt (view : View) (expression : Nat → Attempt (Node × Nat)) (pos : Nat) :
    Attempt (List Node × Nat) :=
  let token := view.peek pos
  if token.kind ≠ .leftParen then .fail (.expected "'('" token)
  else do
    let (nodes, next) ← listOrNone view (pos + 1)
      (argumentsFrom view expression (view.tokens.size + 2) (pos + 1) [])
    let close := view.peek next
    if close.kind ≠ .rightParen then .fail (.expected "')'" close)
    else pure (nodes, next + 1)

def tokenAt (view : View) (slot : Option Slot) (pos : Nat) (fits : Token → Bool)
    (what : String) : Attempt (Captures × Nat) :=
  let token := view.peek pos
  if fits token then pure (inSlot slot (.text token.text), pos + 1)
  else .fail (.expected what token)

/-- Match one element of a rule, the elements within it by `one`. -/
def matchEntry (one : View → Matcher) (view : View) : Matcher := fun (slot, entry) pos =>
  match entry with
  | .word text => tokenAt view slot pos (·.spells text) s!"'{text}'"
  | .kind kind => tokenAt view slot pos (·.kind = kind) kind.describe
  | .typeName =>
    tokenAt view slot pos
      (fun token => token.kind = .typeName && !constantNames.contains token.text) "type name"
  | .identifier => tokenAt view slot pos (·.kind = .identifier) "identifier"
  | .expression => do
    let (node, next) ← expressionAt view (headedRun one) pos
    pure (inSlot slot (.node node), next)
  | .statement => do
    let (node, next) ← statementAt view (one view) pos
    pure (inSlot slot (.node node), next)
  | .arguments => do
    let (nodes, next) ← argumentListAt view (expressionAt view (headedRun one)) pos
    pure (inSlot slot (.nodes nodes), next)
  | .parameters => do
    let (params, next) ← listOrNone view pos
      (parametersFrom view (expressionAt view (headedRun one)) (view.tokens.size + 2) pos [])
    pure (inSlot slot (.params params), next)
  | .optional group => do
    let (found, next) ← matchEntries (one view) group pos none []
    pure (inSlot slot .present ++ found, next)
  | .statements terminators => do
    let (nodes, next) ← blockFrom view (statementAt view (one view)) terminators
      (view.tokens.size + 2) pos []
    pure (inSlot slot (.node ⟨.block nodes, view.peek pos⟩), next)

/-- Match one element of a rule.  `depth` bounds the elements within elements: each of
them stands behind a token of the one around it, so a multiple of the number of
tokens suffices. -/
def matchOne : (depth : Nat) → View → Matcher
  | 0, view => fun _ pos => .fail (.exhausted (view.peek pos))
  | depth + 1, view => matchEntry (matchOne depth) view

/-- Depth of elements within elements that a source of `count` tokens can need. -/
def depthFor (count : Nat) : Nat := 4 * count + 8

def entryAt (view : View) : Matcher := matchOne (depthFor view.tokens.size) view

/-! ## Files -/

def fileBody (view : View) : Attempt (List Node × Nat) :=
  blockFrom view (statementAt view (entryAt view)) [] (view.tokens.size + 2) 0 []

def parse (tokens : Array Token) (name : String) : Except Error Node :=
  match tokens[0]?, tokens.back? with
  | some first, some last =>
    match fileBody ⟨tokens, last⟩ with
    | ⟨.ok (nodes, _), _⟩ => .ok ⟨.file name nodes, first⟩
    | ⟨.error fault, recorded⟩ =>
      let reported := match recorded with
        | some furthest => fault.furthest furthest
        | none => fault
      .error reported.toError
  | _, _ => .error (.runtime (.emptyTokenStream name))

def parseText (text name : String) : Except Error Node := parse (tokenize text name) name

end StepScript.Grammar
