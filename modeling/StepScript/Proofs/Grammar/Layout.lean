import StepScript.Proofs.Grammar.Rendering
import StepScript.Proofs.Grammar.Statement
set_option autoImplicit false

/-!
# What matters in the symbols of a source

Four things can be written in more than one way: blank lines, parentheses that only group,
empty parentheses where there are no parameters or arguments, and the spelling of two
operators.  `strip` takes them away, without a look at the tree: whether a parenthesis groups
can be told from what stands in front of it.

Symbols that can be read as a phrase become the rendering of the phrase without grouping
parentheses (`Reads.strip`).
-/

namespace StepScript.Grammar

variable {symbol : Symbol} {rest list : List Symbol} {phrase : Phrase}

open Symbol (keyword identifier leftParen rightParen comma assign dot fileEnd)

/-! ## Symbols without what does not matter -/

/-- What stands in front of a symbol. -/
inductive Before where
  /-- The end of the line before. -/
  | line
  /-- `new`, in front of a class. -/
  | new
  /-- `function`, in front of the name of one. -/
  | function
  /-- An identifier, with its arguments behind it if it is called. -/
  | callee
  /-- What has its parameters or arguments behind it, but none if they are absent: the name
  of a function that is declared, `constructor`, or a class that is created. -/
  | declared
  | other
  deriving DecidableEq, Repr, Inhabited

/-- What stands in front of the symbol that follows the given one. -/
def Before.next (before : Before) (symbol : Symbol) : Before :=
  match symbol.kind with
  | .keyword =>
    if symbol.text = "new" then .new
    else if symbol.text = "function" then .function
    else if symbol.text = "constructor" then .declared
    else .other
  | .identifier => if before = .function then .declared else .callee
  | .typeName => if before = .new then .declared else .other
  | _ => .other

theorem Before.next_keyword (before : Before) (text : String) :
    before.next (keyword text) =
      if text = "new" then .new else if text = "function" then .function
      else if text = "constructor" then .declared else .other := rfl

@[simp] theorem Before.next_new (before : Before) : before.next (keyword "new") = .new := rfl

@[simp] theorem Before.next_function (before : Before) :
    before.next (keyword "function") = .function := rfl

@[simp] theorem Before.next_constructor (before : Before) :
    before.next (keyword "constructor") = .declared := rfl

@[simp] theorem Before.next_created (name : String) :
    Before.next .new (.typeName name) = .declared := rfl

@[simp] theorem Before.next_declared (name : String) :
    Before.next .function (identifier name) = .declared := rfl

@[simp] theorem Before.next_typeName (name : String) :
    Before.next .other (.typeName name) = .other := rfl

@[simp] theorem Before.next_identifier (name : String) :
    Before.next .other (identifier name) = .callee := rfl

/-- A parenthesis in front of the symbols is not there to group, nor to hold nothing where it
could be left out. -/
def Before.opens (before : Before) (rest : List Symbol) : Bool :=
  match before with
  | .callee => true
  | .declared => rest.head?.map (·.kind) != some .rightParen
  | _ => false

/-- The symbols without what can be written in more than one way.  `kept` tells of the
parentheses that are open whether they are kept. -/
def strip : (before : Before) → (kept : List Bool) → List Symbol → List Symbol
  | _, _, [] => []
  | before, kept, symbol :: rest =>
    match symbol.kind with
    | .endOfLine =>
      if before = .line then strip .line kept rest else symbol :: strip .line kept rest
    | .leftParen =>
      if before.opens rest then symbol :: strip .other (true :: kept) rest
      else strip .other (false :: kept) rest
    | .rightParen =>
      if kept.head? = some true then symbol :: strip .other kept.tail rest
      else strip .other kept.tail rest
    | _ => symbol.canonical :: strip (before.next symbol) kept rest

/-- What matters in the symbols of a source. -/
def significant (list : List Symbol) : List Symbol := strip .line [] list

/-! ## One symbol -/

section Steps

variable {before : Before} {kept : List Bool}

/-- A symbol that is no parenthesis and does not end a line is kept. -/
theorem strip_cons (hln : symbol.kind ≠ .endOfLine) (hl : symbol.kind ≠ .leftParen)
    (hr : symbol.kind ≠ .rightParen) :
    strip before kept (symbol :: rest)
      = symbol.canonical :: strip (before.next symbol) kept rest := by
  rw [strip]
  split <;> first | contradiction | rfl

@[simp] theorem strip_keyword (text : String) :
    strip before kept (keyword text :: rest)
      = keyword text :: strip (before.next (keyword text)) kept rest := rfl

@[simp] theorem strip_identifier (name : String) :
    strip before kept (identifier name :: rest)
      = identifier name :: strip (before.next (identifier name)) kept rest := rfl

@[simp] theorem strip_typeName (name : String) :
    strip before kept (.typeName name :: rest)
      = .typeName name :: strip (before.next (.typeName name)) kept rest := rfl

@[simp] theorem strip_comma :
    strip before kept (comma :: rest) = comma :: strip .other kept rest := rfl

@[simp] theorem strip_assign :
    strip before kept (assign :: rest) = assign :: strip .other kept rest := rfl

@[simp] theorem strip_dot :
    strip before kept (dot :: rest) = dot :: strip .other kept rest := rfl

@[simp] theorem strip_fileEnd :
    strip before kept (fileEnd :: rest) = fileEnd :: strip .other kept rest := rfl

theorem strip_lineEnd (h : before ≠ .line) :
    strip before kept (.lineEnd :: rest) = .lineEnd :: strip .line kept rest :=
  if_neg h

@[simp] theorem strip_blankLine :
    strip .line kept (.lineEnd :: rest) = strip .line kept rest := rfl

@[simp] theorem strip_called :
    strip .callee kept (leftParen :: rest) = leftParen :: strip .other (true :: kept) rest := rfl

@[simp] theorem strip_nothing :
    strip .declared kept (leftParen :: rightParen :: rest) = strip .other kept rest := rfl

theorem strip_something (h : symbol.kind ≠ .rightParen) :
    strip .declared kept (leftParen :: symbol :: rest)
      = leftParen :: strip .other (true :: kept) (symbol :: rest) := by
  refine if_pos ?_
  simpa [Before.opens] using h

theorem strip_grouping (h : before = .line ∨ before = .other) :
    strip before kept (leftParen :: rest) = strip .other (false :: kept) rest := by
  rcases h with rfl | rfl <;> rfl

@[simp] theorem strip_closing :
    strip before (true :: kept) (rightParen :: rest) = rightParen :: strip .other kept rest := rfl

@[simp] theorem strip_grouped :
    strip before (false :: kept) (rightParen :: rest) = strip .other kept rest := rfl

end Steps

/-- The symbols do not start with an opening parenthesis. -/
def Unopened (list : List Symbol) : Prop := ∀ symbol ∈ list.head?, symbol.kind ≠ .leftParen

@[simp] theorem unopened_cons : Unopened (symbol :: rest) ↔ symbol.kind ≠ .leftParen := by
  simp [Unopened]

/-- A name matters only to a parenthesis behind it. -/
theorem strip_named {before : Before} (h : before = .callee ∨ before = .declared) {kept : List Bool}
    (hr : Unopened rest) :
    strip before kept rest = strip .other kept rest := by
  cases rest with
  | nil => rfl
  | cons symbol rest =>
    rw [unopened_cons] at hr
    rcases h with rfl | rfl <;> unfold strip <;> split <;> simp_all [Before.next]

/-! ## Phrases -/

/-- What can stand in front of a phrase. -/
def Phrase.Behind : Phrase → Before → Prop
  | .expression _, before | .statement _, before | .arguments _, before =>
    before = .line ∨ before = .other
  | .parameterList _, before => before = .declared
  | .lines _, before => before = .line
  | _, before => before = .other

/-- What a phrase leaves in front of what follows it. -/
def Phrase.leaves : Phrase → Before
  | .lines _ => .line
  | _ => .other

/-- The symbols are kept as they are, and are neither names nor words in front of names. -/
def Inert (list : List Symbol) : Prop :=
  ∀ symbol ∈ list, ∀ before kept rest,
    strip before kept (symbol :: rest) = symbol :: strip .other kept rest

theorem Inert.strip_append {lead : List Symbol} (h : Inert lead) (kept : List Bool)
    (rest : List Symbol) : strip .other kept (lead ++ rest) = lead ++ strip .other kept rest := by
  induction lead with
  | nil => rfl
  | cons symbol lead ih =>
    unfold Inert at h
    rw [List.forall_mem_cons] at h
    rw [List.cons_append, h.1, ih h.2, List.cons_append]

@[simp] theorem inert_nil : Inert [] := by simp [Inert]

@[simp] theorem inert_assign : Inert [assign] := by simp [Inert]

@[simp] theorem inert_step : Inert [keyword "step", keyword "by"] := by
  simp [Inert, Before.next_keyword]

/-- The symbol can be the first of an expression. -/
def startsExpression (symbol : Symbol) : Bool :=
  match symbol.kind with
  | .number | .string | .identifier | .typeName | .minus | .not | .leftParen => true
  | .keyword => symbol.text == "new"
  | _ => false

/-- The phrase is an expression, or expressions with commas between them. -/
def Phrase.isSome : Phrase → Bool
  | .expression _ | .arguments _ => true
  | _ => false

/-- The phrase is a parameter, or parameters with commas between them. -/
def Phrase.isParameters : Phrase → Bool
  | .parameter _ | .parameters _ => true
  | _ => false

/-- An expression starts with a symbol that can be its first. -/
theorem Reads.exists_start (h : Reads phrase list) (hp : phrase.isSome = true) :
    ∃ symbol rest, list = symbol :: rest ∧ startsExpression symbol = true := by
  induction h with
  | leaf _ made =>
    refine ⟨_, _, rfl, ?_⟩
    rcases leaf_kind made with hk | hk | hk | hk <;> simp [startsExpression, hk]
  | @unary op => exact ⟨_, _, rfl, by cases op <;> rfl⟩
  | binary _ _ _ _ _ ih | member _ _ _ _ ih | nextArgument _ _ ih =>
    obtain ⟨symbol, rest, rfl, hs⟩ := ih rfl
    exact ⟨symbol, _, rfl, hs⟩
  | lastArgument _ ih => exact ih rfl
  | group | call | create | createWith => exact ⟨_, _, rfl, rfl⟩
  | _ => cases hp

/-- What starts an expression does not close a parenthesis. -/
theorem ne_rightParen_of_startsExpression (h : startsExpression symbol = true) :
    symbol.kind ≠ .rightParen := by
  intro hk
  simp [startsExpression, hk] at h

/-- Parameters start with the name of the first. -/
theorem Reads.exists_name (h : Reads phrase list) (hp : phrase.isParameters = true) :
    ∃ name rest, list = identifier name :: rest := by
  induction h with
  | parameter => exact ⟨_, _, rfl⟩
  | lastParameter _ ih => exact ih rfl
  | nextParameter _ _ ih =>
    obtain ⟨name, rest, rfl⟩ := ih rfl
    exact ⟨name, _, rfl⟩
  | _ => cases hp

/-- A clause does not start with an opening parenthesis if its lead does not. -/
theorem Reads.unopened_clause {lead : List Symbol} {node : Option Node} {list rest : List Symbol}
    (h : Reads (.clause (symbol :: lead) node) list) (hs : symbol.kind ≠ .leftParen)
    (hr : Unopened rest) : Unopened (list ++ rest) := by
  cases h with
  | noClause => exact hr
  | someClause => simpa using hs

theorem strip_leaf {token : Token} {node : Node} (made : leaf token = .ok node) {before : Before}
    (hb : before = .line ∨ before = .other) (kept : List Bool) (hr : Unopened rest) :
    strip before kept (token.symbol :: rest) = token.symbol :: strip .other kept rest := by
  have hn : strip .callee kept rest = strip .other kept rest := strip_named (.inl rfl) hr
  rw [strip_cons] <;> rcases leaf_kind made with hk | hk | hk | hk <;>
    rcases hb with rfl | rfl <;>
    simp [Symbol.canonical, Before.next, hk, hn]

theorem strip_operator {op : BinaryOp} (h : symbol.canonical = op.symbol) (before : Before)
    (kept : List Bool) (rest : List Symbol) :
    strip before kept (symbol :: rest) = op.symbol :: strip .other kept rest := by
  have hk : symbol.kind = op.kind := by rw [← Symbol.canonical_kind, h]; rfl
  rw [strip_cons, h] <;> cases op <;> simp [Before.next, hk, BinaryOp.kind]

theorem strip_sign (op : UnaryOp) (before : Before) (kept : List Bool) (rest : List Symbol) :
    strip before kept (op.symbol :: rest) = op.symbol :: strip .other kept rest := by
  cases op <;> rfl

@[simp] theorem operand_id (grouped : Bool) (list : List Symbol) :
    operand id grouped list = list := by
  cases grouped <;> rfl

theorem unopened_operator {op : BinaryOp} (h : symbol.canonical = op.symbol) (rest : List Symbol) :
    Unopened (symbol :: rest) := by
  rw [unopened_cons, ← Symbol.canonical_kind, h]
  cases op <;> decide

@[simp] theorem strip_sharedMark (shared : Bool) (text : String) (before : Before)
    (kept : List Bool) (rest : List Symbol) :
    strip before kept (sharedMark shared ++ keyword text :: rest)
      = sharedMark shared ++ keyword text :: strip (before.next (keyword text)) kept rest := by
  cases shared <;> rfl

@[simp] theorem strip_parentClause (parent : Option String) (kept : List Bool)
    (rest : List Symbol) :
    strip .other kept (parentClause parent ++ .lineEnd :: rest)
      = parentClause parent ++ .lineEnd :: strip .line kept rest := by
  cases parent <;> rfl

section Reads

attribute [local simp] Phrase.rendering Phrase.leaves Node.rendering NodeKind.rendering
  Before.next_keyword strip_lineEnd

/-- What can be read as a phrase becomes its rendering without grouping parentheses. -/
theorem Reads.strip (h : Reads phrase list) (hl : Inert phrase.lead) {before : Before}
    (hb : phrase.Behind before) (kept : List Bool) (hr : Unopened rest) :
    Grammar.strip before kept (list ++ rest)
      = phrase.rendering id ++ Grammar.strip phrase.leaves kept rest := by
  induction h generalizing before kept rest with
  | @leaf token node lexical made =>
    have hlf := strip_leaf made hb kept hr
    rcases leaf_node made with ⟨constant, rfl⟩ | ⟨name, rfl⟩ <;> exact hlf
  | group _ ih =>
    rw [List.cons_append, strip_grouping hb, List.append_assoc, ih inert_nil (.inr rfl) _ (by simp)]
    rfl
  | unary token _ ih =>
    rw [List.cons_append, strip_sign, ih inert_nil (.inr rfl) _ hr]
    simp
  | binary token _ operator _ _ ihFirst ihSecond =>
    rw [List.append_assoc, List.cons_append,
      ihFirst inert_nil hb _ (unopened_operator operator _), strip_operator operator,
      ihSecond inert_nil (.inr rfl) _ hr]
    simp
  | member token fits _ _ ihFirst ihSecond =>
    rw [List.append_assoc, List.cons_append, ihFirst inert_nil hb _ (by simp), strip_dot,
      ihSecond inert_nil (.inr rfl) _ hr]
    simp
  | @call name args list token named _ ih =>
    have hc : before.next (identifier name) = .callee := by
      rcases hb with rfl | rfl <;> rfl
    simp [hc, ih inert_nil rfl, parenthesised]
  | @create name token named =>
    have hd := @strip_named rest .declared (.inr rfl) kept hr
    simp [hd, listed]
  | @createWith name args list token named inner ih =>
    cases inner with
    | noArguments => simp [listed]
    | someArguments inner =>
      obtain ⟨first, others, rfl⟩ := inner.exists_argument
      obtain ⟨symbol, tail, rfl, hs⟩ := inner.exists_start rfl
      have ho := @strip_something symbol (tail ++ rightParen :: rest) kept
        (ne_rightParen_of_startsExpression hs)
      have hi := @ih (rightParen :: rest) inert_nil _ rfl (true :: kept) (by simp)
      rw [List.cons_append] at hi
      simp [ho, hi, listed, parenthesised]
  | noArguments => rcases hb with rfl; rfl
  | someArguments _ ih => rcases hb with rfl; exact ih inert_nil (.inr rfl) kept hr
  | lastArgument _ ih => exact ih inert_nil hb kept hr
  | nextArgument _ tail ihHead ihTail =>
    obtain ⟨first, others, rfl⟩ := tail.exists_argument
    simp [ihHead inert_nil hb, ihTail inert_nil (.inr rfl) kept hr, argumentsRendering]
  | @parameter name initial list named inner ih =>
    rcases hb with rfl
    have hn := @strip_named _ .callee (.inl rfl) kept
      (inner.unopened_clause (by simp) hr)
    rw [ih inert_assign rfl kept hr] at hn
    cases initial <;> simp [hn, Parameter.rendering]
  | lastParameter _ ih => exact ih inert_nil hb kept hr
  | nextParameter _ tail ihHead ihTail =>
    obtain ⟨first, others, rfl⟩ := tail.exists_parameter
    simp [ihHead inert_nil hb, ihTail inert_nil rfl kept hr, parametersRendering]
  | noParameters =>
    rcases hb with rfl
    exact strip_named (.inr rfl) hr
  | emptyParameters =>
    rcases hb with rfl
    rfl
  | someParameters _ inner ih =>
    rcases hb with rfl
    obtain ⟨first, others, rfl⟩ := inner.exists_parameter
    obtain ⟨name, tail, rfl⟩ := inner.exists_name rfl
    have ho := @strip_something (identifier name) (tail ++ rightParen :: rest) kept (by simp)
    have hi := @ih (rightParen :: rest) inert_nil _ rfl (true :: kept) (by simp)
    rw [List.cons_append] at hi
    simp [ho, hi, listed, parenthesised]
  | noClause => rcases hb with rfl; rfl
  | someClause _ ih =>
    rcases hb with rfl
    rw [List.append_assoc, Inert.strip_append (by exact hl), ih inert_nil (.inr rfl) kept hr]
    simp
  | classDecl token start named extending _ ih => simp [ih inert_nil rfl]
  | behaviourDecl token start named _ ih => simp [ih inert_nil rfl]
  | functionDecl shared token start named _ _ ihList ihBody =>
    simp [ihList inert_nil rfl, ihBody inert_nil rfl]
  | nativeDecl shared token named _ ih => simp [ih inert_nil rfl kept hr]
  | constructorDecl shared token start _ _ ihList ihBody =>
    simp [ihList inert_nil rfl, ihBody inert_nil rfl]
  | @propertyDecl name initial list shared token named inner ih =>
    have hn := @strip_named _ .callee (.inl rfl) kept
      (inner.unopened_clause (by simp) hr)
    rw [ih inert_assign rfl kept hr] at hn
    cases initial <;> simp [hn]
  | hasBehaviour token named => simp
  | contract contract token named => cases contract <;> simp [Contract.text]
  | updateOrder order token =>
    have hn := @strip_named rest .callee (.inl rfl) kept hr
    rcases hb with rfl | rfl <;> exact congrArg ([_, _, _] ++ ·) hn
  | branchBlock token start _ _ ihTest ihBody =>
    simp [ihTest inert_nil (.inr rfl), ihBody inert_nil rfl, Node.isBlock]
  | branchBlockElse token start middle _ _ _ ihTest ihBody ihOther =>
    simp [ihTest inert_nil (.inr rfl), ihBody inert_nil rfl, ihOther inert_nil rfl, Node.isBlock]
  | branchChain token start chained _ _ _ ihTest ihBody ihOther =>
    rw [Phrase.rendering, rendering_chain (isBlock_of_isBlockBranch chained)]
    simp [ihTest inert_nil (.inr rfl), ihBody inert_nil rfl, ihOther inert_nil (.inr rfl) kept hr]
  | branchLine token _ body ihTest ihBody =>
    rw [Phrase.rendering, rendering_line body.isBlock_eq_false]
    simp [ihTest inert_nil (.inr rfl), ihBody inert_nil (.inr rfl) kept hr]
  | branchLineElse token closed _ body _ ihTest ihBody ihOther =>
    rw [Phrase.rendering, rendering_lineElse body.isBlock_eq_false]
    simp [ihTest inert_nil (.inr rfl), ihBody inert_nil (.inr rfl),
      ihOther inert_nil (.inr rfl) kept hr]
  | whileLoop token start _ _ ihTest ihBody =>
    simp [ihTest inert_nil (.inr rfl), ihBody inert_nil rfl]
  | repeatLoop token start _ _ ihBody ihTest =>
    simp [ihTest inert_nil (.inr rfl) kept hr, ihBody inert_nil rfl]
  | @forLoop var first last step _ _ _ _ _ token start named _ _ steps _ ihFirst ihLast ihStep
      ihBody =>
      have hst : ∀ tail, Unopened (_ ++ keyword "do" :: tail) := fun tail =>
        steps.unopened_clause (by simp) (by simp)
      cases step <;>
        simp [ihFirst inert_nil (.inr rfl), ihLast inert_nil (.inr rfl), ihStep inert_step rfl,
          hst, ihBody inert_nil rfl]
  | @giveBack value _ token _ ih =>
    have hv := ih inert_nil rfl kept hr
    cases value <;> simp [hv]
  | breakLoop token => rfl
  | continueLoop token => rfl
  | waitForUpdate token => exact congrArg ([_, _, _] ++ ·) (strip_named (.inl rfl) hr)
  | assign token fits _ _ ihFirst ihSecond =>
    simp [ihFirst inert_nil hb, ihSecond inert_nil (.inr rfl) kept hr]
  | evaluate _ ih => exact ih inert_nil hb kept hr
  | noLines => rcases hb with rfl; rfl
  | blankLine _ ih =>
    rcases hb with rfl
    exact ih inert_nil rfl kept hr
  | line _ _ ihHead ihTail =>
    rcases hb with rfl
    simp [ihHead inert_nil (.inl rfl), ihTail inert_nil rfl kept hr, linesRendering]

end Reads

/-! ## Sources -/

/-- What matters in a source is what its tree renders to. -/
theorem Reads.significant_eq {nodes : List Node} {body : List Symbol}
    (h : Reads (.lines nodes) body) :
    significant (body ++ [fileEnd]) = linesRendering id nodes ++ [fileEnd] :=
  h.strip inert_nil rfl [] (by simp)

/-- A blank line behind another line does not matter. -/
theorem strip_twoLineEnds (before : Before) (kept : List Bool) (front rest : List Symbol) :
    strip before kept (front ++ .lineEnd :: .lineEnd :: rest)
      = strip before kept (front ++ .lineEnd :: rest) := by
  induction front generalizing before kept with
  | nil =>
    by_cases hb : before = .line
    · subst hb
      rfl
    · rw [List.nil_append, List.nil_append, strip_lineEnd hb, strip_lineEnd hb, strip_blankLine]
  | cons symbol front ih =>
    have ho : before.opens (front ++ .lineEnd :: .lineEnd :: rest)
        = before.opens (front ++ .lineEnd :: rest) := by
      cases front <;> rfl
    rw [List.cons_append, List.cons_append]
    unfold strip
    simp only [ih, ho]

/-- The end of a last line does not matter behind lines that have theirs. -/
theorem significant_lineEnd {body : List Symbol}
    (hb : body = [] ∨ body.getLast? = some .lineEnd) :
    significant (body ++ .lineEnd :: [fileEnd]) = significant (body ++ [fileEnd]) := by
  rcases hb with rfl | hl
  · rfl
  · obtain ⟨front, rfl⟩ := List.getLast?_eq_some_iff.mp hl
    rw [List.append_assoc, List.append_assoc]
    exact strip_twoLineEnds .line [] front [fileEnd]

end StepScript.Grammar
