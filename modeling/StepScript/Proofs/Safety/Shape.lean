import StepScript.Proofs.Grammar.Statement
import StepScript.Registration.Collected
set_option autoImplicit false

/-!
# Trees that can be evaluated

`Node.Fits role node` says that a node has the shape that evaluation relies on: operands and
arguments are expressions, members and targets of assignments are what they have to be, and
jumps stand inside loops.  The parser gives such trees as far as shapes go (`Reads.fits`), and
the check of placement takes care of the jumps.
-/

namespace StepScript

variable {node : Node} {inLoop : Bool} {nodes : List Node}

open Grammar

/-! ## Roles -/

/-- What a node is evaluated for. -/
inductive Role where
  /-- Its value. -/
  | expression
  /-- What it does.  Inside a loop it may jump. -/
  | statement (inLoop : Bool)
  deriving DecidableEq, Inhabited

/-- The node can be evaluated in the role. -/
inductive Node.Fits : Role → Node → Prop where
  | literal (value : Constant) (token : Token) : Fits .expression ⟨.literal value, token⟩
  | typeName (name : String) (token : Token) : Fits .expression ⟨.typeName name, token⟩
  | unary {op : UnaryOp} {operand : Node} {token : Token} (inner : Fits .expression operand) :
      Fits .expression ⟨.unary op operand, token⟩
  | binary {op : BinaryOp} {lhs rhs : Node} {token : Token} (left : Fits .expression lhs)
      (right : Fits .expression rhs) : Fits .expression ⟨.binary op lhs rhs, token⟩
  | member {target member : Node} {token : Token} (named : isMember member = true)
      (outer : Fits .expression target) (inner : Fits .expression member) :
      Fits .expression ⟨.member target member, token⟩
  | call {name : String} {args : List Node} {token : Token}
      (each : ∀ arg ∈ args, Fits .expression arg) : Fits .expression ⟨.call name args, token⟩
  | create {name : String} {args : List Node} {token : Token}
      (each : ∀ arg ∈ args, Fits .expression arg) : Fits .expression ⟨.create name args, token⟩
  | evaluate {inLoop : Bool} {node : Node} (inner : Fits .expression node) :
      Fits (.statement inLoop) node
  | block {inLoop : Bool} {nodes : List Node} {token : Token}
      (each : ∀ node ∈ nodes, Fits (.statement inLoop) node) :
      Fits (.statement inLoop) ⟨.block nodes, token⟩
  | assign {inLoop : Bool} {target value : Node} {token : Token}
      (named : isAssignable target = true) (outer : Fits .expression target)
      (inner : Fits .expression value) : Fits (.statement inLoop) ⟨.assign target value, token⟩
  | branch {inLoop : Bool} {condition thenBranch : Node} {elseBranch : Option Node}
      {token : Token} (test : Fits .expression condition)
      (first : Fits (.statement inLoop) thenBranch)
      (second : ∀ node ∈ elseBranch, Fits (.statement inLoop) node) :
      Fits (.statement inLoop) ⟨.branch condition thenBranch elseBranch, token⟩
  | whileLoop {inLoop : Bool} {condition body : Node} {token : Token}
      (test : Fits .expression condition) (inner : Fits (.statement true) body) :
      Fits (.statement inLoop) ⟨.whileLoop condition body, token⟩
  | repeatLoop {inLoop : Bool} {body condition : Node} {token : Token}
      (inner : Fits (.statement true) body) (test : Fits .expression condition) :
      Fits (.statement inLoop) ⟨.repeatLoop body condition, token⟩
  | forLoop {inLoop : Bool} {var : String} {first last : Node} {step : Option Node}
      {body : Node} {token : Token} (begins : Fits .expression first)
      (ends : Fits .expression last) (steps : ∀ node ∈ step, Fits .expression node)
      (inner : Fits (.statement true) body) :
      Fits (.statement inLoop) ⟨.forLoop var first last step body, token⟩
  | giveBack {inLoop : Bool} {value : Option Node} {token : Token}
      (inner : ∀ node ∈ value, Fits .expression node) :
      Fits (.statement inLoop) ⟨.giveBack value, token⟩
  | breakLoop (token : Token) : Fits (.statement true) ⟨.breakLoop, token⟩
  | continueLoop (token : Token) : Fits (.statement true) ⟨.continueLoop, token⟩
  | waitForUpdate (inLoop : Bool) (token : Token) :
      Fits (.statement inLoop) ⟨.waitForUpdate, token⟩
  | declaration {inLoop : Bool} {kind : NodeKind} {token : Token}
      (declares : kind.isDeclaration = true) : Fits (.statement inLoop) ⟨kind, token⟩
  | file {name : String} {nodes : List Node} {token : Token}
      (each : ∀ node ∈ nodes, Fits (.statement false) node) :
      Fits (.statement false) ⟨.file name nodes, token⟩

/-! ## Placement -/

/-- A statement in place of a block is checked as itself. -/
theorem checkPlacement_of_block (h : node.checkBlockPlacement inLoop = .ok ()) :
    node.checkPlacement inLoop = .ok () := by
  obtain ⟨kind, token⟩ := node
  cases kind <;> first | exact h | rfl

theorem checkPlacement_of_mem (h : checkPlacements inLoop nodes = .ok ()) :
    ∀ node ∈ nodes, node.checkPlacement inLoop = .ok () := by
  induction nodes with
  | nil => simp
  | cons node rest ih =>
    unfold checkPlacements at h
    split at h
    · cases h
    · next hn => exact List.forall_mem_cons.mpr ⟨hn, ih h⟩

/-- A block whose statements can be evaluated in their places can be evaluated in its own. -/
theorem fits_block {start : Token}
    (hnd : ∀ node ∈ nodes, ∀ inLoop, node.checkPlacement inLoop = .ok () →
      node.Fits (.statement inLoop))
    (hc : Node.checkBlockPlacement inLoop ⟨.block nodes, start⟩ = .ok ()) :
    Node.Fits (.statement inLoop) ⟨.block nodes, start⟩ :=
  .block fun node hn => hnd node hn inLoop (checkPlacement_of_mem hc node hn)

/-! ## Declarations -/

/-- The values of parameters without an argument are expressions. -/
def ParametersFit (params : List Parameter) : Prop :=
  ∀ param ∈ params, ∀ initial ∈ param.initial, Node.Fits .expression initial

/-- The parameters and the body of a function can be evaluated, the body if it passes its
check. -/
def FunctionFits (params : List Parameter) (body : Option Node) : Prop :=
  ParametersFit params ∧
    (checkFunctionBody body = .ok () → ∀ node ∈ body, node.Fits (.statement false))

/-- What a declaration within a class or a behaviour declares can be evaluated. -/
def MemberFits : NodeKind → Prop
  | .functionDecl _ params body _ _ => FunctionFits params body
  | .constructorDecl params body _ => FunctionFits params (some body)
  | .propertyDecl _ initial _ => ∀ node ∈ initial, node.Fits .expression
  | _ => True

/-- What a class or a behaviour declares can be evaluated. -/
def OwnerFits : NodeKind → Prop
  | .classDecl _ _ body | .behaviourDecl _ body =>
    ∀ statement ∈ body.statements, MemberFits statement.kind
  | _ => True

/-- A statement can be evaluated in its place, and so can be what it declares. -/
structure StatementFits (node : Node) : Prop where
  placed : ∀ inLoop, node.checkPlacement inLoop = .ok () → node.Fits (.statement inLoop)
  member : MemberFits node.kind
  owner : OwnerFits node.kind

/-- A statement that declares nothing. -/
theorem StatementFits.of_placed (hk : node.kind.isDeclaration = false)
    (h : ∀ inLoop, node.checkPlacement inLoop = .ok () → node.Fits (.statement inLoop)) :
    StatementFits node := by
  obtain ⟨kind, token⟩ := node
  refine ⟨h, ?_, ?_⟩ <;> cases kind <;> first | exact trivial | cases hk

/-- A statement that declares something. -/
theorem StatementFits.of_declaration {kind : NodeKind} {token : Token}
    (hk : kind.isDeclaration = true) (hm : MemberFits kind) (ho : OwnerFits kind) :
    StatementFits ⟨kind, token⟩ :=
  ⟨fun _ _ => .declaration hk, hm, ho⟩

/-! ## What is read can be evaluated -/

/-- What the phrase holds can be evaluated. -/
def Grammar.Phrase.Fits : Phrase → Prop
  | .expression node => node.Fits .expression
  | .arguments nodes | .argumentList nodes => ∀ node ∈ nodes, node.Fits .expression
  | .parameter param => ParametersFit [param]
  | .parameters params | .parameterList params => ParametersFit params
  | .clause _ node => ∀ inner ∈ node, inner.Fits .expression
  | .statement node => StatementFits node
  | .lines nodes => ∀ node ∈ nodes, StatementFits node

theorem Node.Fits.isDeclaration_eq_false (h : node.Fits .expression) :
    node.kind.isDeclaration = false := by
  cases h <;> rfl

/-- The body of a function that is read. -/
theorem functionFits_of_lines {params : List Parameter} (start : Token)
    (hp : ParametersFit params) (hnd : ∀ node ∈ nodes, StatementFits node) :
    FunctionFits params (some ⟨.block nodes, start⟩) := by
  refine ⟨hp, fun hc node hn => ?_⟩
  obtain rfl := Option.mem_some.mp hn
  exact fits_block (fun node hn => (hnd node hn).placed) hc

/-- Both parts of a branch pass the check of the branch. -/
theorem checkPlacement_branch {condition thenBranch elseBranch : Node} {token : Token}
    (h : Node.checkPlacement inLoop ⟨.branch condition thenBranch (some elseBranch), token⟩
      = .ok ()) :
    thenBranch.checkBlockPlacement inLoop = .ok () ∧
      elseBranch.checkBlockPlacement inLoop = .ok () := by
  unfold Node.checkPlacement NodeKind.checkPlacement at h
  split at h
  · cases h
  · next hf => exact ⟨hf, h⟩

/-- Whatever is read can be evaluated, if it passes the check of placement. -/
theorem Grammar.Reads.fits {phrase : Phrase} {list : List Symbol} (h : Reads phrase list) :
    phrase.Fits := by
  induction h with
  | leaf lexical made =>
    rcases leaf_node made with ⟨constant, rfl⟩ | ⟨name, rfl⟩
    · exact .literal ..
    · exact .typeName ..
  | group inner ih => exact ih
  | unary token inner ih => exact .unary ih
  | binary token lexical operator first second ihFirst ihSecond => exact .binary ihFirst ihSecond
  | member token fits first second ihFirst ihSecond => exact .member fits ihFirst ihSecond
  | call token named inner ih => exact .call ih
  | create token named => exact .create (by simp)
  | createWith token named inner ih => exact .create ih
  | noArguments => simp [Phrase.Fits]
  | someArguments inner ih => exact ih
  | lastArgument only ih => simpa [Phrase.Fits] using ih
  | nextArgument head tail ihHead ihTail => exact List.forall_mem_cons.mpr ⟨ihHead, ihTail⟩
  | parameter named inner ih => simpa [Phrase.Fits, ParametersFit] using ih
  | lastParameter only ih => exact ih
  | nextParameter head tail ihHead ihTail =>
    exact List.forall_mem_cons.mpr ⟨ihHead _ (List.mem_singleton_self _), ihTail⟩
  | noParameters | emptyParameters => simp [Phrase.Fits, ParametersFit]
  | someParameters distinct inner ih => exact ih
  | noClause lead => simp [Phrase.Fits]
  | someClause inner ih => simpa [Phrase.Fits] using ih
  | classDecl token start named extending body ih =>
    exact .of_declaration rfl trivial fun statement hst => (ih statement hst).member
  | behaviourDecl token start named body ih =>
    exact .of_declaration rfl trivial fun statement hst => (ih statement hst).member
  | functionDecl shared token start named list body ihList ihBody =>
    exact .of_declaration rfl (functionFits_of_lines start ihList ihBody) trivial
  | nativeDecl shared token named list ih => exact .of_declaration rfl ⟨ih, by simp⟩ trivial
  | constructorDecl shared token start list body ihList ihBody =>
    exact .of_declaration rfl (functionFits_of_lines start ihList ihBody) trivial
  | propertyDecl shared token named inner ih => exact .of_declaration rfl ih trivial
  | hasBehaviour | contract | updateOrder => exact .of_declaration rfl trivial trivial
  | branchBlock token start test body ihTest ihBody =>
    refine .of_placed rfl fun inLoop hc => .branch ihTest ?_ (by simp)
    exact fits_block (fun node hn => (ihBody node hn).placed) hc
  | branchBlockElse token start middle test body other ihTest ihBody ihOther =>
    refine .of_placed rfl fun inLoop hc => ?_
    obtain ⟨hf, hs⟩ := checkPlacement_branch hc
    refine .branch ihTest (fits_block (fun node hn => (ihBody node hn).placed) hf) ?_
    simpa using fits_block (fun node hn => (ihOther node hn).placed) hs
  | branchChain token start chained test body other ihTest ihBody ihOther =>
    refine .of_placed rfl fun inLoop hc => ?_
    obtain ⟨hf, hs⟩ := checkPlacement_branch hc
    refine .branch ihTest (fits_block (fun node hn => (ihBody node hn).placed) hf) ?_
    simpa using ihOther.placed inLoop (checkPlacement_of_block hs)
  | branchLine token test body ihTest ihBody =>
    refine .of_placed rfl fun inLoop hc => .branch ihTest ?_ (by simp)
    exact ihBody.placed inLoop (checkPlacement_of_block hc)
  | branchLineElse token closed test body other ihTest ihBody ihOther =>
    refine .of_placed rfl fun inLoop hc => ?_
    obtain ⟨hf, hs⟩ := checkPlacement_branch hc
    refine .branch ihTest (ihBody.placed inLoop (checkPlacement_of_block hf)) ?_
    simpa using ihOther.placed inLoop (checkPlacement_of_block hs)
  | whileLoop token start test body ihTest ihBody =>
    refine .of_placed rfl fun inLoop hc => .whileLoop ihTest ?_
    exact fits_block (fun node hn => (ihBody node hn).placed) hc
  | repeatLoop token start body test ihBody ihTest =>
    refine .of_placed rfl fun inLoop hc => .repeatLoop ?_ ihTest
    exact fits_block (fun node hn => (ihBody node hn).placed) hc
  | forLoop token start named begins ends steps body ihBegins ihEnds ihSteps ihBody =>
    refine .of_placed rfl fun inLoop hc => .forLoop ihBegins ihEnds ihSteps ?_
    exact fits_block (fun node hn => (ihBody node hn).placed) hc
  | giveBack token inner ih => exact .of_placed rfl fun inLoop _ => .giveBack ih
  | breakLoop token =>
    refine .of_placed rfl fun inLoop hc => ?_
    cases inLoop with
    | true => exact .breakLoop token
    | false => cases hc
  | continueLoop token =>
    refine .of_placed rfl fun inLoop hc => ?_
    cases inLoop with
    | true => exact .continueLoop token
    | false => cases hc
  | waitForUpdate token => exact .of_placed rfl fun inLoop _ => .waitForUpdate inLoop token
  | assign token fits first second ihFirst ihSecond =>
    exact .of_placed rfl fun inLoop _ => .assign fits ihFirst ihSecond
  | evaluate inner ih => exact .of_placed ih.isDeclaration_eq_false fun inLoop _ => .evaluate ih
  | noLines => simp [Phrase.Fits]
  | blankLine rest ih => exact ih
  | line head tail ihHead ihTail => exact List.forall_mem_cons.mpr ⟨ihHead, ihTail⟩

/-- The files that are parsed can be evaluated, as far as their statements pass their
checks. -/
theorem fits_of_parseText {text name : String} {file : Node}
    (h : parseText text name = .ok file) :
    ∃ nodes first, file = ⟨.file name nodes, first⟩ ∧ ∀ node ∈ nodes, StatementFits node := by
  obtain ⟨body, hs, -⟩ := isSource_tokenize text name
  obtain ⟨nodes, first, rfl, hr⟩ := parse_reads hs h
  refine ⟨nodes, first, rfl, ?_⟩
  rcases hr with hr | hr <;> exact hr.fits

end StepScript
