import StepScript.Proofs.Safety.Shape
set_option autoImplicit false

/-!
# Where declarations stand

`Node.allDeclarations` finds every declaration of a tree, in whatever position it stands.  The
parser puts statements into the positions of statements only (`Grammar.Reads.tidy`), so code that
passes the check of placement holds no declarations, and those of a class or a behaviour are the
statements of its body.
-/

namespace StepScript

variable {nodes : List Node} {kind : NodeKind} {token : Token} {node : Node}

open Grammar

/-! ## All declarations of a tree -/

mutual

/-- The declarations of a tree in the order in which they are written, each before those that
stand in it. -/
def Node.allDeclarations : Node → List Node
  | ⟨kind, token⟩ =>
    if kind.isDeclaration then ⟨kind, token⟩ :: kind.innerDeclarations
    else kind.innerDeclarations

/-- The declarations below a node of the kind. -/
def NodeKind.innerDeclarations : NodeKind → List Node
  | .literal _ | .typeName _ | .breakLoop | .continueLoop | .waitForUpdate | .hasBehaviour _
  | .contract .. | .updateOrder _ | .giveBack none | .propertyDecl _ none _ => []
  | .unary _ node | .giveBack (some node) | .classDecl _ _ node | .behaviourDecl _ node
  | .propertyDecl _ (some node) _ => node.allDeclarations
  | .binary _ first second | .member first second | .assign first second
  | .branch first second none | .whileLoop first second | .repeatLoop first second =>
    first.allDeclarations ++ second.allDeclarations
  | .branch condition thenBranch (some elseBranch) =>
    condition.allDeclarations ++ thenBranch.allDeclarations ++ elseBranch.allDeclarations
  | .forLoop _ first last none body =>
    first.allDeclarations ++ last.allDeclarations ++ body.allDeclarations
  | .forLoop _ first last (some step) body =>
    first.allDeclarations ++ last.allDeclarations ++ step.allDeclarations ++ body.allDeclarations
  | .call _ nodes | .create _ nodes | .block nodes | .file _ nodes => nodesDeclarations nodes
  | .functionDecl _ params none _ _ => parametersDeclarations params
  | .functionDecl _ params (some body) _ _ | .constructorDecl params body _ =>
    parametersDeclarations params ++ body.allDeclarations

/-- The declarations of trees. -/
def nodesDeclarations : List Node → List Node
  | [] => []
  | node :: rest => node.allDeclarations ++ nodesDeclarations rest

/-- The declarations in the defaults of parameters. -/
def parametersDeclarations : List Parameter → List Node
  | [] => []
  | ⟨_, none⟩ :: rest => parametersDeclarations rest
  | ⟨_, some initial⟩ :: rest => initial.allDeclarations ++ parametersDeclarations rest

end

theorem nodesDeclarations_eq (nodes : List Node) :
    nodesDeclarations nodes = nodes.flatMap Node.allDeclarations := by
  induction nodes with
  | nil => rfl
  | cons node rest ih => rw [nodesDeclarations, List.flatMap_cons, ih]

theorem nodesDeclarations_eq_nil (h : ∀ node ∈ nodes, node.allDeclarations = []) :
    nodesDeclarations nodes = [] := by
  rw [nodesDeclarations_eq]
  exact List.flatMap_eq_nil_iff.mpr h

theorem Node.allDeclarations_of_plain (h : kind.isDeclaration = false) :
    Node.allDeclarations ⟨kind, token⟩ = kind.innerDeclarations := by
  rw [Node.allDeclarations, if_neg (by simp [h])]

theorem Node.allDeclarations_of_declaration (h : node.kind.isDeclaration = true) :
    node.allDeclarations = node :: node.kind.innerDeclarations := by
  obtain ⟨kind, token⟩ := node
  rw [Node.allDeclarations, if_pos h]

/-! ## Statements -/

/-- Check the code of a function or a constructor. -/
def NodeKind.checkCode : NodeKind → Except Error Unit
  | .functionDecl _ _ body _ _ => checkFunctionBody body
  | .constructorDecl _ body _ => checkFunctionBody (some body)
  | _ => .ok ()

/-- The body of a class or a behaviour. -/
def NodeKind.ownerBody? : NodeKind → Option Node
  | .classDecl _ _ body | .behaviourDecl _ body => some body
  | _ => none

/-- What the statement declares holds no further declarations, if its code passes its check. -/
def Node.HoldsNone (node : Node) : Prop :=
  node.kind.ownerBody? = none → node.kind.checkCode = .ok () → node.kind.innerDeclarations = []

/-- The declarations of a statement stand where declarations can stand. -/
structure Node.Tidy (node : Node) : Prop where
  placed : ∀ inLoop, node.checkPlacement inLoop = .ok () → node.allDeclarations = []
  member : node.kind.isDeclaration = true → node.HoldsNone
  owner : ∀ body ∈ node.kind.ownerBody?,
    body.allDeclarations = nodesDeclarations body.statements ∧
      ∀ statement ∈ body.statements, statement.kind.isDeclaration = true → statement.HoldsNone

/-- A statement that declares nothing. -/
theorem Node.Tidy.of_placed (hk : kind.isDeclaration = false)
    (h : ∀ inLoop, Node.checkPlacement inLoop ⟨kind, token⟩ = .ok () →
      kind.innerDeclarations = []) : Node.Tidy ⟨kind, token⟩ where
  placed inLoop hc := (Node.allDeclarations_of_plain hk).trans (h inLoop hc)
  member hd := by
    rw [hk] at hd
    cases hd
  owner body hb := by
    cases kind <;> cases hk <;> cases hb

/-- A statement that declares something is not fit to stand in code. -/
theorem checkPlacement_declaration (hk : node.kind.isDeclaration = true) (inLoop : Bool) :
    node.checkPlacement inLoop ≠ .ok () := by
  intro hc
  obtain ⟨kind, token⟩ := node
  cases kind <;> cases hk <;> cases hc

/-- A member of a class or a behaviour. -/
theorem Node.Tidy.of_member (hk : kind.isDeclaration = true) (ho : kind.ownerBody? = none)
    (h : kind.checkCode = .ok () → kind.innerDeclarations = []) : Node.Tidy ⟨kind, token⟩ where
  placed inLoop hc := absurd hc (checkPlacement_declaration hk inLoop)
  member _ _ := h
  owner body hb := by
    rw [ho] at hb
    cases hb

/-- A class or a behaviour with a body of tidy statements. -/
theorem Node.Tidy.of_owner {token start : Token} (hk : kind.isDeclaration = true)
    (ho : kind.ownerBody? = some ⟨.block nodes, start⟩) (h : ∀ node ∈ nodes, node.Tidy) :
    Node.Tidy ⟨kind, token⟩ where
  placed inLoop hc := absurd hc (checkPlacement_declaration hk inLoop)
  member _ hn := by
    rw [ho] at hn
    cases hn
  owner body hb := by
    rw [ho] at hb
    obtain rfl := Option.some.inj hb
    refine ⟨Node.allDeclarations_of_plain rfl, fun statement hs => ?_⟩
    exact (h statement hs).member

/-- A block of tidy statements that passes its check holds no declarations. -/
theorem declarations_block {start : Token} {inLoop : Bool} (h : ∀ node ∈ nodes, node.Tidy)
    (hc : Node.checkBlockPlacement inLoop ⟨.block nodes, start⟩ = .ok ()) :
    Node.allDeclarations ⟨.block nodes, start⟩ = [] := by
  refine (Node.allDeclarations_of_plain rfl).trans (nodesDeclarations_eq_nil fun node hn => ?_)
  exact (h node hn).placed inLoop (checkPlacement_of_mem hc node hn)

/-- A tidy statement in place of a block that passes its check holds no declarations. -/
theorem Node.Tidy.declarations_branch {inLoop : Bool} (h : node.Tidy)
    (hc : node.checkBlockPlacement inLoop = .ok ()) : node.allDeclarations = [] :=
  h.placed inLoop (checkPlacement_of_block hc)

/-! ## What is read is tidy -/

/-- Declarations of the phrase stand where declarations can stand. -/
def Grammar.Phrase.Tidy : Phrase → Prop
  | .expression node => node.allDeclarations = []
  | .arguments nodes | .argumentList nodes => nodesDeclarations nodes = []
  | .parameter param => parametersDeclarations [param] = []
  | .parameters params | .parameterList params => parametersDeclarations params = []
  | .clause _ node => ∀ inner ∈ node, inner.allDeclarations = []
  | .statement node => node.Tidy
  | .lines nodes => ∀ node ∈ nodes, node.Tidy

/-- An expression as a statement. -/
theorem Node.Tidy.of_expression (h : node.allDeclarations = []) : node.Tidy := by
  obtain ⟨kind, token⟩ := node
  cases hk : kind.isDeclaration with
  | true => cases (Node.allDeclarations_of_declaration hk).symm.trans h
  | false => exact .of_placed hk fun _ _ => (Node.allDeclarations_of_plain hk).symm.trans h

/-- The code of a function that is read. -/
theorem declarations_code {params : List Parameter} {start : Token}
    (hp : parametersDeclarations params = []) (hn : ∀ node ∈ nodes, node.Tidy)
    (hc : checkFunctionBody (some ⟨.block nodes, start⟩) = .ok ()) :
    parametersDeclarations params ++ Node.allDeclarations ⟨.block nodes, start⟩ = [] := by
  rw [hp, declarations_block hn hc]
  rfl

/-- Whatever is read is tidy. -/
theorem Grammar.Reads.tidy {phrase : Phrase} {list : List Symbol} (h : Reads phrase list) :
    phrase.Tidy := by
  induction h with
  | leaf lexical made => rcases leaf_node made with ⟨constant, rfl⟩ | ⟨name, rfl⟩ <;> rfl
  | group inner ih => exact ih
  | unary token inner ih => exact (Node.allDeclarations_of_plain rfl).trans ih
  | binary token lexical operator first second ihFirst ihSecond =>
    refine (Node.allDeclarations_of_plain rfl).trans ?_
    exact List.append_eq_nil_iff.mpr ⟨ihFirst, ihSecond⟩
  | member token fits first second ihFirst ihSecond =>
    refine (Node.allDeclarations_of_plain rfl).trans ?_
    exact List.append_eq_nil_iff.mpr ⟨ihFirst, ihSecond⟩
  | call token named inner ih => exact (Node.allDeclarations_of_plain rfl).trans ih
  | create token named => rfl
  | createWith token named inner ih => exact (Node.allDeclarations_of_plain rfl).trans ih
  | noArguments => rfl
  | someArguments inner ih => exact ih
  | lastArgument only ih => exact List.append_eq_nil_iff.mpr ⟨ih, rfl⟩
  | nextArgument head tail ihHead ihTail => exact List.append_eq_nil_iff.mpr ⟨ihHead, ihTail⟩
  | @parameter name initial symbols named inner ih =>
    cases initial with
    | none => rfl
    | some initial => exact List.append_eq_nil_iff.mpr ⟨ih initial rfl, rfl⟩
  | lastParameter only ih => exact ih
  | @nextParameter param params first rest head tail ihHead ihTail =>
    obtain ⟨name, _ | initial⟩ := param
    · exact ihTail
    · exact List.append_eq_nil_iff.mpr ⟨(List.append_eq_nil_iff.mp ihHead).1, ihTail⟩
  | noParameters | emptyParameters => rfl
  | someParameters distinct inner ih => exact ih
  | noClause lead => simp [Phrase.Tidy]
  | someClause inner ih => simpa [Phrase.Tidy] using ih
  | classDecl token start named extending body ih => exact .of_owner rfl rfl ih
  | behaviourDecl token start named body ih => exact .of_owner rfl rfl ih
  | functionDecl shared token start named list body ihList ihBody =>
    exact .of_member rfl rfl (declarations_code ihList ihBody)
  | nativeDecl shared token named list ih => exact .of_member rfl rfl fun _ => ih
  | constructorDecl shared token start list body ihList ihBody =>
    exact .of_member rfl rfl (declarations_code ihList ihBody)
  | @propertyDecl name initial symbols shared token named inner ih =>
    refine .of_member rfl rfl fun _ => ?_
    cases initial with
    | none => rfl
    | some initial => exact ih initial rfl
  | hasBehaviour | contract | updateOrder => exact .of_member rfl rfl fun _ => rfl
  | branchBlock token start test body ihTest ihBody =>
    refine .of_placed rfl fun inLoop hc => ?_
    exact List.append_eq_nil_iff.mpr ⟨ihTest, declarations_block ihBody hc⟩
  | branchBlockElse token start middle test body other ihTest ihBody ihOther =>
    refine .of_placed rfl fun inLoop hc => ?_
    obtain ⟨hf, hs⟩ := checkPlacement_branch hc
    rw [NodeKind.innerDeclarations, ihTest, declarations_block ihBody hf,
      declarations_block ihOther hs]
    rfl
  | branchChain token start chained test body other ihTest ihBody ihOther =>
    refine .of_placed rfl fun inLoop hc => ?_
    obtain ⟨hf, hs⟩ := checkPlacement_branch hc
    rw [NodeKind.innerDeclarations, ihTest, declarations_block ihBody hf,
      ihOther.declarations_branch hs]
    rfl
  | branchLine token test body ihTest ihBody =>
    refine .of_placed rfl fun inLoop hc => ?_
    exact List.append_eq_nil_iff.mpr ⟨ihTest, ihBody.declarations_branch hc⟩
  | branchLineElse token closed test body other ihTest ihBody ihOther =>
    refine .of_placed rfl fun inLoop hc => ?_
    obtain ⟨hf, hs⟩ := checkPlacement_branch hc
    rw [NodeKind.innerDeclarations, ihTest, ihBody.declarations_branch hf,
      ihOther.declarations_branch hs]
    rfl
  | whileLoop token start test body ihTest ihBody =>
    refine .of_placed rfl fun inLoop hc => ?_
    exact List.append_eq_nil_iff.mpr ⟨ihTest, declarations_block ihBody hc⟩
  | repeatLoop token start body test ihBody ihTest =>
    refine .of_placed rfl fun inLoop hc => ?_
    exact List.append_eq_nil_iff.mpr ⟨declarations_block ihBody hc, ihTest⟩
  | @forLoop var first last step nodes starting ending stepping symbols token start named begins
      ends steps body ihBegins ihEnds ihSteps ihBody =>
      refine .of_placed rfl fun inLoop hc => ?_
      cases step with
      | none =>
        rw [NodeKind.innerDeclarations, ihBegins, ihEnds, declarations_block ihBody hc]
        rfl
      | some step =>
        rw [NodeKind.innerDeclarations, ihBegins, ihEnds, ihSteps step rfl,
          declarations_block ihBody hc]
        rfl
  | @giveBack value symbols token inner ih =>
    refine .of_placed rfl fun inLoop _ => ?_
    cases value with
    | none => rfl
    | some value => exact ih value rfl
  | breakLoop | continueLoop | waitForUpdate => exact .of_placed rfl fun _ _ => rfl
  | assign token fits first second ihFirst ihSecond =>
    refine .of_placed rfl fun inLoop _ => ?_
    exact List.append_eq_nil_iff.mpr ⟨ihFirst, ihSecond⟩
  | evaluate inner ih => exact .of_expression ih
  | noLines => simp [Phrase.Tidy]
  | blankLine rest ih => exact ih
  | line head tail ihHead ihTail => exact List.forall_mem_cons.mpr ⟨ihHead, ihTail⟩

/-- The statements of a parsed file are tidy. -/
theorem tidy_of_parseText {text name : String} {file : Node}
    (h : parseText text name = .ok file) :
    ∃ nodes, file.kind = .file name nodes ∧ ∀ node ∈ nodes, node.Tidy := by
  obtain ⟨body, hs, -⟩ := isSource_tokenize text name
  obtain ⟨nodes, first, rfl, hr⟩ := parse_reads hs h
  refine ⟨nodes, rfl, ?_⟩
  rcases hr with hr | hr <;> exact hr.tidy

end StepScript
