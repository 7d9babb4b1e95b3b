import StepScript.Proofs.Evaluation.FrameRun
set_option autoImplicit false

/-!
# Frames in the middle of their work

Which frames wait for a value, and the three kinds of nodes that collect arguments in the
same way.
-/

namespace StepScript

open Direct

variable {σ τ : Type} {host : Host σ τ} {outside : Held} {below : List Ref}

/-- No native function of the host leaves a task behind. -/
def Host.AnswersAtOnce (host : Host σ τ) : Prop :=
  ∀ owner name provided, host.native? owner name = some provided →
    ∀ argument context task, (provided argument context).1 ≠ .ok (.pending task)

namespace Frame

/-- The frame of a node after it has been resumed. -/
def ofProgress (node : Node) (scope : ScopeId) (context : Context σ)
    (resumed : StepScript.Resumed Progress) : Resumed σ τ :=
  ⟨.node ⟨node, scope, resumed.frame⟩, ⟨resumed.store, context⟩, resumed.flow⟩

/-- The frame of a call after it has been resumed. -/
def ofCall (context : Context σ) (resumed : StepScript.Resumed Call) : Resumed σ τ :=
  ⟨.call resumed.frame, ⟨resumed.store, context⟩, resumed.flow⟩

/-- The frame of a construction after it has been resumed. -/
def ofConstruction (context : Context σ) (resumed : StepScript.Resumed Construction) :
    Resumed σ τ :=
  ⟨.construct resumed.frame, ⟨resumed.store, context⟩, resumed.flow⟩

theorem next_node (frame : NodeFrame) (world : World σ) (incoming : Option Outcome) :
    next host outside below (.node frame) world incoming =
      ofProgress frame.node frame.scope world.context
        (frame.resume world.store
          (holding outside (.scope frame.scope :: frame.progress.refs) below
            (incomingRefs incoming)) incoming) := rfl

theorem next_call (call : Call) (world : World σ) (incoming : Option Outcome) :
    next host outside below (.call call) world incoming =
      ofCall world.context (call.resume world.store incoming) := rfl

theorem next_construct (construction : Construction) (world : World σ)
    (incoming : Option Outcome) :
    next host outside below (.construct construction) world incoming =
      ofConstruction world.context
        (construction.resume world.store
          (holding outside [.object construction.object] below (incomingRefs incoming))
          incoming) := rfl

/-! ## Waiting for a value -/

/-- The frame has given away work whose value it needs. -/
inductive AwaitsValue : Frame τ → Prop where
  | unary {op operand token scope} :
      AwaitsValue (.node ⟨⟨.unary op operand, token⟩, scope, .start⟩)
  | lhs {op lhs rhs token scope} :
      AwaitsValue (.node ⟨⟨.binary op lhs rhs, token⟩, scope, .start⟩)
  | rhs {op lhs rhs token scope l} :
      AwaitsValue (.node ⟨⟨.binary op lhs rhs, token⟩, scope, .left l⟩)
  | target {target member token scope} :
      AwaitsValue (.node ⟨⟨.member target member, token⟩, scope, .target⟩)
  | memberArgument {target name args inner token scope found values} :
      AwaitsValue (.node ⟨⟨.member target ⟨.call name args, inner⟩, token⟩, scope,
        .member found values false⟩)
  | callArgument {name args token scope values} :
      AwaitsValue (.node ⟨⟨.call name args, token⟩, scope, .arguments values false⟩)
  | createArgument {className args token scope values} :
      AwaitsValue (.node ⟨⟨.create className args, token⟩, scope, .arguments values false⟩)
  | owner {target value token scope} :
      AwaitsValue (.node ⟨⟨.assign target value, token⟩, scope, .target⟩)
  | assigned {target value token scope found} :
      AwaitsValue (.node ⟨⟨.assign target value, token⟩, scope, .assigning found⟩)
  | branch {condition thenBranch elseBranch token scope} :
      AwaitsValue (.node ⟨⟨.branch condition thenBranch elseBranch, token⟩, scope, .condition⟩)
  | whileLoop {condition body token scope} :
      AwaitsValue (.node ⟨⟨.whileLoop condition body, token⟩, scope, .condition⟩)
  | repeatLoop {body condition token scope} :
      AwaitsValue (.node ⟨⟨.repeatLoop body condition, token⟩, scope, .condition⟩)
  | first {var first last step body token scope inner} :
      AwaitsValue (.node ⟨⟨.forLoop var first last step body, token⟩, scope, .first inner⟩)
  | bound {var first last step body token scope inner} :
      AwaitsValue (.node ⟨⟨.forLoop var first last step body, token⟩, scope, .bound inner⟩)
  | step {var first last step body token scope inner limit} :
      AwaitsValue (.node ⟨⟨.forLoop var first last step body, token⟩, scope, .step inner limit⟩)
  | giveBack {value token scope} :
      AwaitsValue (.node ⟨⟨.giveBack (some value), token⟩, scope, .start⟩)
  | fill {function parent scope param rest} :
      AwaitsValue (.call ⟨function, parent, .fill scope param rest⟩)
  | parameter {object scope name initial steps} :
      AwaitsValue (.construct ⟨object, some (.parameter scope name initial), steps⟩)
  | property {object scope name initial steps} :
      AwaitsValue (.construct ⟨object, some (.property scope name initial), steps⟩)
  | behaviour {object scope behaviour steps} :
      AwaitsValue (.construct ⟨object, some (.behaviour scope behaviour), steps⟩)

theorem AwaitsValue.needsValue {frame : Frame τ} (h : AwaitsValue frame) :
    NeedsValue host outside below frame := by
  intro world outcome fault hf
  cases h <;> cases outcome <;> cases hf <;> exact ⟨_, rfl⟩

/-! ## Native functions -/

section Natives

variable {held : Held} {function : Function} {scope : ScopeId} {world world' : World σ}
  {result : Except Error Outcome}

theorem next_native
    (h : callNative host (holding outside (function.refs ++ [.scope scope]) below []) function
      scope world = some (result, world')) :
    next host outside below (.native function scope none) world none =
      ⟨.native function scope none, world', result.map .done⟩ := by
  simp only [callNative] at h
  split at h
  · next hn =>
    cases h
    simp only [next, resume, resumeNative, hn]
    rfl
  · next provided hn =>
    split at h
    · next fault han =>
      cases h
      simp only [next, resume, resumeNative, refs, incomingRefs, Option.toList,
        List.flatMap_nil, hn, han]
      rfl
    · next value han =>
      cases h
      simp only [next, resume, resumeNative, refs, incomingRefs, Option.toList,
        List.flatMap_nil, hn, han]
      rfl
    · cases h

theorem callNative_value {outcome : Outcome}
    (h : callNative host held function scope world = some (.ok outcome, world')) :
    ∃ value, outcome = .value value := by
  simp only [callNative] at h
  split at h
  · cases h
  · split at h
    · cases h
    · cases h
      exact ⟨_, rfl⟩
    · cases h

theorem exists_callNative (hh : host.AnswersAtOnce) :
    ∃ answer, callNative host held function scope world = some answer := by
  simp only [callNative]
  split
  · exact ⟨_, rfl⟩
  · next provided hn =>
    split
    · exact ⟨_, rfl⟩
    · exact ⟨_, rfl⟩
    · next task han => exact (hh _ _ provided hn _ _ task han).elim

end Natives

/-! ## Waiting for a number -/

section Numbers

variable {result : Except Error Outcome} {value : Constant} {fault : Error}

theorem of_numberOf_error (h : numberOf result = .error fault) :
    valueOf result = .error fault ∨
      ∃ value, valueOf result = .ok value ∧ value.asNumber = .error fault := by
  simp only [numberOf, bind, Except.bind] at h
  split at h
  · next fault' hv => exact .inl (hv.trans h)
  · next value hv =>
    split at h
    · next fault' hn =>
      cases h
      exact .inr ⟨value, hv, hn⟩
    · cases h

theorem of_numberOf_ok (h : numberOf result = .ok value) :
    valueOf result = .ok value ∧ ∃ number, value.asNumber = .ok number := by
  simp only [numberOf, bind, Except.bind] at h
  split at h
  · cases h
  · next value' hv =>
    split at h
    · cases h
    · next number hn =>
      cases h
      exact ⟨hv, number, hn⟩

/-- The `for` loop has given away work whose value has to be a number. -/
inductive AwaitsNumber : Frame τ → Prop where
  | first {var first last step body token scope inner} :
      AwaitsNumber (.node ⟨⟨.forLoop var first last step body, token⟩, scope, .first inner⟩)
  | bound {var first last step body token scope inner} :
      AwaitsNumber (.node ⟨⟨.forLoop var first last step body, token⟩, scope, .bound inner⟩)

theorem AwaitsNumber.awaitsValue {frame : Frame τ} (h : AwaitsNumber frame) :
    AwaitsValue frame := by
  cases h
  · exact .first
  · exact .bound

theorem AwaitsNumber.next_error {frame : Frame τ} (h : AwaitsNumber frame) (world : World σ)
    (hv : value.asNumber = .error fault) :
    frame.next host outside below world (some (.value value)) = ⟨frame, world, .error fault⟩ := by
  cases h <;>
    simp only [next_node, NodeFrame.resume, NodeFrame.forLoop, Outcome.receivedValue, bind,
      Except.bind, hv] <;>
    rfl

end Numbers

/-- The end of a round of a `for` loop that goes on. -/
theorem next_rounds {var : String} {first last body : Node} {step : Option Node} {token : Token}
    {scope inner : ScopeId} {limit pace : Constant} {outcome : Outcome} (world : World σ)
    (ho : outcome = .continueLoop ∨ ∃ value, outcome = .value value) :
    next host outside below
        (.node ⟨⟨.forLoop var first last step body, token⟩, scope, .rounds inner limit pace⟩)
        world (some outcome) =
      ofProgress ⟨.forLoop var first last step body, token⟩ scope world.context
        (match nextNumber world.store
            (holding outside ([.scope scope, .scope inner] ++ (limit.refs ++ pace.refs)) below
              outcome.refs) inner var pace with
        | .error fault => ⟨.rounds inner limit pace, world.store, .error fault⟩
        | .ok number =>
          ⟨.round inner, world.store.setOwn inner var (.number number), .ok .yield⟩) := by
  rcases ho with rfl | ⟨value, rfl⟩ <;> rfl

/-! ## Resolving the owner of a member -/

/-- `after` is what the frame of `node` does once the scope of the members of `target` is
known. -/
structure Resolves (target : Node) (scope : ScopeId) (node : Node)
    (after : ScopeId → Held → Store → StepScript.Resumed Progress) : Prop where
  named : ∀ name store held, target.kind = .typeName name →
    NodeFrame.resume ⟨node, scope, .start⟩ store held none =
      match NodeFrame.typeScope store held scope name with
      | .error error => ⟨.start, store, .error error⟩
      | .ok found => after found held store
  pushed : ∀ store held, (∀ name, target.kind ≠ .typeName name) →
    NodeFrame.resume ⟨node, scope, .start⟩ store held none =
      ⟨.target, store, .ok (.push (.node target scope))⟩
  value : ∀ store held value,
    NodeFrame.resume ⟨node, scope, .target⟩ store held (some (.value value)) =
      match NodeFrame.memberScope store value with
      | .error error => ⟨.target, store, .error error⟩
      | .ok found => after found held store
  awaits : ∀ {τ : Type}, AwaitsValue (.node ⟨node, scope, .target⟩ : Frame τ)

theorem resolves_member (target member : Node) (token : Token) (scope : ScopeId) :
    Resolves target scope ⟨.member target member, token⟩ fun found held store =>
      NodeFrame.access member scope store held found [] false none where
  named name store held hk := by
    cases hs : NodeFrame.typeScope store held scope name <;>
      simp only [NodeFrame.resume, NodeFrame.memberAccess, hk, hs]
  pushed store held hk := by
    simp only [NodeFrame.resume, NodeFrame.memberAccess]
  value _ _ _ := rfl
  awaits := .target

theorem resolves_assign (object member value : Node) (inner token : Token) (scope : ScopeId) :
    Resolves object scope ⟨.assign ⟨.member object member, inner⟩ value, token⟩
      fun found _ store => NodeFrame.evaluateAssigned value scope (some found) store where
  named name store held hk := by
    cases hs : NodeFrame.typeScope store held scope name <;>
      simp only [NodeFrame.resume, NodeFrame.assign, hk, hs]
  pushed store held hk := by
    simp only [NodeFrame.resume, NodeFrame.assign]
  value _ _ _ := rfl
  awaits := .owner

/-! ## Collecting arguments -/

/-- The next argument and those after it. -/
theorem of_cons_eq_drop {args rest : List Node} {arg : Node} {count : Nat}
    (h : arg :: rest = args.drop count) :
    args[count]? = some arg ∧ rest = args.drop (count + 1) := by
  constructor
  · rw [← List.head?_drop, ← h, List.head?_cons]
  · rw [← List.tail_drop, ← h, List.tail_cons]

/-- `step` is what a frame does when some values of `args` are known: it asks for the next
one in `scope`, and goes on with one more value.  Meanwhile it holds `own` and the
values. -/
def Collects (host : Host σ τ) (outside : Held) (below own : List Ref) (scope : ScopeId)
    (args : List Node) (step : List Constant → Held → World σ → Resumed σ τ) : Prop :=
  ∀ (values : List Constant) (held : Held) (world : World σ) (arg : Node),
    args[values.length]? = some arg →
    ∃ frame, step values held world = ⟨frame, world, .ok (.push (.node arg scope))⟩ ∧
      frame.refs host = own ++ values.flatMap Constant.refs ∧
      AwaitsValue frame ∧
      ∀ (world' : World σ) (value : Constant),
        frame.next host outside below world' (some (.value value)) =
          step (values ++ [value])
            (holding outside (own ++ values.flatMap Constant.refs) below value.refs) world'

/-- A call of a function with the values of its first arguments. -/
def callStep (name : String) (args : List Node) (token : Token) (scope : ScopeId)
    (values : List Constant) (held : Held) (world : World σ) : Resumed σ τ :=
  ofProgress ⟨.call name args, token⟩ scope world.context
    (NodeFrame.call name args scope world.store held (.arguments values false) none)

/-- The creation of an object with the values of its first arguments. -/
def createStep (className : String) (args : List Node) (token : Token) (scope : ScopeId)
    (values : List Constant) (held : Held) (world : World σ) : Resumed σ τ :=
  ofProgress ⟨.create className args, token⟩ scope world.context
    (NodeFrame.create className args scope world.store held (.arguments values false) none)

/-- A call of a member with the values of its first arguments. -/
def memberStep (target : Node) (name : String) (args : List Node) (inner token : Token)
    (scope found : ScopeId) (values : List Constant) (held : Held) (world : World σ) :
    Resumed σ τ :=
  ofProgress ⟨.member target ⟨.call name args, inner⟩, token⟩ scope world.context
    (NodeFrame.access ⟨.call name args, inner⟩ scope world.store held found values false none)

theorem collects_call (name : String) (args : List Node) (token : Token) (scope : ScopeId) :
    Collects host outside below [.scope scope] scope args (callStep name args token scope) := by
  intro values held world arg harg
  refine ⟨.node ⟨⟨.call name args, token⟩, scope, .arguments values false⟩, ?_, rfl, ?_, ?_⟩
  · simp only [callStep, ofProgress, NodeFrame.call, NodeFrame.knownArguments,
      NodeFrame.takeArgument, harg]
  · exact .callArgument
  · intro world' value
    rfl

theorem collects_create (className : String) (args : List Node) (token : Token)
    (scope : ScopeId) :
    Collects host outside below [.scope scope] scope args
      (createStep className args token scope) := by
  intro values held world arg harg
  refine ⟨.node ⟨⟨.create className args, token⟩, scope, .arguments values false⟩, ?_, rfl, ?_, ?_⟩
  · simp only [createStep, ofProgress, NodeFrame.create, NodeFrame.knownArguments,
      NodeFrame.takeArgument, harg]
  · exact .createArgument
  · intro world' value
    rfl

theorem collects_member (target : Node) (name : String) (args : List Node) (inner token : Token)
    (scope found : ScopeId) :
    Collects host outside below [.scope scope, .scope found] scope args
      (memberStep target name args inner token scope found) := by
  intro values held world arg harg
  refine ⟨.node ⟨⟨.member target ⟨.call name args, inner⟩, token⟩, scope,
    .member found values false⟩, ?_, rfl, ?_, ?_⟩
  · simp only [memberStep, ofProgress, NodeFrame.access, NodeFrame.takeArgument, harg]
  · exact .memberArgument
  · intro world' value
    rfl

/-! ### After the last argument -/

section Collected

variable {name : String} {args : List Node} {token inner : Token} {scope found place : ScopeId}
  {values : List Constant} {held : Held} {world : World σ} {function : Function} {target : Node}

variable (hall : args.length ≤ values.length)

include hall

theorem callStep_error (h : world.store.function? held scope name = none) :
    callStep name args token scope values held world =
      (⟨.node ⟨⟨.call name args, token⟩, scope, .arguments values false⟩, world,
        .error (.undefinedName (.functionName name))⟩ : Resumed σ τ) := by
  simp only [callStep, ofProgress, NodeFrame.call, NodeFrame.knownArguments,
    NodeFrame.takeArgument, List.getElem?_eq_none hall, h]

theorem callStep_push (h : world.store.function? held scope name = some (function, place)) :
    callStep name args token scope values held world =
      (⟨.node ⟨⟨.call name args, token⟩, scope, .arguments [] true⟩, world,
        .ok (.push (.call (.ofArguments function values (function.callParent place))))⟩ :
        Resumed σ τ) := by
  simp only [callStep, ofProgress, NodeFrame.call, NodeFrame.knownArguments,
    NodeFrame.takeArgument, List.getElem?_eq_none hall, h]

theorem memberStep_error (h : world.store.memberFunction? held found name = none) :
    memberStep target name args inner token scope found values held world =
      (⟨.node ⟨⟨.member target ⟨.call name args, inner⟩, token⟩, scope,
          .member found values false⟩, world,
        .error (.undefinedName (.functionName name))⟩ : Resumed σ τ) := by
  simp only [memberStep, ofProgress, NodeFrame.access, NodeFrame.takeArgument,
    List.getElem?_eq_none hall, h]

theorem memberStep_push (h : world.store.memberFunction? held found name = some (function, place)) :
    memberStep target name args inner token scope found values held world =
      (⟨.node ⟨⟨.member target ⟨.call name args, inner⟩, token⟩, scope,
          .member found [] true⟩, world,
        .ok (.push (.call (.ofArguments function values (function.callParent place))))⟩ :
        Resumed σ τ) := by
  simp only [memberStep, ofProgress, NodeFrame.access, NodeFrame.takeArgument,
    List.getElem?_eq_none hall, h]

theorem createStep_error (h : world.store.class? held scope name = none) :
    createStep name args token scope values held world =
      (⟨.node ⟨⟨.create name args, token⟩, scope, .arguments values false⟩, world,
        .error (if (world.store.behaviour? held scope name).isSome then
            .type (.newBehaviour name)
          else .undefinedName (.className name))⟩ : Resumed σ τ) := by
  simp only [createStep, ofProgress, NodeFrame.create, NodeFrame.knownArguments,
    NodeFrame.takeArgument, List.getElem?_eq_none hall, h]

theorem createStep_planned {id : ClassId} (h : world.store.class? held scope name = some id) :
    createStep name args token scope values held world =
      (⟨.node ⟨⟨.create name args, token⟩, scope, .arguments [] true⟩,
        ⟨(Construction.ofClass world.store held id values).2, world.context⟩,
        (Construction.ofClass world.store held id values).1.map fun construction =>
          .push (.construct construction)⟩ : Resumed σ τ) := by
  simp only [createStep, ofProgress, NodeFrame.create, NodeFrame.knownArguments,
    NodeFrame.takeArgument, List.getElem?_eq_none hall, h]

end Collected

end Frame

end StepScript
