import StepScript.Proofs.Safety.Constructing
set_option autoImplicit false

/-!
# Resuming a frame never fails internally

One lemma for each kind of node: a frame that can be resumed with what comes in keeps to the
rules of `Resumed.Keeps`.
-/

namespace StepScript

variable {progress : Progress} {args : List Node} {name var : String} {inLoop : Bool} {body : Node}
  {step : Option Node}

open Outcome (IsValue IsObject IsResult Suits MayGet Gets suits_value)

namespace NodeFrame

variable {role : Role} {store : Store} {held : Held} {scope : ScopeId} {incoming : Option Outcome}

/-! ## Operations -/

theorem unary_keeps {op : UnaryOp} {operand : Node} (hs : store.Fits)
    (ho : operand.Fits .expression) (h : MayGet IsValue incoming) :
    (unary op operand scope store incoming).Keeps (Suits role) (Takes role (.unary op operand)) := by
  match incoming, h with
  | none, _ => exact ⟨hs, Flow.keeps_node scope ho fun _ hot => ⟨rfl, hot⟩⟩
  | some (.value value), _ => exact ⟨hs, Flow.keeps_give (op.ordinary_apply value).safe⟩

theorem binary_keeps {op : BinaryOp} {lhs rhs : Node} (hs : store.Fits)
    (hlhs : lhs.Fits .expression) (hrhs : rhs.Fits .expression)
    (h : Takes role (.binary op lhs rhs) progress incoming) :
    (binary op lhs rhs scope store progress incoming).Keeps (Suits role)
      (Takes role (.binary op lhs rhs)) := by
  cases progress with
  | start =>
    match incoming, h with
    | none, _ => exact ⟨hs, Flow.keeps_node scope hlhs fun _ ho => ho⟩
    | some (.value l), _ => exact ⟨hs, Flow.keeps_node scope hrhs fun _ ho => ho⟩
  | left l =>
    match incoming, h with
    | none, _ => exact ⟨hs, Flow.keeps_node scope hrhs fun _ ho => ho⟩
    | some (.value r), _ => exact ⟨hs, rfl⟩
  | both l r =>
    obtain rfl : incoming = none := h
    exact ⟨hs, Flow.keeps_give (op.ordinary_apply l r).safe⟩
  | _ => exact h.elim

/-! ## Calls -/

/-- What comes in is an argument or the value of the call. -/
theorem takeArgument_cases {values : List Constant} {calling : Bool}
    (hv : MayGet IsValue incoming) (hk : Known args values calling incoming) :
    (∃ known, takeArgument values calling incoming = .ok (.inl known) ∧
      known.length ≤ args.length) ∨
    ∃ value, takeArgument values calling incoming = .ok (.inr (.value value)) := by
  match incoming, calling, hv with
  | none, _, _ => exact .inl ⟨values, rfl, hk.1⟩
  | some (.value value), true, _ => exact .inr ⟨value, rfl⟩
  | some (.value value), false, _ =>
    refine .inl ⟨values ++ [value], rfl, ?_⟩
    rw [List.length_append]
    exact hk.2 rfl rfl

/-- A call of a function of the store can begin. -/
theorem keeps_call {gives : Outcome → Prop} {takes : Option Outcome → Prop} {function : Function}
    (hf : function.Fits) (values : List Constant) (parent : ScopeId)
    (ht : ∀ outcome, IsValue outcome → takes (some outcome)) :
    Flow.Keeps gives takes (.ok (.push (.call (.ofArguments function values parent)))) :=
  ⟨IsValue, .call ⟨hf, rfl⟩, ht⟩

section

variable (hs : store.Fits)

include hs

theorem call_keeps (har : ∀ arg ∈ args, arg.Fits .expression) (hv : MayGet IsValue incoming)
    (hk : Known args (knownArguments progress).1 (knownArguments progress).2 incoming) :
    (call name args scope store held progress incoming).Keeps (Suits role)
      (Takes role (.call name args)) := by
  unfold call
  rcases takeArgument_cases hv hk with ⟨known, ht, hl⟩ | ⟨value, ht⟩
  · simp only [ht]
    split
    · next arg harg =>
      refine ⟨hs, Flow.keeps_node scope (har arg (List.mem_of_getElem? harg)) ?_⟩
      exact fun _ ho => ⟨ho, known_next harg ..⟩
    · split
      · exact ⟨hs, Flow.keeps_error (by rintro _ ⟨⟩)⟩
      · next function found hf =>
        refine ⟨hs, keeps_call (hs.function? hf) known _ ?_⟩
        exact fun _ ho => ⟨ho, known_calling ..⟩
  · simp only [ht]
    exact ⟨hs, suits_value role value⟩

/-- A member that is accessed. -/
theorem access_keeps {object member : Node} {target : ScopeId} {values : List Constant}
    {calling : Bool} (hn : Grammar.isMember member = true) (hm : member.Fits .expression)
    (hv : MayGet IsValue incoming)
    (hkn : Known (memberArguments member) values calling incoming) :
    (access member scope store held target values calling incoming).Keeps (Suits role)
      (Takes role (.member object member)) := by
  unfold access
  split
  · refine ⟨hs, ?_⟩
    dsimp only
    split
    · exact suits_value ..
    · exact Flow.keeps_error (by rintro _ ⟨⟩)
  · refine ⟨hs, ?_⟩
    dsimp only
    split
    · exact suits_value ..
    · exact Flow.keeps_error (by rintro _ ⟨⟩)
  · next name args hk =>
    obtain ⟨kind, token⟩ := member
    subst hk
    cases hm with
    | call har =>
      rcases takeArgument_cases hv hkn with ⟨known, ht, hl⟩ | ⟨value, ht⟩
      · simp only [ht]
        split
        · next arg harg =>
          refine ⟨hs, Flow.keeps_node scope (har arg (List.mem_of_getElem? harg)) ?_⟩
          exact fun _ ho => ⟨ho, known_next harg ..⟩
        · split
          · exact ⟨hs, Flow.keeps_error (by rintro _ ⟨⟩)⟩
          · next function found hf =>
            refine ⟨hs, keeps_call (hs.memberFunction? hf) known _ ?_⟩
            exact fun _ ho => ⟨ho, known_calling ..⟩
      · simp only [ht]
        exact ⟨hs, suits_value role value⟩
  · -- the parser lets no other node be a member
    next hi hty hc =>
      exfalso
      unfold Grammar.isMember at hn
      split at hn
      · next name hk => exact hi name hk
      · next name hk => exact hty name hk
      · next name args hk => exact hc name args hk
      · cases hn

theorem memberAccess_keeps {object member : Node} (hn : Grammar.isMember member = true)
    (ho : object.Fits .expression) (hm : member.Fits .expression)
    (h : Takes role (.member object member) progress incoming) :
    (memberAccess object member scope store held progress incoming).Keeps (Suits role)
      (Takes role (.member object member)) := by
  cases progress with
  | start =>
    obtain rfl : incoming = none := h
    unfold memberAccess
    dsimp only
    split
    · next name hk =>
      split
      · next error he =>
        exact ⟨hs, (ordinary_typeScope store held scope name).safe.not_internal error he⟩
      · exact access_keeps hs hn hm trivial ⟨Nat.zero_le _, by rintro ⟨⟩⟩
    · exact ⟨hs, Flow.keeps_node scope ho fun _ hot => hot⟩
  | target =>
    obtain ⟨value, rfl⟩ := Outcome.receivedValue_of_gets h
    unfold memberAccess Outcome.receivedValue
    dsimp only
    split
    · next error he => exact ⟨hs, (ordinary_memberScope store value).safe.not_internal error he⟩
    · exact access_keeps hs hn hm trivial ⟨Nat.zero_le _, by rintro ⟨⟩⟩
  | member found values calling => exact access_keeps hs hn hm h.1 h.2
  | _ => exact h.elim

theorem create_keeps (har : ∀ arg ∈ args, arg.Fits .expression) (hv : MayGet IsValue incoming)
    (hk : Known args (knownArguments progress).1 (knownArguments progress).2 incoming) :
    (create name args scope store held progress incoming).Keeps (Suits role)
      (Takes role (.create name args)) := by
  unfold create
  rcases takeArgument_cases hv hk with ⟨known, htk, hln⟩ | ⟨value, htk⟩
  · simp only [htk]
    split
    · next arg harg =>
      refine ⟨hs, Flow.keeps_node scope (har arg (List.mem_of_getElem? harg)) ?_⟩
      exact fun _ ho => ⟨ho, known_next harg ..⟩
    · split
      · refine ⟨hs, Flow.keeps_error fun fault hf => ?_⟩
        split at hf <;> cases hf
      · next id hid =>
        obtain ⟨hl, ht⟩ := @Construction.ofClass_begins store held hs id known
        refine ⟨hl, ?_⟩
        cases hp : (Construction.ofClass store held id known).1 with
        | error error =>
          rw [hp] at ht
          exact ht
        | ok construction =>
          rw [hp] at ht
          exact ⟨IsObject, .construct ht, fun _ ho => ⟨ho.isValue, known_calling ..⟩⟩
  · simp only [htk]
    exact ⟨hs, suits_value role value⟩

end

/-! ## Statements -/

/-- The next statement is due, or the block is done. -/
theorem statements_next {kind : NodeKind} {body : List Node} {count : Nat}
    {last : Option Constant} (hk : kind = .block body ∨ ∃ name, kind = .file name body)
    (hs : store.Fits) (hb : ∀ node ∈ body, node.Fits role) (hc : count ≤ body.length) :
    (statements body scope store (.statements count last) none).Keeps (Suits role)
      (Takes role kind) := by
  unfold statements
  dsimp only
  split
  · next statement hst =>
    refine ⟨hs, Flow.keeps_node scope (hb statement (List.mem_of_getElem? hst)) ?_⟩
    obtain ⟨hlt, -⟩ := List.getElem?_eq_some_iff.mp hst
    intro outcome ho
    rcases hk with rfl | ⟨name, rfl⟩ <;> exact ⟨ho, hc, fun _ => hlt⟩
  · exact ⟨hs, suits_value ..⟩

theorem statements_keeps {kind : NodeKind} {body : List Node}
    (hk : kind = .block body ∨ ∃ name, kind = .file name body) (hs : store.Fits)
    (hb : ∀ node ∈ body, node.Fits role) (h : Takes role kind progress incoming) :
    (statements body scope store progress incoming).Keeps (Suits role) (Takes role kind) := by
  have ht : Takes role (.block body) progress incoming := by
    rcases hk with rfl | ⟨name, rfl⟩ <;> exact h
  cases progress with
  | start =>
    obtain rfl : incoming = none := ht
    exact statements_next hk hs hb (Nat.zero_le _)
  | statements count last =>
    obtain ⟨hst, hc, hlt⟩ := ht
    match incoming with
    | none => exact statements_next hk hs hb hc
    | some (.value value) =>
      refine ⟨hs, ?_⟩
      rcases hk with rfl | ⟨name, rfl⟩ <;> exact ⟨trivial, hlt rfl, fun h => nomatch h⟩
    | some (.giveBack value) => exact ⟨hs, hst⟩
    | some .breakLoop => exact ⟨hs, hst⟩
    | some .continueLoop => exact ⟨hs, hst⟩
  | _ => exact ht.elim

/-- What can be assigned to is a variable, or a member with a name. -/
theorem of_isAssignable {target : Node} (h : Grammar.isAssignable target = true) :
    (∃ name, target.kind = .literal (.identifier name)) ∨
      ∃ object member name, target.kind = .member object member ∧
        member.kind = .literal (.identifier name) := by
  unfold Grammar.isAssignable at h
  split at h
  · next name hk => exact .inl ⟨name, hk⟩
  · next object member hk =>
    split at h
    · next name hm => exact .inr ⟨object, member, name, hk, hm⟩
    · cases h
  · cases h

section

variable (hs : store.Fits)

include hs

/-- A value is assigned to a variable, or to a member of a scope that has been found. -/
theorem assignTo_keeps {target : Node} {found : Option ScopeId}
    (hn : Grammar.isAssignable target = true) (hf : found.isSome = isAccess target)
    (value : Constant) :
    (assignTo target scope found store held value).2.Fits ∧
      Safe (assignTo target scope found store held value).1 := by
  rcases of_isAssignable hn with ⟨name, hk⟩ | ⟨object, member, name, hk, hm⟩
  · simp only [assignTo, hk]
    exact ⟨hs.setVariable .., .of_ok _⟩
  · simp only [isAccess, hk] at hf
    obtain ⟨place, rfl⟩ := Option.isSome_iff_exists.mp hf
    simp only [assignTo, hk, hm]
    exact ⟨hs.setMember .., .of_ok _⟩

theorem evaluateAssigned_keeps {target value : Node} {found : Option ScopeId}
    (hv : value.Fits .expression) (hf : found.isSome = isAccess target) :
    (evaluateAssigned value scope found store).Keeps (Suits role)
      (Takes role (.assign target value)) :=
  ⟨hs, Flow.keeps_node scope hv fun _ ho => ⟨ho, hf⟩⟩

theorem assign_keeps {target value : Node} (hn : Grammar.isAssignable target = true)
    (ht : target.Fits .expression) (hv : value.Fits .expression)
    (h : Takes role (.assign target value) progress incoming) :
    (assign target value scope store held progress incoming).Keeps (Suits role)
      (Takes role (.assign target value)) := by
  cases progress with
  | start =>
    obtain rfl : incoming = none := h
    obtain ⟨kind, token⟩ := target
    unfold assign
    dsimp only
    split
    · cases ht with
      | member _ ho _ =>
        split
        · next name hnm =>
          split
          · next error he =>
            exact ⟨hs, (ordinary_typeScope store held scope name).safe.not_internal error he⟩
          · exact evaluateAssigned_keeps hs hv rfl
        · exact ⟨hs, Flow.keeps_node scope ho fun _ hot => ⟨hot, rfl⟩⟩
    · next hk =>
      refine evaluateAssigned_keeps hs hv ?_
      unfold isAccess
      split
      · next object member hm => exact absurd hm (hk object member)
      · rfl
  | target =>
    obtain ⟨object, rfl⟩ := Outcome.receivedValue_of_gets h.1
    unfold assign Outcome.receivedValue
    dsimp only
    split
    · next error he => exact ⟨hs, (ordinary_memberScope store object).safe.not_internal error he⟩
    · exact evaluateAssigned_keeps hs hv h.2.symm
  | assigning found =>
    obtain ⟨result, rfl⟩ := Outcome.receivedValue_of_gets h.1
    obtain ⟨hl, hsf⟩ := @assignTo_keeps store held scope hs target found hn h.2 result
    refine ⟨hl, ?_⟩
    unfold assign Outcome.receivedValue
    dsimp only
    cases has : (assignTo target scope found store held result).1 with
    | error error => exact hsf.not_internal error has
    | ok _ => exact suits_value ..
  | _ => exact h.elim

theorem branch_keeps {condition thenBranch : Node} {elseBranch : Option Node}
    (ht : condition.Fits .expression) (hf : thenBranch.Fits role)
    (hsc : ∀ node ∈ elseBranch, node.Fits role)
    (h : Takes role (.branch condition thenBranch elseBranch) progress incoming) :
    (branch condition thenBranch elseBranch scope store progress incoming).Keeps (Suits role)
      (Takes role (.branch condition thenBranch elseBranch)) := by
  cases progress with
  | start =>
    obtain rfl : incoming = none := h
    exact ⟨hs, Flow.keeps_node scope ht fun _ ho => ho⟩
  | condition =>
    obtain ⟨value, rfl⟩ := Outcome.receivedValue_of_gets h
    refine ⟨hs, ?_⟩
    change Flow.Keeps _ _ (if value.truthy then _ else _)
    split
    · exact Flow.keeps_node scope hf fun _ ho => ho
    · cases elseBranch with
      | some other => exact Flow.keeps_node scope (hsc other rfl) fun _ ho => ho
      | none => exact suits_value ..
  | body =>
    match incoming, h with
    | some outcome, h => exact ⟨hs, h⟩
  | _ => exact h.elim

/-! ## Loops -/

theorem whileLoop_keeps {condition body : Node} (ht : condition.Fits .expression)
    (hb : body.Fits (.statement true))
    (h : Takes (.statement inLoop) (.whileLoop condition body) progress incoming) :
    (whileLoop condition body scope store progress incoming).Keeps (Suits (.statement inLoop))
      (Takes (.statement inLoop) (.whileLoop condition body)) := by
  cases progress with
  | start =>
    obtain rfl : incoming = none := h
    exact ⟨hs, Flow.keeps_node scope ht fun _ ho => ho⟩
  | condition =>
    obtain ⟨value, rfl⟩ := Outcome.receivedValue_of_gets h
    unfold whileLoop Outcome.receivedValue
    dsimp only
    split
    · exact ⟨hs, Flow.keeps_node scope hb fun _ _ => rfl⟩
    · exact ⟨hs, suits_value ..⟩
  | body =>
    match incoming, h with
    | some .breakLoop, _ => exact ⟨hs, suits_value ..⟩
    | some (.giveBack value), _ => exact ⟨hs, Outcome.suits_giveBack inLoop value⟩
    | some .continueLoop, _ => exact ⟨hs, rfl⟩
    | some (.value value), _ => exact ⟨hs, rfl⟩
  | _ => exact h.elim

theorem repeatLoop_keeps {condition body : Node} (hb : body.Fits (.statement true))
    (ht : condition.Fits .expression)
    (h : Takes (.statement inLoop) (.repeatLoop body condition) progress incoming) :
    (repeatLoop body condition scope store progress incoming).Keeps (Suits (.statement inLoop))
      (Takes (.statement inLoop) (.repeatLoop body condition)) := by
  cases progress with
  | start =>
    obtain rfl : incoming = none := h
    exact ⟨hs, Flow.keeps_node scope hb fun _ _ => rfl⟩
  | condition =>
    obtain ⟨value, rfl⟩ := Outcome.receivedValue_of_gets h
    unfold repeatLoop Outcome.receivedValue
    dsimp only
    split
    · exact ⟨hs, suits_value ..⟩
    · exact ⟨hs, rfl⟩
  | body =>
    match incoming, h with
    | some .breakLoop, _ => exact ⟨hs, suits_value ..⟩
    | some (.giveBack value), _ => exact ⟨hs, Outcome.suits_giveBack inLoop value⟩
    | some .continueLoop, _ => exact ⟨hs, Flow.keeps_node scope ht fun _ ho => ho⟩
    | some (.value value), _ => exact ⟨hs, Flow.keeps_node scope ht fun _ ho => ho⟩
  | _ => exact h.elim

theorem beginRound_keeps {first last : Node} {inner : ScopeId} {limit pace : Constant}
    (hb : body.Fits (.statement true)) :
    (beginRound var body inner limit pace store held).Keeps (Suits (.statement inLoop))
      (Takes (.statement inLoop) (.forLoop var first last step body)) := by
  unfold beginRound
  split
  · next error he => exact ⟨hs, (ordinary_hasRound ..).safe.not_internal error he⟩
  · exact ⟨hs, Flow.keeps_node inner hb fun _ _ => rfl⟩
  · exact ⟨hs, suits_value ..⟩

/-- A round is over, and the next one is due. -/
theorem forLoop_next {first last : Node} {inner : ScopeId} {limit pace : Constant}
    {outcome : Outcome} (ho : outcome = .continueLoop ∨ ∃ value, outcome = .value value) :
    (forLoop var first last step body scope store held (.rounds inner limit pace)
      (some outcome)).Keeps (Suits (.statement inLoop))
      (Takes (.statement inLoop) (.forLoop var first last step body)) := by
  have hn : Ordinary (do
      let pace ← pace.asNumber
      let number ← loopNumber store held inner var
      return number + pace) :=
    pace.ordinary_asNumber.bind fun _ => (ordinary_loopNumber ..).bind fun _ => .of_ok _
  unfold forLoop Outcome.received
  rcases ho with rfl | ⟨value, rfl⟩
  all_goals
    dsimp only
    split
    · next error he => exact ⟨hs, hn.safe.not_internal error he⟩
    · exact ⟨hs.setOwn .., rfl⟩

theorem forLoop_keeps {first last : Node} (hf : first.Fits .expression)
    (hl : last.Fits .expression) (hst : ∀ node ∈ step, node.Fits .expression)
    (hb : body.Fits (.statement true))
    (h : Takes (.statement inLoop) (.forLoop var first last step body) progress incoming) :
    (forLoop var first last step body scope store held progress incoming).Keeps
      (Suits (.statement inLoop))
      (Takes (.statement inLoop) (.forLoop var first last step body)) := by
  have hn : ∀ value : Constant, Ordinary (do let _ ← value.asNumber; return value) :=
    fun value => value.ordinary_asNumber.bind fun _ => .of_ok value
  cases progress with
  | start =>
    obtain rfl : incoming = none := h
    exact ⟨hs.newScope .., Flow.keeps_node scope hf fun _ ho => ho⟩
  | first inner =>
    obtain ⟨value, rfl⟩ := Outcome.receivedValue_of_gets h
    unfold forLoop
    dsimp only
    split
    · next error he => exact ⟨hs, (hn value).safe.not_internal error he⟩
    · exact ⟨hs.setOwn .., Flow.keeps_node inner hl fun _ ho => ho⟩
  | round inner =>
    obtain rfl : incoming = none := h
    exact ⟨hs, Flow.keeps_node inner hl fun _ ho => ho⟩
  | bound inner =>
    obtain ⟨value, rfl⟩ := Outcome.receivedValue_of_gets h
    unfold forLoop
    dsimp only
    split
    · next error he => exact ⟨hs, (hn value).safe.not_internal error he⟩
    · cases step with
      | some pace => exact ⟨hs, Flow.keeps_node inner (hst pace rfl) fun _ ho => ho⟩
      | none => exact beginRound_keeps hs hb
  | step inner limit =>
    obtain ⟨value, rfl⟩ := Outcome.receivedValue_of_gets h
    exact beginRound_keeps hs hb
  | rounds inner limit pace =>
    cases incoming with
    | none => cases h
    | some outcome =>
      cases outcome with
      | breakLoop => exact ⟨hs, suits_value ..⟩
      | giveBack value => exact ⟨hs, Outcome.suits_giveBack inLoop value⟩
      | continueLoop => exact forLoop_next hs (.inl rfl)
      | value value => exact forLoop_next hs (.inr ⟨value, rfl⟩)
  | _ => exact h.elim

theorem waitForUpdate_keeps (h : Takes role .waitForUpdate progress incoming) :
    (waitForUpdate scope store held progress).Keeps (Suits role) (Takes role .waitForUpdate) := by
  cases progress with
  | start =>
    have ht : store.newTicket.2.Fits := hs.of_eq rfl rfl
    exact ⟨ht.modifyState held scope fun state =>
      { state with waiters := state.waiters ++ [store.newTicket.1] }, rfl⟩
  | waiting ticket =>
    refine ⟨hs, ?_⟩
    unfold waitForUpdate
    dsimp only
    split
    · exact suits_value ..
    · exact rfl
  | _ => exact h.elim

/-! ## All nodes -/

theorem giveBack_keeps {value : Node} {token : Token} (hv : value.Fits .expression)
    (h : MayGet IsValue incoming) :
    (resume ⟨⟨.giveBack (some value), token⟩, scope, progress⟩ store held incoming).Keeps
      (Suits (.statement inLoop)) (Takes (.statement inLoop) (.giveBack (some value))) := by
  match incoming, h with
  | none, _ => exact ⟨hs, Flow.keeps_node _ hv fun _ ho => ⟨rfl, ho⟩⟩
  | some (.value result), _ => exact ⟨hs, Outcome.suits_giveBack inLoop result⟩

end

/-- What a call or a creation that has come so far knows of its arguments. -/
theorem known_of_takes (h : Takes role (.call name args) progress incoming) :
    MayGet IsValue incoming ∧
      Known args (knownArguments progress).1 (knownArguments progress).2 incoming := by
  cases progress with
  | start =>
    obtain rfl : incoming = none := h
    exact ⟨trivial, Nat.zero_le _, fun h => nomatch h⟩
  | arguments values calling => exact h
  | _ => exact h.elim

/-- An expression gives a value, whatever it is evaluated for. -/
theorem expression_keeps {node : Node} (hs : store.Fits) (hn : node.Fits .expression)
    (h : Takes role node.kind progress incoming) :
    (resume ⟨node, scope, progress⟩ store held incoming).Keeps (Suits role)
      (Takes role node.kind) := by
  cases hn with
  | literal value token =>
    cases value with
    | identifier name => exact ⟨hs, Flow.keeps_give (ordinary_variableValue ..).safe⟩
    | _ => exact ⟨hs, suits_value ..⟩
  | typeName name token => exact ⟨hs, Flow.keeps_give (ordinary_typeValue ..).safe⟩
  | unary inner => exact unary_keeps hs inner h.2
  | binary left right => exact binary_keeps hs left right h
  | member named outer inner => exact memberAccess_keeps hs named outer inner h
  | @call name args token each =>
    obtain ⟨hv, hk⟩ := known_of_takes h
    exact call_keeps hs each hv hk
  | @create name args token each =>
    obtain ⟨hv, hk⟩ := @known_of_takes progress args name role incoming h
    exact create_keeps hs each hv hk

/-- A node that is evaluated in a role it fits keeps to the rules of the role. -/
theorem resume_keeps {node : Node} (hs : store.Fits) (hn : node.Fits role)
    (h : Takes role node.kind progress incoming) :
    (resume ⟨node, scope, progress⟩ store held incoming).Keeps (Suits role)
      (Takes role node.kind) := by
  cases role with
  | expression => exact expression_keeps hs hn h
  | statement inLoop =>
    cases hn with
    | evaluate inner => exact expression_keeps hs inner h
    | block each => exact statements_keeps (.inl rfl) hs each h
    | assign named outer inner => exact assign_keeps hs named outer inner h
    | branch test first second => exact branch_keeps hs test first second h
    | whileLoop test inner => exact whileLoop_keeps hs test inner h
    | repeatLoop inner test => exact repeatLoop_keeps hs inner test h
    | forLoop begins ends steps inner => exact forLoop_keeps hs begins ends steps inner h
    | @giveBack _ value token inner =>
      cases value with
      | none => exact ⟨hs, Outcome.suits_giveBack inLoop .none⟩
      | some value => exact giveBack_keeps hs (inner value rfl) h.2
    | breakLoop token => exact ⟨hs, trivial⟩
    | continueLoop token => exact ⟨hs, trivial⟩
    | waitForUpdate _ token => exact waitForUpdate_keeps hs h
    | @declaration _ kind token declares =>
      cases kind
      case classDecl | behaviourDecl | functionDecl | constructorDecl | propertyDecl
          | hasBehaviour | contract | updateOrder => exact ⟨hs, suits_value ..⟩
      all_goals cases declares
    | file each => exact statements_keeps (.inr ⟨_, rfl⟩) hs each h

end NodeFrame

end StepScript
