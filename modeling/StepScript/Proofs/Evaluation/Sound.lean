import StepScript.Proofs.Evaluation.Waiting
set_option autoImplicit false

/-!
# Frames come to the direct answer

Whatever the direct evaluation answers, the frame that does the same work comes to, when it
is run on its own (`yields_of_eval`).  The proof goes along the recursion of the evaluator, one
case for each of its functions, and in `evalNode` one for each kind of node.
-/

namespace StepScript

open Direct

variable {σ τ : Type} {host : Host σ τ} {outside : Held}

namespace Frame

/-- Whatever frame has been resumed to this point comes to the answer. -/
def Follows (host : Host σ τ) (outside : Held) (below : List Ref) (resumed : Resumed σ τ)
    (answer : Answer σ) : Prop :=
  ∀ (frame : Frame τ) (world : World σ) (incoming : Option Outcome),
    frame.next host outside below world incoming = resumed →
    Yields host outside below frame world incoming answer

section Follows

variable {below : List Ref} {frame : Frame τ} {world world' : World σ}
  {incoming : Option Outcome} {answer : Answer σ} {work : Work} {outcome : Outcome}
  {fault : Error} {result : Except Error Outcome} {value : Constant}

theorem Follows.yields (h : Follows host outside below
    (frame.next host outside below world incoming) answer) :
    Yields host outside below frame world incoming answer :=
  h frame world incoming rfl

theorem Follows.done :
    Follows host outside below ⟨frame, world, .ok (.done outcome)⟩ (.ok outcome, world) :=
  fun _ _ _ hn => Yields.done hn

theorem Follows.error :
    Follows host outside below ⟨frame, world, .error fault⟩ (.error fault, world) :=
  fun _ _ _ hn => Yields.error hn

theorem Follows.of_except {computed : Except Error Constant} :
    Follows host outside below ⟨frame, world, computed.map .give⟩
      (computed.map .value, world) :=
  fun _ _ _ hn => Yields.of_except hn

theorem Follows.of_effect {done : Except Error Unit} :
    Follows host outside below ⟨frame, world, done.map fun _ => .give .none⟩
      (done.map fun _ => .value .none, world) := by
  cases done with
  | error fault => exact Follows.error
  | ok _ => exact Follows.done

theorem Follows.yield
    (hr : Yields host outside below frame world none answer) :
    Follows host outside below ⟨frame, world, .ok .yield⟩ answer :=
  fun _ _ _ hn => Yields.yield hn hr

theorem Follows.push
    (hw : Yields host outside (frame.refs host ++ below) (.ofWork work) world none
      (.ok outcome, world'))
    (hr : Follows host outside below
      (frame.next host outside below world' (some outcome)) answer) :
    Follows host outside below ⟨frame, world, .ok (.push work)⟩ answer :=
  fun _ _ _ hn => Yields.push hn hw hr.yields

theorem Follows.push_error
    (hw : Yields host outside (frame.refs host ++ below) (.ofWork work) world none
      (.error fault, world')) :
    Follows host outside below ⟨frame, world, .ok (.push work)⟩ (.error fault, world') :=
  fun _ _ _ hn => Yields.push_error hn hw

theorem Follows.value_error
    (hw : Yields host outside (frame.refs host ++ below) (.ofWork work) world none
      (result, world'))
    (hv : valueOf result = .error fault) (haw : AwaitsValue frame) :
    Follows host outside below ⟨frame, world, .ok (.push work)⟩ (.error fault, world') :=
  fun _ _ _ hn => Yields.value_error hn hw hv haw.needsValue

theorem Follows.value_ok
    (hw : Yields host outside (frame.refs host ++ below) (.ofWork work) world none
      (result, world'))
    (hv : valueOf result = .ok value)
    (hr : Follows host outside below
      (frame.next host outside below world' (some (.value value))) answer) :
    Follows host outside below ⟨frame, world, .ok (.push work)⟩ answer :=
  fun _ _ _ hn => Yields.value_ok hn hw hv hr.yields

/-- An evaluation that needs the value of a part fails with the part or goes on with the value. -/
theorem Follows.of_value {sub : Option (Answer σ)}
    {rest : Answer σ → Constant → Option (Answer σ)}
    (h : (sub >>= fun found => match valueOf found.1 with
      | .error fault => some (.error fault, found.2)
      | .ok value => rest found value) = some answer)
    (hw : ∀ answer, sub = some answer →
      Yields host outside (frame.refs host ++ below) (.ofWork work) world none answer)
    (haw : AwaitsValue frame)
    (hr : ∀ result world' value, rest (result, world') value = some answer →
      Follows host outside below (frame.next host outside below world' (some (.value value)))
        answer) :
    Follows host outside below ⟨frame, world, .ok (.push work)⟩ answer := by
  obtain ⟨⟨result, world'⟩, hsub, h⟩ := Option.bind_eq_some_iff.mp h
  cases hv : valueOf result with
  | error fault =>
    simp only [hv] at h
    obtain rfl := Option.some.inj h
    exact Follows.value_error (hw _ hsub) hv haw
  | ok value =>
    simp only [hv] at h
    exact Follows.value_ok (hw _ hsub) hv (hr _ _ _ h)

/-- The last value that a frame waits for decides its answer. -/
theorem Follows.value_last {compute : Constant → Except Error Constant}
    (hw : Yields host outside (frame.refs host ++ below) (.ofWork work) world none
      (result, world'))
    (haw : AwaitsValue frame)
    (hl : ∀ value, Follows host outside below
      (frame.next host outside below world' (some (.value value)))
      ((compute value).map .value, world')) :
    Follows host outside below ⟨frame, world, .ok (.push work)⟩
      (((valueOf result).bind compute).map .value, world') := by
  cases hv : valueOf result with
  | error fault => exact Follows.value_error hw hv haw
  | ok value => exact Follows.value_ok hw hv (hl value)

theorem Follows.number_error
    (hw : Yields host outside (frame.refs host ++ below) (.ofWork work) world none
      (result, world'))
    (hn : numberOf result = .error fault) (haw : AwaitsNumber frame) :
    Follows host outside below ⟨frame, world, .ok (.push work)⟩ (.error fault, world') := by
  obtain hv | ⟨value, hv, hn⟩ := of_numberOf_error hn
  · exact Follows.value_error hw hv haw.awaitsValue
  · refine Follows.value_ok hw hv ?_
    rw [haw.next_error world' hn]
    exact Follows.error

/-- A frame that passes the outcome of its work on. -/
theorem Follows.forward
    (hw : Yields host outside (frame.refs host ++ below) (.ofWork work) world none answer)
    (hp : ∀ outcome world', ∃ frame',
      frame.next host outside below world' (some outcome) =
        ⟨frame', world', .ok (.done outcome)⟩) :
    Follows host outside below ⟨frame, world, .ok (.push work)⟩ answer := by
  obtain ⟨result, world'⟩ := answer
  cases result with
  | error fault => exact Follows.push_error hw
  | ok outcome =>
    obtain ⟨frame', hd⟩ := hp outcome world'
    exact Follows.push hw (hd ▸ Follows.done)

end Follows

section Motives

variable (host : Host σ τ) (outside : Held)

/-- A node comes to the answer. -/
def NodeYields (below : List Ref) (node : Node) (scope : ScopeId) (world : World σ)
    (answer : Answer σ) : Prop :=
  Yields host outside below (.node ⟨node, scope, .start⟩) world none answer

/-- A `for` loop that asks for its bound comes to the answer. -/
def RoundsFollow (below : List Ref) (loop : Counting) (world : World σ) (answer : Answer σ) :
    Prop :=
  ∀ first token, Follows host outside below
    (ofProgress ⟨.forLoop loop.var first loop.last loop.step loop.body, token⟩ loop.scope
      world.context
      ⟨.bound loop.inner, world.store, .ok (.push (.node loop.last loop.inner))⟩) answer

/-- A `for` loop whose bound and step are known comes to the answer. -/
def RoundFollows (below : List Ref) (loop : Counting) (limit pace : Constant) (held : Held)
    (world : World σ) (answer : Answer σ) : Prop :=
  ∀ first token, Follows host outside below
    (ofProgress ⟨.forLoop loop.var first loop.last loop.step loop.body, token⟩ loop.scope
      world.context
      (NodeFrame.beginRound loop.var loop.body loop.inner limit pace world.store held)) answer

/-- An assignment that evaluates its value comes to the answer. -/
def AssignedFollows (below : List Ref) (target value : Node) (scope : ScopeId)
    (found : Option ScopeId) (world : World σ) (answer : Answer σ) : Prop :=
  ∀ token, Follows host outside below
    (ofProgress ⟨.assign target value, token⟩ scope world.context
      (NodeFrame.evaluateAssigned value scope found world.store)) answer

/-- Statements of which the first have run come to the answer. -/
def StatementsFollow (below : List Ref) (scope : ScopeId) (last : Option Constant)
    (rest : List Node) (world : World σ) (answer : Answer σ) : Prop :=
  ∀ node body count, (node.kind = .block body ∨ ∃ name, node.kind = .file name body) →
    rest = body.drop count → Follows host outside below
      (ofProgress node scope world.context
        (NodeFrame.statements body scope world.store (.statements count last) none)) answer

/-- A construction with steps left comes to the answer. -/
def ConstructFollows (below came : List Ref) (object : ObjectRef)
    (steps : List ConstructionStep) (world : World σ) (answer : Answer σ) : Prop :=
  Follows host outside below
    (ofConstruction world.context
      (Construction.proceed (holding outside [.object object] below came) object steps
        world.store)) answer

/-- A call whose parameters are bound comes to the answer. -/
def BodyYields (below : List Ref) (function : Function) (parent scope : ScopeId)
    (world : World σ) (answer : Answer σ) : Prop :=
  Yields host outside below (.call ⟨function, parent, .ready scope⟩) world none answer

/-- A call comes to the answer. -/
def CallYields (below : List Ref) (function : Function) (args : List Constant)
    (parent : ScopeId) (world : World σ) (answer : Answer σ) : Prop :=
  Yields host outside below (.call ⟨function, parent, .bind args⟩) world none answer

/-- A call with parameters left comes to the answer. -/
def DefaultsFollow (below : List Ref) (function : Function) (parent scope : ScopeId)
    (left : List (String × Node)) (world : World σ) (answer : Answer σ) : Prop :=
  ∀ stage, Follows host outside below
    (ofCall world.context (Call.fillNext ⟨function, parent, stage⟩ world.store scope left))
    answer

/-- A frame that collects arguments fails with the answer, or it comes to whatever follows
from the values. -/
def ArgumentsFollow (below own : List Ref) (held : Held) (scope : ScopeId)
    (values : List Constant) (rest : List Node) (world : World σ)
    (found : Except Error (List Constant × Held) × World σ) : Prop :=
  ∀ args step, Collects host outside below own scope args step →
    rest = args.drop values.length →
    match found with
    | (.error fault, world') => Follows host outside below (step values held world)
        (.error fault, world')
    | (.ok (values', held'), world') =>
      args.length ≤ values'.length ∧
        ∀ answer, Follows host outside below (step values' held' world') answer →
          Follows host outside below (step values held world) answer

/-- An access to a member comes to the answer. -/
def AccessFollows (below came : List Ref) (member : Node) (scope found : ScopeId)
    (world : World σ) (answer : Answer σ) : Prop :=
  ∀ target token, Follows host outside below
    (ofProgress ⟨.member target member, token⟩ scope world.context
      (NodeFrame.access member scope world.store (holding outside [.scope scope] below came)
        found [] false none)) answer

/-- A frame that resolves the owner of a member fails with the answer, or it comes to
whatever follows from the scope. -/
def OwnerFollows (below : List Ref) (target : Node) (scope : ScopeId) (world : World σ)
    (found : Except Error (ScopeId × List Ref) × World σ) : Prop :=
  ∀ node after, Resolves target scope node after →
    match found with
    | (.error fault, world') =>
      Follows host outside below
        (next host outside below (.node ⟨node, scope, .start⟩) world none)
        (.error fault, world')
    | (.ok (place, came), world') =>
      ∀ answer, Follows host outside below
        (ofProgress node scope world'.context
          (after place (holding outside [.scope scope] below came) world'.store)) answer →
        Follows host outside below
          (next host outside below (.node ⟨node, scope, .start⟩) world none) answer

end Motives

/-- Everything that the direct evaluation answers, the frames come to. -/
theorem yields_of_eval (host : Host σ τ) (outside : Held) :
    (∀ below node scope world answer,
      evalNode host outside below node scope world = some answer →
        NodeYields host outside below node scope world answer) ∧
    (∀ below function args parent world answer,
      evalCall host outside below function args parent world = some answer →
        CallYields host outside below function args parent world answer) := by
  have all := evalNode.mutual_partial_correctness host outside
    (NodeYields host outside) (RoundsFollow host outside) (RoundFollows host outside)
    (AssignedFollows host outside) (StatementsFollow host outside) (ConstructFollows host outside)
    (BodyYields host outside) (CallYields host outside) (DefaultsFollow host outside)
    (ArgumentsFollow host outside) (AccessFollows host outside) (OwnerFollows host outside)
    ?node ?rounds ?round ?assigned ?statements ?construct ?body ?call ?defaults ?arguments
    ?access ?owner
  case node =>
    intro evalNode evalRounds evalAssigned evalStatements construct evalCall evalArguments
      evalAccess evalOwner ihNode ihRounds ihAssigned ihStatements ihConstruct ihCall ihArguments
      ihAccess ihOwner below node scope world answer h
    obtain ⟨kind, token⟩ := node
    apply Follows.yields
    cases kind with
    | literal value =>
      cases value <;> obtain rfl := Option.some.inj h
      case identifier name => exact Follows.of_except
      all_goals exact Follows.done
    | typeName name =>
      obtain rfl := Option.some.inj h
      exact Follows.of_except
    | unary op operand =>
      obtain ⟨⟨result, world'⟩, hsub, h⟩ := Option.bind_eq_some_iff.mp h
      obtain rfl := Option.some.inj h
      exact Follows.value_last (ihNode _ _ _ _ _ hsub) .unary fun value => Follows.of_except
    | binary op lhs rhs =>
      dsimp only at h
      refine Follows.of_value h (ihNode _ _ _ _) .lhs fun _ world' l h => ?_
      obtain ⟨⟨right, world''⟩, hrg, h⟩ := Option.bind_eq_some_iff.mp h
      obtain rfl := Option.some.inj h
      refine Follows.value_last (ihNode _ _ _ _ _ hrg) .rhs fun value => ?_
      exact Follows.yield (Follows.of_except).yields
    | member target member =>
      obtain ⟨⟨found, world'⟩, ho, h⟩ := Option.bind_eq_some_iff.mp h
      have yowner := ihOwner _ _ _ _ _ ho _ _ (resolves_member target member token scope)
      rcases found with fault | ⟨place, came⟩
      · obtain rfl := Option.some.inj h
        exact yowner
      · exact yowner _ (ihAccess _ _ _ _ _ _ _ h _ _)
    | call name args =>
      obtain ⟨⟨found, world'⟩, har, h⟩ := Option.bind_eq_some_iff.mp h
      have yargs := ihArguments _ _ _ _ _ _ _ _ har args (callStep name args token scope)
        (collects_call name args token scope) rfl
      rcases found with fault | ⟨values, held⟩
      · obtain rfl := Option.some.inj h
        exact yargs
      obtain ⟨hall, hr⟩ := yargs
      apply hr
      dsimp only at h
      split at h
      · next hfn =>
        obtain rfl := Option.some.inj h
        rw [callStep_error hall hfn]
        exact Follows.error
      · next function place hfn =>
        rw [callStep_push hall hfn]
        exact Follows.forward (ihCall _ _ _ _ _ _ h) fun _ _ => ⟨_, rfl⟩
    | create className args =>
      obtain ⟨⟨found, world'⟩, har, h⟩ := Option.bind_eq_some_iff.mp h
      have yargs := ihArguments _ _ _ _ _ _ _ _ har args
        (createStep className args token scope) (collects_create className args token scope) rfl
      rcases found with fault | ⟨values, held⟩
      · obtain rfl := Option.some.inj h
        exact yargs
      obtain ⟨hall, hr⟩ := yargs
      apply hr
      dsimp only at h
      split at h
      · next hc =>
        obtain rfl := Option.some.inj h
        rw [createStep_error hall hc]
        exact Follows.error
      · next id hc =>
        rw [createStep_planned hall hc]
        split at h
        · next fault store hp =>
          obtain rfl := Option.some.inj h
          rw [hp]
          exact Follows.error
        · next construction store hp =>
          rw [hp]
          refine Follows.forward (Follows.yields ?_) fun _ _ => ⟨_, rfl⟩
          exact ihConstruct _ _ _ _ _ _ h
    | block body => exact ihStatements _ _ _ _ _ _ h ⟨.block body, token⟩ body 0 (.inl rfl) rfl
    | file name body =>
      exact ihStatements _ _ _ _ _ _ h ⟨.file name body, token⟩ body 0 (.inr ⟨name, rfl⟩) rfl
    | assign target value =>
      obtain ⟨kind, inner⟩ := target
      dsimp only at h
      split at h
      · next object member =>
        obtain ⟨⟨found, world'⟩, ho, h⟩ := Option.bind_eq_some_iff.mp h
        have yowner := ihOwner _ _ _ _ _ ho _ _
          (resolves_assign object member value inner token scope)
        rcases found with fault | ⟨place, came⟩
        · obtain rfl := Option.some.inj h
          exact yowner
        · exact yowner _ (ihAssigned _ _ _ _ _ _ _ h token)
      · next hk =>
        simp only [next_node, NodeFrame.resume, NodeFrame.assign]
        exact ihAssigned _ _ _ _ _ _ _ h token
    | branch condition thenBranch elseBranch =>
      dsimp only at h
      refine Follows.of_value h (ihNode _ _ _ _) .branch fun _ world' value h => ?_
      simp only [next_node, NodeFrame.resume, NodeFrame.branch, Outcome.receivedValue, bind,
        Except.bind]
      split at h
      · next ht =>
        rw [if_pos ht]
        exact Follows.forward (ihNode _ _ _ _ _ h) fun _ _ => ⟨_, rfl⟩
      · next hfl =>
        rw [if_neg hfl]
        cases elseBranch with
        | none =>
          obtain rfl := Option.some.inj h
          exact Follows.done
        | some other => exact Follows.forward (ihNode _ _ _ _ _ h) fun _ _ => ⟨_, rfl⟩
    | whileLoop condition body =>
      dsimp only at h
      refine Follows.of_value h (ihNode _ _ _ _) .whileLoop fun _ world' value h => ?_
      simp only [next_node, NodeFrame.resume, NodeFrame.whileLoop, Outcome.receivedValue]
      split at h
      · next ht =>
        rw [if_pos ht]
        obtain ⟨⟨result, world''⟩, hsub, h⟩ := Option.bind_eq_some_iff.mp h
        have ybody := ihNode _ _ _ _ _ hsub
        rcases result with fault | value | value | _ | _
        · obtain rfl := Option.some.inj h
          exact Follows.push_error ybody
        · exact Follows.push ybody (Follows.yield (ihNode _ _ _ _ _ h))
        · obtain rfl := Option.some.inj h
          exact Follows.push ybody Follows.done
        · obtain rfl := Option.some.inj h
          exact Follows.push ybody Follows.done
        · exact Follows.push ybody (Follows.yield (ihNode _ _ _ _ _ h))
      · next hfl =>
        rw [if_neg hfl]
        obtain rfl := Option.some.inj h
        exact Follows.done
    | repeatLoop body condition =>
      obtain ⟨⟨result, world'⟩, hsub, h⟩ := Option.bind_eq_some_iff.mp h
      have ybody := ihNode _ _ _ _ _ hsub
      rcases result with fault | outcome
      · obtain rfl := Option.some.inj h
        exact Follows.push_error ybody
      refine Follows.push ybody ?_
      cases outcome
      case giveBack | breakLoop =>
        obtain rfl := Option.some.inj h
        exact Follows.done
      all_goals
        dsimp only at h
        refine Follows.of_value h (ihNode _ _ _ _) .repeatLoop fun _ world'' value h => ?_
        simp only [next_node, NodeFrame.resume, NodeFrame.repeatLoop, Outcome.receivedValue]
        split at h
        · next ht =>
          rw [if_pos ht]
          obtain rfl := Option.some.inj h
          exact Follows.done
        · next hfl =>
          rw [if_neg hfl]
          exact Follows.yield (ihNode _ _ _ _ _ h)
    | forLoop var first last step body =>
      obtain ⟨⟨result, world'⟩, hsub, h⟩ := Option.bind_eq_some_iff.mp h
      have yfirst := ihNode _ _ _ _ _ hsub
      dsimp only at h
      split at h
      · next fault hn =>
        obtain rfl := Option.some.inj h
        exact Follows.number_error yfirst hn .first
      · next value hn =>
        obtain ⟨hv, number, hn⟩ := of_numberOf_ok hn
        refine Follows.value_ok yfirst hv ?_
        simp only [next_node, NodeFrame.resume, NodeFrame.forLoop, Outcome.receivedValue, bind,
          Except.bind, hn]
        exact ihRounds _ _ _ _ h first token
    | giveBack value =>
      cases value with
      | none =>
        obtain rfl := Option.some.inj h
        exact Follows.done
      | some value =>
        obtain ⟨⟨result, world'⟩, hsub, h⟩ := Option.bind_eq_some_iff.mp h
        obtain rfl := Option.some.inj h
        have yvalue := ihNode _ _ _ _ _ hsub
        cases hv : valueOf result with
        | error fault => exact Follows.value_error yvalue hv .giveBack
        | ok value => exact Follows.value_ok yvalue hv Follows.done
    | waitForUpdate => cases h
    | _ =>
      obtain rfl := Option.some.inj h
      exact Follows.done
  case rounds =>
    intro evalNode evalRound ihNode ihRound below loop world answer h first token
    obtain ⟨var, last, step, body, scope, inner⟩ := loop
    obtain ⟨⟨result, world'⟩, hl, h⟩ := Option.bind_eq_some_iff.mp h
    have ylast := ihNode _ _ _ _ _ hl
    dsimp only at h
    split at h
    · next fault hn =>
      obtain rfl := Option.some.inj h
      exact Follows.number_error ylast hn .bound
    · next limit hn =>
      obtain ⟨hv, number, hn⟩ := of_numberOf_ok hn
      refine Follows.value_ok ylast hv ?_
      simp only [next_node, NodeFrame.resume, NodeFrame.forLoop, Outcome.receivedValue, bind,
        Except.bind, hn]
      cases step with
      | none => exact ihRound _ _ _ _ _ _ _ h first token
      | some step =>
        exact Follows.of_value h (ihNode _ _ _ _) .step fun _ _ _ h =>
          ihRound _ _ _ _ _ _ _ h first token
  case round =>
    intro evalNode evalRounds ihNode ihRounds below loop limit pace held world answer h first token
    split at h
    · next fault hrn =>
      obtain rfl := Option.some.inj h
      simp only [NodeFrame.beginRound, hrn]
      exact Follows.error
    · next hrn =>
      obtain rfl := Option.some.inj h
      simp only [NodeFrame.beginRound, hrn]
      exact Follows.done
    · next hrn =>
      simp only [NodeFrame.beginRound, hrn]
      obtain ⟨⟨result, world'⟩, hb, h⟩ := Option.bind_eq_some_iff.mp h
      have ybody := ihNode _ _ _ _ _ hb
      rcases result with fault | outcome
      · obtain rfl := Option.some.inj h
        exact Follows.push_error ybody
      refine Follows.push ybody ?_
      cases outcome
      case giveBack | breakLoop =>
        obtain rfl := Option.some.inj h
        exact Follows.done
      all_goals
        rw [next_rounds _ (by simp)]
        dsimp only at h
        split at h
        · next fault hn =>
          obtain rfl := Option.some.inj h
          simp only [Counting.refs] at hn
          simp only [hn]
          exact Follows.error
        · next number hn =>
          simp only [Counting.refs] at hn
          simp only [hn]
          refine Follows.yield (Follows.yields ?_)
          exact ihRounds _ _ _ _ h first token
  case assigned =>
    intro evalNode ihNode below target value scope found world answer h token
    dsimp only at h
    refine Follows.of_value h (ihNode _ _ _ _) .assigned fun _ _ _ h => ?_
    obtain rfl := Option.some.inj h
    exact Follows.of_effect
  case statements =>
    intro evalNode evalStatements ihNode ihStatements below scope last rest world answer h
      node body count hb hr
    cases rest with
    | nil =>
      obtain rfl := Option.some.inj h
      have hend : body[count]? = none := List.getElem?_eq_none (List.drop_eq_nil_iff.mp hr.symm)
      simp only [NodeFrame.statements, hend]
      exact Follows.done
    | cons statement rest =>
      obtain ⟨hst, hr⟩ := of_cons_eq_drop hr
      simp only [NodeFrame.statements, hst]
      obtain ⟨⟨result, world'⟩, hsub, h⟩ := Option.bind_eq_some_iff.mp h
      have ystatement := ihNode _ _ _ _ _ hsub
      obtain ⟨kind, token⟩ := node
      rcases result with fault | outcome
      · obtain rfl := Option.some.inj h
        exact Follows.push_error ystatement
      refine Follows.push ystatement ?_
      rcases hb with hb | ⟨name, hb⟩ <;> obtain rfl := hb
      all_goals
        cases outcome
        case value value =>
          refine Follows.yield (Follows.yields ?_)
          exact ihStatements _ _ _ _ _ _ h ⟨_, token⟩ body (count + 1) (by simp) hr
        all_goals
          obtain rfl := Option.some.inj h
          exact Follows.done
  case construct =>
    intro evalNode construct evalBody ihNode ihConstruct ihBody below came object steps world
      answer h
    cases steps with
    | nil =>
      obtain rfl := Option.some.inj h
      exact Follows.done
    | cons first rest =>
      cases first with
      | parameter scope name initial =>
        dsimp only at h
        exact Follows.of_value h (ihNode _ _ _ _) .parameter fun _ _ _ h =>
          ihConstruct _ _ _ _ _ _ h
      | property scope name initial =>
        simp only [ConstructFollows, Construction.proceed]
        dsimp only at h
        split at h
        · next hbd =>
          rw [if_pos hbd]
          exact ihConstruct _ _ _ _ _ _ h
        · next hbd =>
          rw [if_neg hbd]
          cases initial with
          | none => exact ihConstruct _ _ _ _ _ _ h
          | some expression =>
            exact Follows.of_value h (ihNode _ _ _ _) .property fun _ _ _ h =>
              ihConstruct _ _ _ _ _ _ h
      | behaviour scope behaviour =>
        dsimp only at h
        split at h
        · next fault store hp =>
          obtain rfl := Option.some.inj h
          simp only [ConstructFollows, Construction.proceed, hp]
          exact Follows.error
        · next construction store hp =>
          simp only [ConstructFollows, Construction.proceed, hp]
          obtain ⟨⟨result, world'⟩, hsub, h⟩ := Option.bind_eq_some_iff.mp h
          have yattached : Yields host outside (.object object :: below)
              (.construct construction) ⟨store, world.context⟩ none (result, world') :=
            Follows.yields (ihConstruct _ _ _ _ _ _ hsub)
          dsimp only at h
          split at h
          · next fault hv =>
            obtain rfl := Option.some.inj h
            exact Follows.value_error yattached hv .behaviour
          · next attached hv =>
            refine Follows.value_ok yattached hv ?_
            exact ihConstruct _ _ _ _ _ _ h
          · next value hob hv =>
            obtain rfl := Option.some.inj h
            refine Follows.value_ok yattached hv ?_
            cases value with
            | object attached => exact (hob attached rfl).elim
            | _ => exact Follows.error
      | body constructor scope =>
        obtain ⟨⟨result, world'⟩, hsub, h⟩ := Option.bind_eq_some_iff.mp h
        have ybody := ihBody _ _ _ _ _ _ hsub
        rcases result with fault | outcome
        · obtain rfl := Option.some.inj h
          exact Follows.push_error ybody
        refine Follows.push ybody ?_
        exact ihConstruct _ _ _ _ _ _ h
      | phase =>
        refine Follows.yield (Follows.yields ?_)
        exact ihConstruct _ _ _ _ _ _ h
      | register =>
        have yrest := ihConstruct below came object rest _ _ h
        exact yrest
  case body =>
    intro evalNode ihNode below function parent scope world answer h
    apply Follows.yields
    dsimp only at h
    split at h
    · next body hb =>
      obtain ⟨⟨result, world'⟩, hsub, h⟩ := Option.bind_eq_some_iff.mp h
      have ybody := ihNode _ _ _ _ _ hsub
      obtain rfl := Option.some.inj h
      simp only [next_call, Call.resume, hb]
      cases result with
      | error fault => exact Follows.push_error ybody
      | ok outcome =>
        refine Follows.push ybody ?_
        simp only [next_call, Call.resume, Outcome.received, Function.isNative, hb]
        cases outcome with
        | breakLoop | continueLoop => exact Follows.error
        | value | giveBack => exact Follows.done
    · next hb =>
      simp only [next_call, Call.resume, hb]
      obtain ⟨result, world'⟩ := answer
      have ynative : Yields host outside
          ((function.refs ++ [.scope parent, .scope scope]) ++ below)
          (.native function scope none) world none (result, world') := by
        apply Follows.yields
        rw [next_native h]
        cases result with
        | error fault => exact Follows.error
        | ok outcome => exact Follows.done
      cases result with
      | error fault => exact Follows.push_error ynative
      | ok outcome =>
        obtain ⟨value, rfl⟩ := callNative_value h
        refine Follows.push ynative ?_
        simp only [next_call, Call.resume, Outcome.received, Function.isNative, hb]
        exact Follows.done
  case call =>
    intro evalDefaults ihDefaults below function args parent world answer h
    apply Follows.yields
    dsimp only at h
    split at h
    · next fault hbn =>
      obtain rfl := Option.some.inj h
      simp only [next_call, Call.resume, hbn]
      exact Follows.error
    · next binding hbn =>
      simp only [next_call, Call.resume, hbn]
      exact ihDefaults _ _ _ _ _ _ _ h _
  case defaults =>
    intro evalNode evalBody evalDefaults ihNode ihBody ihDefaults below function parent scope left
      world answer h stage
    cases left with
    | nil => exact Follows.yield (ihBody _ _ _ _ _ _ h)
    | cons first rest =>
      obtain ⟨param, initial⟩ := first
      dsimp only at h
      exact Follows.of_value h (ihNode _ _ _ _) .fill fun _ _ _ h => ihDefaults _ _ _ _ _ _ _ h _
  case arguments =>
    intro evalNode evalArguments ihNode ihArguments below own held scope values rest world found h
      args step hcl hr
    cases rest with
    | nil =>
      obtain rfl := Option.some.inj h
      exact ⟨List.drop_eq_nil_iff.mp hr.symm, fun _ hf => hf⟩
    | cons arg rest =>
      obtain ⟨harg, hr⟩ := of_cons_eq_drop hr
      obtain ⟨⟨result, world'⟩, hsub, h⟩ := Option.bind_eq_some_iff.mp h
      have yarg := ihNode _ _ _ _ _ hsub
      obtain ⟨frame, hs, hrf, haw, hnx⟩ := hcl values held world arg harg
      rw [← hrf] at yarg
      dsimp only at h
      split at h
      · next fault hv =>
        obtain rfl := Option.some.inj h
        dsimp only
        rw [hs]
        exact Follows.value_error yarg hv haw
      · next value hv =>
        have yrest := ihArguments _ _ _ _ _ _ _ _ h args step hcl
          (by rw [hr, List.length_append, List.length_singleton])
        obtain ⟨fault | ⟨values', held'⟩, world''⟩ := found
        · rw [hs]
          refine Follows.value_ok yarg hv ?_
          rw [hnx]
          exact yrest
        · refine ⟨yrest.1, fun answer hf => ?_⟩
          rw [hs]
          refine Follows.value_ok yarg hv ?_
          rw [hnx]
          exact yrest.2 answer hf
  case access =>
    intro evalCall evalArguments ihCall ihArguments below came member scope found world answer h
      target token
    obtain ⟨kind, inner⟩ := member
    cases kind with
    | literal value =>
      cases value
      case identifier name =>
        dsimp only at h
        split at h <;> obtain rfl := Option.some.inj h
        · next value hv =>
          simp only [NodeFrame.access, hv]
          exact Follows.done
        · next hv =>
          simp only [NodeFrame.access, hv]
          exact Follows.error
      all_goals
        obtain rfl := Option.some.inj h
        exact Follows.error
    | typeName name =>
      dsimp only at h
      split at h <;> obtain rfl := Option.some.inj h
      · next behaviour hac =>
        simp only [NodeFrame.access, hac]
        exact Follows.done
      · next hac =>
        simp only [NodeFrame.access, hac]
        exact Follows.error
    | call name args =>
      obtain ⟨⟨values, world'⟩, har, h⟩ := Option.bind_eq_some_iff.mp h
      have yargs := ihArguments _ _ _ _ _ _ _ _ har args
        (memberStep target name args inner token scope found)
        (collects_member target name args inner token scope found) rfl
      rcases values with fault | ⟨values, held⟩
      · obtain rfl := Option.some.inj h
        exact yargs
      obtain ⟨hall, hr⟩ := yargs
      apply hr
      dsimp only at h
      split at h
      · next hfn =>
        obtain rfl := Option.some.inj h
        rw [memberStep_error hall hfn]
        exact Follows.error
      · next function place hfn =>
        rw [memberStep_push hall hfn]
        exact Follows.forward (ihCall _ _ _ _ _ _ h) fun _ _ => ⟨_, rfl⟩
    | _ =>
      obtain rfl := Option.some.inj h
      exact Follows.error
  case owner =>
    intro evalNode ihNode below target scope world found h node after hrs
    dsimp only at h
    split at h
    · next name hk =>
      obtain rfl := Option.some.inj h
      simp only [next_node, Progress.refs, incomingRefs, hrs.named name _ _ hk]
      cases NodeFrame.typeScope world.store (holding outside [.scope scope] below []) scope
        name with
      | error fault => exact Follows.error
      | ok place => exact fun _ hf => hf
    · next hk =>
      obtain ⟨⟨result, world'⟩, hsub, h⟩ := Option.bind_eq_some_iff.mp h
      have ytarget := ihNode _ _ _ _ _ hsub
      obtain rfl := Option.some.inj h
      simp only [next_node, hrs.pushed _ _ hk]
      cases hv : valueOf result with
      | error fault => exact Follows.value_error ytarget hv hrs.awaits
      | ok value =>
        simp only [Except.bind]
        cases hsc : NodeFrame.memberScope world'.store value with
        | error fault =>
          refine Follows.value_ok ytarget hv ?_
          simp only [next_node, hrs.value, hsc]
          exact Follows.error
        | ok place =>
          intro answer hf
          refine Follows.value_ok ytarget hv ?_
          simp only [next_node, hrs.value, hsc]
          exact hf
  exact ⟨all.1, all.2.2.2.2.2.2.2.1⟩

end Frame

end StepScript
