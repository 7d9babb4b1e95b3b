import StepScript.Proofs.Evaluation.Waiting
set_option autoImplicit false

/-!
# Frames come to nothing else

Whatever a frame comes to when it is run on its own, the direct evaluation answers, as long
as no native function of the host leaves a task behind.
-/

namespace StepScript

variable {function : Function} {scope : ScopeId} {less : Nat} {token : Token}

open Direct

variable {σ τ : Type} {host : Host σ τ} {outside : Held}

namespace Frame

/-- A frame that has been resumed to this point has come to the answer. -/
def Ran (host : Host σ τ) (outside : Held) (bound : Nat) (below : List Ref)
    (resumed : Resumed σ τ) (answer : Answer σ) : Prop :=
  ∃ (frame : Frame τ) (world : World σ) (incoming : Option Outcome),
    frame.next host outside below world incoming = resumed ∧
      frame.run host outside bound below world incoming = some answer

section Ran

variable {below : List Ref} {frame : Frame τ} {world : World σ} {incoming : Option Outcome}
  {answer : Answer σ} {work : Work} {outcome : Outcome} {fault : Error} {bound : Nat}

theorem Ran.of_run (h : frame.run host outside bound below world incoming = some answer) :
    Ran host outside bound below (frame.next host outside below world incoming) answer :=
  ⟨frame, world, incoming, rfl, h⟩

theorem Ran.done (h : Ran host outside bound below ⟨frame, world, .ok (.done outcome)⟩ answer) :
    (.ok outcome, world) = answer := by
  obtain ⟨_, _, _, hn, hrun⟩ := h
  exact (answer_of_done hn hrun).symm

theorem Ran.error (h : Ran host outside bound below ⟨frame, world, .error fault⟩ answer) :
    (.error fault, world) = answer := by
  obtain ⟨_, _, _, hn, hrun⟩ := h
  exact (answer_of_error hn hrun).symm

theorem Ran.of_except {computed : Except Error Constant}
    (h : Ran host outside bound below ⟨frame, world, computed.map .give⟩ answer) :
    (computed.map .value, world) = answer := by
  obtain ⟨_, _, _, hn, hrun⟩ := h
  exact (answer_of_except hn hrun).symm

theorem Ran.of_effect {done : Except Error Unit}
    (h : Ran host outside bound below ⟨frame, world, done.map fun _ => .give .none⟩ answer) :
    (done.map fun _ => .value .none, world) = answer := by
  cases done with
  | error fault => exact h.error
  | ok _ => exact h.done

theorem Ran.not_wait (h : Ran host outside bound below ⟨frame, world, .ok .wait⟩ answer) :
    False := by
  obtain ⟨_, _, _, hn, hrun⟩ := h
  exact not_run_of_wait hn hrun

theorem Ran.yield (h : Ran host outside bound below ⟨frame, world, .ok .yield⟩ answer) :
    ∃ less < bound, frame.run host outside less below world none = some answer := by
  obtain ⟨_, _, _, hn, hrun⟩ := h
  exact rest_of_yield hn hrun

theorem Ran.push (h : Ran host outside bound below ⟨frame, world, .ok (.push work)⟩ answer) :
    ∃ less < bound, ∃ result world',
      run host outside less (frame.refs host ++ below) (.ofWork work) world none =
        some (result, world') ∧
      ((∃ fault, result = .error fault ∧ (.error fault, world') = answer) ∨
        ∃ outcome, result = .ok outcome ∧ Ran host outside less below
          (frame.next host outside below world' (some outcome)) answer) := by
  obtain ⟨_, _, _, hn, hrun⟩ := h
  obtain ⟨less, hl, result, world', hw, hr⟩ := parts_of_push hn hrun
  refine ⟨less, hl, result, world', hw, ?_⟩
  rcases hr with ⟨fault, rfl, rfl⟩ | ⟨outcome, rfl, hr⟩
  · exact .inl ⟨fault, rfl, rfl⟩
  · exact .inr ⟨outcome, rfl, .of_run hr⟩

theorem Ran.value (haw : AwaitsValue frame)
    (h : Ran host outside bound below ⟨frame, world, .ok (.push work)⟩ answer) :
    ∃ less < bound, ∃ result world',
      run host outside less (frame.refs host ++ below) (.ofWork work) world none =
        some (result, world') ∧
      ((∃ fault, valueOf result = .error fault ∧ (.error fault, world') = answer) ∨
        ∃ value, valueOf result = .ok value ∧ Ran host outside less below
          (frame.next host outside below world' (some (.value value))) answer) := by
  obtain ⟨_, _, _, hn, hrun⟩ := h
  obtain ⟨less, hl, result, world', hw, hr⟩ := parts_of_value hn haw.needsValue hrun
  refine ⟨less, hl, result, world', hw, ?_⟩
  rcases hr with ⟨fault, hv, rfl⟩ | ⟨value, hv, hr⟩
  · exact .inl ⟨fault, hv, rfl⟩
  · exact .inr ⟨value, hv, .of_run hr⟩

/-- The last value that a frame waits for decides its answer. -/
theorem Ran.value_last {compute : Constant → Except Error Constant}
    (h : Ran host outside bound below ⟨frame, world, .ok (.push work)⟩ answer)
    (haw : AwaitsValue frame)
    (hl : ∀ less world' value, Ran host outside less below
      (frame.next host outside below world' (some (.value value))) answer →
      ((compute value).map .value, world') = answer) :
    ∃ less < bound, ∃ result world',
      run host outside less (frame.refs host ++ below) (.ofWork work) world none =
        some (result, world') ∧
      (((valueOf result).bind compute).map .value, world') = answer := by
  obtain ⟨less, hls, result, world', hw, hr⟩ := h.value haw
  refine ⟨less, hls, result, world', hw, ?_⟩
  rcases hr with ⟨fault, hv, rfl⟩ | ⟨value, hv, hr⟩
  · simp only [hv]
    rfl
  · simp only [hv]
    exact hl less world' value hr

theorem Ran.number (haw : AwaitsNumber frame)
    (h : Ran host outside bound below ⟨frame, world, .ok (.push work)⟩ answer) :
    ∃ less < bound, ∃ result world',
      run host outside less (frame.refs host ++ below) (.ofWork work) world none =
        some (result, world') ∧
      ((∃ fault, numberOf result = .error fault ∧ (.error fault, world') = answer) ∨
        ∃ value number, numberOf result = .ok value ∧ value.asNumber = .ok number ∧
          Ran host outside less below
            (frame.next host outside below world' (some (.value value))) answer) := by
  obtain ⟨less, hl, result, world', hw, hr⟩ := h.value haw.awaitsValue
  refine ⟨less, hl, result, world', hw, ?_⟩
  rcases hr with ⟨fault, hv, rfl⟩ | ⟨value, hv, hr⟩
  · exact .inl ⟨fault, by simp only [numberOf, hv]; rfl, rfl⟩
  · cases hn : value.asNumber with
    | error fault =>
      rw [haw.next_error world' hn] at hr
      refine .inl ⟨fault, ?_, hr.error⟩
      simp only [numberOf, hv, bind, Except.bind, hn]
    | ok number =>
      refine .inr ⟨value, number, ?_, hn, hr⟩
      simp only [numberOf, hv, bind, Except.bind, hn]
      rfl

theorem Ran.forward
    (h : Ran host outside bound below ⟨frame, world, .ok (.push work)⟩ answer)
    (hp : ∀ outcome world', ∃ frame',
      frame.next host outside below world' (some outcome) =
        ⟨frame', world', .ok (.done outcome)⟩) :
    ∃ less < bound, run host outside less (frame.refs host ++ below) (.ofWork work) world none =
      some answer := by
  obtain ⟨less, hl, result, world', hw, hr⟩ := h.push
  refine ⟨less, hl, ?_⟩
  rcases hr with ⟨fault, rfl, rfl⟩ | ⟨outcome, rfl, hr⟩
  · exact hw
  · obtain ⟨frame', hd⟩ := hp outcome world'
    rw [hd] at hr
    exact hr.done ▸ hw

end Ran

/-! ## One function of the evaluator after the other -/

/-- The direct evaluation answers whatever is run with a smaller bound. -/
structure CompleteBelow (host : Host σ τ) (outside : Held) (bound : Nat) : Prop where
  node : ∀ less < bound, ∀ below node scope world answer,
    run host outside less below (.node ⟨node, scope, .start⟩) world none = some answer →
    evalNode host outside below node scope world = some answer
  call : ∀ less < bound, ∀ below function args parent world answer,
    run host outside less below (.call ⟨function, parent, .bind args⟩) world none = some answer →
    evalCall host outside below function args parent world = some answer
  body : ∀ less < bound, ∀ below function parent scope world answer,
    run host outside less below (.call ⟨function, parent, .ready scope⟩) world none =
      some answer →
    evalBody host outside below function parent scope world = some answer
  construct : ∀ less < bound, ∀ below construction world answer,
    run host outside less below (.construct construction) world none = some answer →
    Direct.construct host outside below [] construction.object construction.steps world = some answer

theorem native_complete (hh : host.AnswersAtOnce) {bound : Nat} {below : List Ref}
    {world : World σ} {answer : Answer σ}
    (hrun : run host outside bound below (.native function scope none) world none =
      some answer) :
    callNative host (holding outside (function.refs ++ [.scope scope]) below []) function scope
      world = some answer := by
  obtain ⟨⟨result, world'⟩, hn⟩ := exists_callNative hh
  have hran := Ran.of_run hrun
  rw [next_native hn] at hran
  rw [hn]
  cases result with
  | error fault => exact congrArg some hran.error
  | ok outcome => exact congrArg some hran.done

section Complete

variable {bound : Nat} {below : List Ref} {world : World σ} {answer : Answer σ}
  (ih : CompleteBelow host outside bound)

include ih

/-- A node has been evaluated, and the frame that waits for its value goes on with it unless there
is none. -/
theorem value_complete {frame : Frame τ} {node : Node} {place : ScopeId}
    {rest : Constant → Answer σ → Option (Answer σ)} (haw : AwaitsValue frame)
    (hl : less ≤ bound)
    (hran : Ran host outside less below ⟨frame, world, .ok (.push (.node node place))⟩ answer)
    (hr : ∀ less' < less, ∀ value found, Ran host outside less' below
      (frame.next host outside below found.2 (some (.value value))) answer →
      rest value found = some answer) :
    (do
      let found ← evalNode host outside (frame.refs host ++ below) node place world
      match valueOf found.1 with
      | .error fault => some (.error fault, found.2)
      | .ok value => rest value found) = some answer := by
  obtain ⟨less', hl', result, world', hw, hran⟩ := hran.value haw
  refine Option.bind_eq_some_iff.mpr ⟨_, ih.node less' (by omega) _ _ _ _ _ hw, ?_⟩
  rcases hran with ⟨fault, hv, han⟩ | ⟨value, hv, hran⟩
  · simp only [hv, han]
  · simp only [hv]
    exact hr less' hl' value _ hran

/-- The arguments have been collected, or one of them has decided the answer. -/
theorem arguments_complete {own : List Ref} {args : List Node}
    {step : List Constant → Held → World σ → Resumed σ τ}
    (hc : Collects host outside below own scope args step) (rest : List Node) :
    ∀ (values : List Constant) (held : Held) (world : World σ), ∀ less ≤ bound,
      rest = args.drop values.length →
      Ran host outside less below (step values held world) answer →
      (∃ fault world', evalArguments host outside below own held scope values rest world =
          some (.error fault, world') ∧ (.error fault, world') = answer) ∨
        ∃ values' held' world', evalArguments host outside below own held scope values rest world =
          some (.ok (values', held'), world') ∧ args.length ≤ values'.length ∧
          ∃ less ≤ bound, Ran host outside less below (step values' held' world') answer := by
  induction rest with
  | nil =>
    intro values held world less hl hr hran
    refine .inr ⟨values, held, world, ?_, List.drop_eq_nil_iff.mp hr.symm, less, hl, hran⟩
    rw [evalArguments.eq_def]
  | cons arg rest ihrest =>
    intro values held world less hl hr hran
    obtain ⟨harg, hr⟩ := of_cons_eq_drop hr
    obtain ⟨frame, hs, hrf, haw, hn⟩ := hc values held world arg harg
    rw [hs] at hran
    obtain ⟨less', hl', result, world', hw, hran⟩ := hran.value haw
    rw [hrf] at hw
    have harg := ih.node less' (by omega) _ _ _ _ _ hw
    rw [evalArguments.eq_def]
    simp only [harg, Option.bind_eq_bind, Option.bind_some]
    rcases hran with ⟨fault, hv, han⟩ | ⟨value, hv, hran⟩
    · exact .inl ⟨fault, world', by simp only [hv], han⟩
    · rw [hn] at hran
      simp only [hv]
      exact ihrest _ _ _ less' (by omega)
        (by rw [hr, List.length_append, List.length_singleton]) hran

/-- The scope of the members of a target is known, or the target has decided the answer. -/
theorem owner_complete {target node : Node}
    {after : ScopeId → Held → Store → StepScript.Resumed Progress}
    (hr : Resolves target scope node after)
    (hrun : run host outside bound below (.node ⟨node, scope, .start⟩) world none =
      some answer) :
    (∃ fault world', evalOwner host outside below target scope world =
        some (.error fault, world') ∧ (.error fault, world') = answer) ∨
      ∃ place came world', evalOwner host outside below target scope world =
        some (.ok (place, came), world') ∧
        ∃ less ≤ bound, Ran host outside less below
          (ofProgress node scope world'.context
            (after place (holding outside [.scope scope] below came) world'.store)) answer := by
  have hran := Ran.of_run hrun
  rw [evalOwner.eq_def]
  split
  · next name hk =>
    simp only [next_node, Progress.refs, incomingRefs, hr.named name _ _ hk] at hran
    dsimp only
    cases hs : NodeFrame.typeScope world.store (holding outside [.scope scope] below [])
        scope name with
    | error fault =>
      simp only [hs] at hran
      exact .inl ⟨fault, world, rfl, hran.error⟩
    | ok place =>
      simp only [hs] at hran
      exact .inr ⟨place, [], world, rfl, bound, Nat.le_refl _, hran⟩
  · next hk =>
    simp only [next_node, hr.pushed _ _ hk] at hran
    obtain ⟨less, hl, result, world', hw, hran⟩ := hran.value hr.awaits
    have ht : evalNode host outside (.scope scope :: below) target scope world =
      some (result, world') := ih.node less hl _ _ _ _ _ hw
    simp only [ht, Option.bind_eq_bind, Option.bind_some]
    rcases hran with ⟨fault, hv, han⟩ | ⟨value, hv, hran⟩
    · exact .inl ⟨fault, world', by rw [hv]; rfl, han⟩
    · simp only [hv, Except.bind]
      simp only [next_node, hr.value] at hran
      cases hs : NodeFrame.memberScope world'.store value with
      | error fault =>
        simp only [hs] at hran
        exact .inl ⟨fault, world', rfl, hran.error⟩
      | ok place =>
        simp only [hs] at hran
        exact .inr ⟨place, value.refs, world', rfl, less, by omega, hran⟩

theorem assigned_complete {target value : Node} {found : Option ScopeId} (hl : less ≤ bound)
    (hran : Ran host outside less below
      (ofProgress ⟨.assign target value, token⟩ scope world.context
        (NodeFrame.evaluateAssigned value scope found world.store)) answer) :
    evalAssigned host outside below target value scope found world = some answer := by
  rw [evalAssigned.eq_def]
  dsimp only
  exact value_complete ih .assigned hl hran fun _ _ _ _ hran => congrArg some hran.of_effect

/-- The statements that are left have been run. -/
theorem statements_complete {node : Node} {body : List Node}
    (hb : node.kind = .block body ∨ ∃ name, node.kind = .file name body) (rest : List Node) :
    ∀ (count : Nat) (last : Option Constant) (world : World σ), ∀ less ≤ bound,
      rest = body.drop count →
      Ran host outside less below
        (ofProgress node scope world.context
          (NodeFrame.statements body scope world.store (.statements count last) none)) answer →
      evalStatements host outside below scope last rest world = some answer := by
  induction rest with
  | nil =>
    intro count last world less hl hr hran
    have hend : body[count]? = none := List.getElem?_eq_none (List.drop_eq_nil_iff.mp hr.symm)
    simp only [NodeFrame.statements, hend] at hran
    rw [evalStatements.eq_def]
    exact congrArg some hran.done
  | cons statement rest ihrest =>
    intro count last world less hl hr hran
    obtain ⟨hs, hr⟩ := of_cons_eq_drop hr
    simp only [NodeFrame.statements, hs] at hran
    obtain ⟨less', hl', result, world', hw, hran⟩ := hran.push
    rw [evalStatements.eq_def]
    refine Option.bind_eq_some_iff.mpr ⟨_, ih.node less' (by omega) _ _ _ _ _ hw, ?_⟩
    rcases hran with ⟨fault, rfl, han⟩ | ⟨outcome, rfl, hran⟩
    · exact congrArg some han
    · obtain ⟨kind, token⟩ := node
      rcases hb with hb | ⟨name, hb⟩ <;> obtain rfl := hb
      all_goals
        cases outcome
        case value value =>
          obtain ⟨less'', hl'', hrun⟩ := hran.yield
          exact ihrest _ _ _ less'' (by omega) hr (Ran.of_run hrun)
        all_goals exact congrArg some hran.done

/-- The `for` loop has come to the answer from where it asks for its bound. -/
def RanRounds (host : Host σ τ) (outside : Held) (less : Nat) (below : List Ref)
    (loop : Counting) (first : Node) (token : Token) (world : World σ) (answer : Answer σ) :
    Prop :=
  Ran host outside less below
    (ofProgress ⟨.forLoop loop.var first loop.last loop.step loop.body, token⟩ loop.scope
      world.context
      ⟨.bound loop.inner, world.store, .ok (.push (.node loop.last loop.inner))⟩) answer

theorem round_complete {loop : Counting} {first : Node} {limit pace : Constant} {held : Held}
    (hl : less ≤ bound)
    (hrn : ∀ less' < less, ∀ world,
      RanRounds host outside less' below loop first token world answer →
      evalRounds host outside below loop world = some answer)
    (hran : Ran host outside less below
      (ofProgress ⟨.forLoop loop.var first loop.last loop.step loop.body, token⟩ loop.scope
        world.context
        (NodeFrame.beginRound loop.var loop.body loop.inner limit pace world.store held))
      answer) :
    evalRound host outside below loop limit pace held world = some answer := by
  rw [evalRound.eq_def]
  simp only [NodeFrame.beginRound] at hran
  split
  · next fault hr =>
    simp only [hr] at hran
    exact congrArg some hran.error
  · next hr =>
    simp only [hr] at hran
    exact congrArg some hran.done
  · next hr =>
    simp only [hr] at hran
    obtain ⟨less', hl', result, world', hw, hran⟩ := hran.push
    refine Option.bind_eq_some_iff.mpr ⟨_, ih.node less' (by omega) _ _ _ _ _ hw, ?_⟩
    rcases hran with ⟨fault, rfl, han⟩ | ⟨outcome, rfl, hran⟩
    · exact congrArg some han
    cases outcome
    case giveBack | breakLoop => exact congrArg some hran.done
    all_goals
      rw [next_rounds _ (by simp)] at hran
      dsimp only
      split
      · next fault hn =>
        simp only [Counting.refs] at hn
        simp only [hn] at hran
        exact congrArg some hran.error
      · next number hn =>
        simp only [Counting.refs] at hn
        simp only [hn] at hran
        obtain ⟨less'', hl'', hrun⟩ := hran.yield
        exact hrn less'' (by omega) _ (Ran.of_run hrun)

theorem rounds_complete {loop : Counting} {first : Node} (less : Nat) :
    ∀ world, less ≤ bound → RanRounds host outside less below loop first token world answer →
      evalRounds host outside below loop world = some answer := by
  induction less using Nat.strongRecOn with
  | ind less ihless =>
    intro world hl hran
    rw [evalRounds.eq_def]
    obtain ⟨less', hl', result, world', hw, hran⟩ := Ran.number .bound hran
    refine Option.bind_eq_some_iff.mpr ⟨_, ih.node less' (by omega) _ _ _ _ _ hw, ?_⟩
    have hr : ∀ less'' < less', ∀ world,
        RanRounds host outside less'' below loop first token world answer →
        evalRounds host outside below loop world = some answer :=
      fun less'' hl'' world => ihless less'' (by omega) world (by omega)
    rcases hran with ⟨fault, hn, han⟩ | ⟨limit, number, hlm, hn, hran⟩
    · simp only [hn, han]
    obtain ⟨var, last, step, body, scope, inner⟩ := loop
    simp only [hlm]
    simp only [next_node, NodeFrame.resume, NodeFrame.forLoop, Outcome.receivedValue, bind,
      Except.bind, hn] at hran
    cases step with
    | none => exact round_complete ih (by omega) hr hran
    | some step =>
      dsimp only
      refine value_complete ih .step (by omega) hran fun less'' hl'' pace world'' hran => ?_
      exact round_complete ih (by omega) (fun less hl => hr less (by omega)) hran

theorem defaults_complete {parent scope : ScopeId} (left : List (String × Node)) :
    ∀ (stage : CallStage) (world : World σ), ∀ less ≤ bound,
      Ran host outside less below
        (ofCall world.context (Call.fillNext ⟨function, parent, stage⟩ world.store scope left))
        answer →
      evalDefaults host outside below function parent scope left world = some answer := by
  induction left with
  | nil =>
    intro stage world less hl hran
    obtain ⟨less', hl', hrun⟩ := Ran.yield hran
    rw [evalDefaults.eq_def]
    exact ih.body less' (by omega) _ _ _ _ _ _ hrun
  | cons entry left ihleft =>
    intro stage world less hl hran
    obtain ⟨param, initial⟩ := entry
    rw [evalDefaults.eq_def]
    dsimp only
    refine value_complete ih .fill hl hran fun less' hl' value world' hran => ?_
    exact ihleft _ _ less' (by omega) hran

theorem call_complete {args : List Constant} {parent : ScopeId}
    (hrun : run host outside bound below (.call ⟨function, parent, .bind args⟩) world none =
      some answer) :
    evalCall host outside below function args parent world = some answer := by
  have hran := Ran.of_run hrun
  simp only [next_call, Call.resume] at hran
  rw [evalCall.eq_def]
  split
  · next fault hb =>
    simp only [hb] at hran
    exact congrArg some hran.error
  · next binding hb =>
    simp only [hb] at hran
    exact defaults_complete ih _ _ _ bound (Nat.le_refl _) hran

theorem body_complete (hh : host.AnswersAtOnce) {parent scope : ScopeId}
    (hrun : run host outside bound below (.call ⟨function, parent, .ready scope⟩) world none =
      some answer) :
    evalBody host outside below function parent scope world = some answer := by
  have hran := Ran.of_run hrun
  simp only [next_call, Call.resume] at hran
  rw [evalBody.eq_def]
  dsimp only
  split
  · next body hb =>
    simp only [hb] at hran
    obtain ⟨less, hl, result, world', hw, hran⟩ := hran.push
    refine Option.bind_eq_some_iff.mpr ⟨_, ih.node less hl _ _ _ _ _ hw, ?_⟩
    rcases hran with ⟨fault, rfl, han⟩ | ⟨outcome, rfl, hran⟩
    · exact congrArg some han
    · simp only [next_call, Call.resume, Outcome.received, Function.isNative, hb] at hran
      cases outcome with
      | breakLoop | continueLoop => exact congrArg some hran.error
      | value | giveBack => exact congrArg some hran.done
  · next hb =>
    simp only [hb] at hran
    obtain ⟨less, hl, result, world', hw, hran⟩ := hran.push
    have hn : callNative host
        (holding outside (function.refs ++ [.scope scope])
          (function.refs ++ [.scope parent, .scope scope] ++ below) []) function scope world =
        some (result, world') := native_complete hh hw
    rw [hn]
    rcases hran with ⟨fault, rfl, han⟩ | ⟨outcome, rfl, hran⟩
    · exact congrArg some han
    · obtain ⟨value, rfl⟩ := callNative_value hn
      simp only [next_call, Call.resume, Outcome.received, Function.isNative, hb] at hran
      exact congrArg some hran.done

/-- The steps of a construction that are left have been gone through. -/
theorem construct_complete {object : ObjectRef} (steps : List ConstructionStep) :
    ∀ (came : List Ref) (world : World σ), ∀ less ≤ bound,
      Ran host outside less below
        (ofConstruction world.context
          (Construction.proceed (holding outside [.object object] below came) object steps
            world.store)) answer →
      Direct.construct host outside below came object steps world = some answer := by
  induction steps with
  | nil =>
    intro came world less hl hran
    rw [Direct.construct.eq_def]
    exact congrArg some hran.done
  | cons step steps ihsteps =>
    intro came world less hl hran
    rw [Direct.construct.eq_def]
    cases step with
    | parameter scope name initial =>
      dsimp only
      refine value_complete ih .parameter hl hran fun less' hl' value world' hran => ?_
      exact ihsteps _ _ less' (by omega) hran
    | property scope name initial =>
      simp only [Construction.proceed] at hran
      dsimp only
      split
      · next hb =>
        rw [if_pos hb] at hran
        exact ihsteps _ _ less hl hran
      · next hb =>
        rw [if_neg hb] at hran
        cases initial with
        | none => exact ihsteps _ _ less hl hran
        | some expression =>
          dsimp only
          refine value_complete ih .property hl hran fun less' hl' value world' hran => ?_
          exact ihsteps _ _ less' (by omega) hran
    | behaviour scope behaviour =>
      simp only [Construction.proceed] at hran
      dsimp only
      split
      · next fault store hp =>
        simp only [hp] at hran
        exact congrArg some hran.error
      · next construction store hp =>
        simp only [hp] at hran
        obtain ⟨less', hl', result, world', hw, hran⟩ := Ran.value .behaviour hran
        refine Option.bind_eq_some_iff.mpr
          ⟨_, ih.construct less' (by omega) _ _ _ _ hw, ?_⟩
        rcases hran with ⟨fault, hv, han⟩ | ⟨value, hv, hran⟩
        · simp only [hv, han]
        · simp only [hv]
          cases value with
          | object attached => exact ihsteps _ _ less' (by omega) hran
          | _ => exact congrArg some hran.error
    | body constructor scope =>
      obtain ⟨less', hl', result, world', hw, hran⟩ := Ran.push hran
      refine Option.bind_eq_some_iff.mpr ⟨_, ih.body less' (by omega) _ _ _ _ _ _ hw, ?_⟩
      rcases hran with ⟨fault, rfl, han⟩ | ⟨outcome, rfl, hran⟩
      · exact congrArg some han
      · exact ihsteps _ _ less' (by omega) hran
    | phase =>
      obtain ⟨less', hl', hrun⟩ := Ran.yield hran
      exact ihsteps _ _ less' (by omega) (Ran.of_run hrun)
    | register => exact ihsteps _ _ less hl hran

theorem access_complete {target member : Node} {scope found : ScopeId} {came : List Ref}
    (hl : less ≤ bound)
    (hran : Ran host outside less below
      (ofProgress ⟨.member target member, token⟩ scope world.context
        (NodeFrame.access member scope world.store (holding outside [.scope scope] below came)
          found [] false none)) answer) :
    evalAccess host outside below came member scope found world = some answer := by
  rw [evalAccess.eq_def]
  obtain ⟨kind, inner⟩ := member
  dsimp only
  cases kind with
  | literal value =>
    cases value
    case identifier name =>
      simp only [NodeFrame.access] at hran
      dsimp only
      split
      · next value hv =>
        simp only [hv] at hran
        exact congrArg some hran.done
      · next hv =>
        simp only [hv] at hran
        exact congrArg some hran.error
    all_goals exact congrArg some hran.error
  | typeName name =>
    simp only [NodeFrame.access] at hran
    dsimp only
    split
    · next behaviour hac =>
      simp only [hac] at hran
      exact congrArg some hran.done
    · next hac =>
      simp only [hac] at hran
      exact congrArg some hran.error
  | call name args =>
    obtain ⟨fault, world', har, han⟩ | ⟨values, held, world', har, hall, less', hl',
      hran⟩ := arguments_complete ih
        (collects_member target name args inner token scope found) args [] _ world less hl
        rfl hran
    · exact Option.bind_eq_some_iff.mpr ⟨_, har, congrArg some han⟩
    · refine Option.bind_eq_some_iff.mpr ⟨_, har, ?_⟩
      dsimp only
      split
      · next hf =>
        rw [memberStep_error hall hf] at hran
        exact congrArg some hran.error
      · next function place hf =>
        rw [memberStep_push hall hf] at hran
        obtain ⟨less'', hl'', hrun⟩ := Ran.forward hran fun _ _ => ⟨_, rfl⟩
        exact ih.call less'' (by omega) _ _ _ _ _ _ hrun
  | _ => exact congrArg some hran.error

theorem node_complete {node : Node}
    (hrun : run host outside bound below (.node ⟨node, scope, .start⟩) world none =
      some answer) :
    evalNode host outside below node scope world = some answer := by
  have hran := Ran.of_run hrun
  obtain ⟨kind, token⟩ := node
  rw [evalNode.eq_def]
  cases kind with
  | literal value =>
    cases value
    case identifier name => exact congrArg some hran.of_except
    all_goals exact congrArg some hran.done
  | typeName name => exact congrArg some hran.of_except
  | unary op operand =>
    obtain ⟨less, hl, result, world', hw, han⟩ :=
      Ran.value_last hran .unary fun _ _ _ hran => hran.of_except
    exact Option.bind_eq_some_iff.mpr
      ⟨_, ih.node less hl _ _ _ _ _ hw, congrArg some han⟩
  | binary op lhs rhs =>
    dsimp only
    refine value_complete ih .lhs (Nat.le_refl _) hran fun less hl l world' hran => ?_
    obtain ⟨less', hl', right, world'', hw, han⟩ :=
      Ran.value_last hran .rhs fun _ _ _ hran => by
        obtain ⟨_, _, hrun⟩ := Ran.yield hran
        exact (Ran.of_run hrun).of_except
    exact Option.bind_eq_some_iff.mpr
      ⟨_, ih.node less' (by omega) _ _ _ _ _ hw, congrArg some han⟩
  | member target member =>
    obtain ⟨fault, world', ho, han⟩ | ⟨place, came, world', ho, less, hl, hran⟩ :=
      owner_complete ih (resolves_member target member token scope) hrun
    · exact Option.bind_eq_some_iff.mpr ⟨_, ho, congrArg some han⟩
    · exact Option.bind_eq_some_iff.mpr ⟨_, ho, access_complete ih hl hran⟩
  | call name args =>
    obtain ⟨fault, world', har, han⟩ | ⟨values, held, world', har, hall, less, hl,
      hran⟩ := arguments_complete ih (collects_call name args token scope) args [] _ world bound
        (Nat.le_refl _) rfl hran
    · exact Option.bind_eq_some_iff.mpr ⟨_, har, congrArg some han⟩
    · refine Option.bind_eq_some_iff.mpr ⟨_, har, ?_⟩
      dsimp only
      split
      · next hfn =>
        rw [callStep_error hall hfn] at hran
        exact congrArg some hran.error
      · next function place hfn =>
        rw [callStep_push hall hfn] at hran
        obtain ⟨less', hl', hrun⟩ := Ran.forward hran fun _ _ => ⟨_, rfl⟩
        exact ih.call less' (by omega) _ _ _ _ _ _ hrun
  | create className args =>
    obtain ⟨fault, world', har, han⟩ | ⟨values, held, world', har, hall, less, hl,
      hran⟩ := arguments_complete ih (collects_create className args token scope) args [] _ world
        bound (Nat.le_refl _) rfl hran
    · exact Option.bind_eq_some_iff.mpr ⟨_, har, congrArg some han⟩
    · refine Option.bind_eq_some_iff.mpr ⟨_, har, ?_⟩
      dsimp only
      split
      · next hc =>
        rw [createStep_error hall hc] at hran
        exact congrArg some hran.error
      · next id hc =>
        rw [createStep_planned hall hc] at hran
        split
        · next fault store hp =>
          rw [hp] at hran
          exact congrArg some hran.error
        · next construction store hp =>
          rw [hp] at hran
          obtain ⟨less', hl', hrun⟩ := Ran.forward hran fun _ _ => ⟨_, rfl⟩
          exact ih.construct less' (by omega) _ _ _ _ hrun
  | block body =>
    exact statements_complete ih (.inl rfl) body 0 none world bound (Nat.le_refl _) rfl hran
  | file name body =>
    exact statements_complete ih (.inr ⟨name, rfl⟩) body 0 none world bound (Nat.le_refl _) rfl
      hran
  | assign target value =>
    obtain ⟨kind, inner⟩ := target
    dsimp only
    split
    · next object member =>
      obtain ⟨fault, world', ho, han⟩ | ⟨place, came, world', ho, less, hl,
        hran⟩ := owner_complete ih (resolves_assign object member value inner token scope) hrun
      · exact Option.bind_eq_some_iff.mpr ⟨_, ho, congrArg some han⟩
      · exact Option.bind_eq_some_iff.mpr ⟨_, ho, assigned_complete ih hl hran⟩
    · next hk =>
      simp only [next_node, NodeFrame.resume, NodeFrame.assign] at hran
      exact assigned_complete ih (Nat.le_refl _) hran
  | branch condition thenBranch elseBranch =>
    dsimp only
    refine value_complete ih .branch (Nat.le_refl _) hran fun less hl value world' hran => ?_
    simp only [next_node, NodeFrame.resume, NodeFrame.branch, Outcome.receivedValue, bind,
      Except.bind] at hran
    split
    · next ht =>
      rw [if_pos ht] at hran
      obtain ⟨less', hl', hrun⟩ := Ran.forward hran fun _ _ => ⟨_, rfl⟩
      exact ih.node less' (by omega) _ _ _ _ _ hrun
    · next hf =>
      rw [if_neg hf] at hran
      cases elseBranch with
      | none => exact congrArg some hran.done
      | some other =>
        obtain ⟨less', hl', hrun⟩ := Ran.forward hran fun _ _ => ⟨_, rfl⟩
        exact ih.node less' (by omega) _ _ _ _ _ hrun
  | whileLoop condition body =>
    dsimp only
    refine value_complete ih .whileLoop (Nat.le_refl _) hran fun less hl value world' hran => ?_
    simp only [next_node, NodeFrame.resume, NodeFrame.whileLoop, Outcome.receivedValue] at hran
    split
    · next ht =>
      rw [if_pos ht] at hran
      obtain ⟨less', hl', result, world'', hw, hran⟩ := Ran.push hran
      refine Option.bind_eq_some_iff.mpr ⟨_, ih.node less' (by omega) _ _ _ _ _ hw, ?_⟩
      rcases hran with ⟨fault, rfl, han⟩ | ⟨outcome, rfl, hran⟩
      · exact congrArg some han
      cases outcome
      case giveBack | breakLoop => exact congrArg some hran.done
      all_goals
        obtain ⟨less'', hl'', hrun⟩ := Ran.yield hran
        exact ih.node less'' (by omega) _ _ _ _ _ hrun
    · next hf =>
      rw [if_neg hf] at hran
      exact congrArg some hran.done
  | repeatLoop body condition =>
    obtain ⟨less, hl, result, world', hw, hran⟩ := Ran.push hran
    refine Option.bind_eq_some_iff.mpr ⟨_, ih.node less hl _ _ _ _ _ hw, ?_⟩
    rcases hran with ⟨fault, rfl, han⟩ | ⟨outcome, rfl, hran⟩
    · exact congrArg some han
    cases outcome
    case giveBack | breakLoop => exact congrArg some hran.done
    all_goals
      refine value_complete ih .repeatLoop (by omega) hran fun less' hl' value world'' hran => ?_
      simp only [next_node, NodeFrame.resume, NodeFrame.repeatLoop, Outcome.receivedValue]
        at hran
      split
      · next ht =>
        rw [if_pos ht] at hran
        exact congrArg some hran.done
      · next hf =>
        rw [if_neg hf] at hran
        obtain ⟨less'', hl'', hrun⟩ := Ran.yield hran
        exact ih.node less'' (by omega) _ _ _ _ _ hrun
  | forLoop var first last step body =>
    obtain ⟨less, hl, result, world', hw, hran⟩ := Ran.number .first hran
    refine Option.bind_eq_some_iff.mpr ⟨_, ih.node less hl _ _ _ _ _ hw, ?_⟩
    rcases hran with ⟨fault, hn, han⟩ | ⟨value, number, hv, hn, hran⟩
    · simp only [hn, han]
    · simp only [hv]
      simp only [next_node, NodeFrame.resume, NodeFrame.forLoop, Outcome.receivedValue, bind,
        Except.bind, hn] at hran
      exact rounds_complete ih less _ (by omega) hran
  | giveBack value =>
    cases value with
    | none => exact congrArg some hran.done
    | some value =>
      obtain ⟨less, hl, result, world', hw, hran⟩ := Ran.value .giveBack hran
      refine Option.bind_eq_some_iff.mpr ⟨_, ih.node less hl _ _ _ _ _ hw, ?_⟩
      rcases hran with ⟨fault, hv, han⟩ | ⟨value, hv, hran⟩
      · simp only [hv, ← han]
        rfl
      · simp only [hv]
        exact congrArg some hran.done
  | waitForUpdate => exact (Ran.not_wait hran).elim
  | _ => exact congrArg some hran.done

end Complete

theorem completeBelow (hh : host.AnswersAtOnce) (bound : Nat) :
    CompleteBelow host outside bound := by
  induction bound using Nat.strongRecOn with
  | ind bound ih =>
    exact {
      node := fun less hl _ _ _ _ _ hrun => node_complete (ih less hl) hrun
      call := fun less hl _ _ _ _ _ _ hrun => call_complete (ih less hl) hrun
      body := fun less hl _ _ _ _ _ _ hrun => body_complete (ih less hl) hh hrun
      construct := fun less hl _ _ _ _ hrun =>
        construct_complete (ih less hl) _ _ _ less (Nat.le_refl _) (Ran.of_run hrun) }

end Frame

end StepScript
