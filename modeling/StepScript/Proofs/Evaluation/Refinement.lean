import StepScript.Proofs.Evaluation.Sound
import StepScript.Proofs.Evaluation.Complete
import StepScript.Proofs.Evaluation.Stepping
set_option autoImplicit false

/-!
# Machines evaluate directly

A machine shows what the direct evaluation of the same work shows, with the same output and
the same store, as long as its stack stays below the limit and the host answers at once.
-/

namespace StepScript

open Direct StepScript.Frame

variable {σ τ : Type} {host : Host σ τ} {outside : Held}

namespace Frame

/-! ## Nodes and calls -/

theorem yields_node_iff (hh : host.AnswersAtOnce) {below : List Ref} {node : Node}
    {scope : ScopeId} {world : World σ} {answer : Answer σ} :
    Yields host outside below (.node ⟨node, scope, .start⟩) world none answer ↔
      evalNode host outside below node scope world = some answer := by
  constructor
  · rintro ⟨bound, hrun⟩
    exact (completeBelow hh (bound + 1)).node bound (by omega) _ _ _ _ _ hrun
  · intro h
    exact (yields_of_eval host outside).1 _ _ _ _ _ h

theorem yields_call_iff (hh : host.AnswersAtOnce) {below : List Ref} {function : Function}
    {args : List Constant} {parent : ScopeId} {world : World σ} {answer : Answer σ} :
    Yields host outside below (.call ⟨function, parent, .bind args⟩) world none answer ↔
      evalCall host outside below function args parent world = some answer := by
  constructor
  · rintro ⟨bound, hrun⟩
    exact (completeBelow hh (bound + 1)).call bound (by omega) _ _ _ _ _ _ hrun
  · intro h
    exact (yields_of_eval host outside).2 _ _ _ _ _ _ h

/-! ## Units -/

section Starts

variable {below : List Ref} {frame frame' : Frame τ} {world world' : World σ}
  {incoming incoming' : Option Outcome} {answer : Answer σ} {work : Work}

/-- Frames that are resumed to the same point come to the same answers. -/
theorem yields_congr (h : frame.next host outside below world incoming =
      frame'.next host outside below world' incoming') :
    Yields host outside below frame world incoming answer ↔
      Yields host outside below frame' world' incoming' answer := by
  have hrun : ∀ bound, frame.run host outside bound below world incoming =
      frame'.run host outside bound below world' incoming' := by
    intro bound
    cases bound with
    | zero => rfl
    | succ bound => simp only [run, h]
  exact exists_congr fun bound => by rw [hrun]

/-- The start of a unit after the value of its current step has come in. -/
def continued (begun : Start) (store : Store) (value : Constant) : Start × Store :=
  match begun.current with
  | some (.sharedProperty id name _) =>
    ({ begun with current := none }, store.setOwn (store.classAt id).sharedScope name value)
  | some (.file _) => ({ begun with current := none, last := value }, store)
  | _ => ({ begun with current := none }, store)

/-- The frame of the start of a unit after it has been resumed. -/
def ofStart (context : Context σ) (resumed : StepScript.Resumed Start) : Resumed σ τ :=
  ⟨.start resumed.frame, ⟨resumed.store, context⟩, resumed.flow⟩

theorem next_start (begun : Start) :
    next host outside [] (.start begun) world incoming =
      ofStart world.context (begun.resume world.store
        (holding outside (.scope begun.root :: begun.last.refs) [] (incomingRefs incoming))
        incoming) := rfl

theorem next_start_error {waiting : Start} {outcome : Outcome} {fault : Error}
    (h : Start.outcomeValue outcome = .error fault) :
    next host outside [] (.start waiting) world (some outcome) =
      ⟨.start waiting, world, .error fault⟩ := by
  simp only [next_start, Start.resume, h]
  rfl

theorem next_start_value {waiting : Start} {outcome : Outcome} {value : Constant}
    (h : Start.outcomeValue outcome = .ok value) :
    next host outside [] (.start waiting) world (some outcome) =
      ⟨.start (continued waiting world.store value).1,
        ⟨(continued waiting world.store value).2, world.context⟩, .ok .yield⟩ := by
  obtain ⟨root, current, steps, last⟩ := waiting
  simp only [next_start, Start.resume, h]
  rcases current with _ | _ | _ | _ | _ <;> rfl

/-- A step of the start of a unit that gives work away: the work is evaluated, and its value
lets the unit go on. -/
theorem yields_start_of_push {begun waiting : Start} {evaluated : Option (Answer σ)}
    {rest : Constant → World σ → Option (Answer σ)}
    (hn : next host outside [] (.start begun) world none =
      ⟨.start waiting, world', .ok (.push work)⟩)
    (hw : ∀ {found}, Yields host outside (.scope waiting.root :: waiting.last.refs)
      (.ofWork work) world' none found ↔ evaluated = some found)
    (hrs : ∀ value (world : World σ),
      Yields host outside [] (.start (continued waiting world.store value).1)
        ⟨(continued waiting world.store value).2, world.context⟩ none answer ↔
      rest value world = some answer) :
    Yields host outside [] (.start begun) world none answer ↔
      (evaluated.bind fun (result, world) =>
        match result.bind Start.outcomeValue with
        | .error fault => some (.error fault, world)
        | .ok value => rest value world) = some answer := by
  have hr : refs host (.start waiting : Frame τ) ++ [] =
      .scope waiting.root :: waiting.last.refs := by
    rw [List.append_nil]
    rfl
  rw [Option.bind_eq_some_iff]
  constructor
  · rintro ⟨bound, hrun⟩
    obtain ⟨less, _, result, world'', hf, hg⟩ := parts_of_push hn hrun
    rw [hr] at hf
    refine ⟨(result, world''), hw.mp ⟨less, hf⟩, ?_⟩
    rcases hg with ⟨fault, rfl, rfl⟩ | ⟨outcome, rfl, hrun⟩
    · rfl
    · cases hv : Start.outcomeValue outcome with
      | error fault =>
        simp only [Except.bind, hv]
        exact congrArg some (answer_of_error (next_start_error hv) hrun).symm
      | ok value =>
        simp only [Except.bind, hv]
        obtain ⟨bound', _, hrun⟩ := rest_of_yield (next_start_value hv) hrun
        exact (hrs value world'').mp ⟨bound', hrun⟩
  · rintro ⟨⟨result, world''⟩, he, hg⟩
    have hy := hw.mpr he
    rw [← hr] at hy
    cases result with
    | error fault =>
      cases hg
      exact Yields.push_error hn hy
    | ok outcome =>
      refine Yields.push hn hy ?_
      cases hv : Start.outcomeValue outcome with
      | error fault =>
        simp only [Except.bind, hv] at hg
        cases hg
        exact Yields.error (next_start_error hv)
      | ok value =>
        simp only [Except.bind, hv] at hg
        exact Yields.yield (next_start_value hv) ((hrs value world'').mpr hg)

theorem yields_start_iff (hh : host.AnswersAtOnce) {root : ScopeId} (steps : List StartStep) :
    ∀ (current : Option StartStep) (last : Constant) (world : World σ),
      Yields host outside [] (.start ⟨root, current, steps, last⟩) world none answer ↔
        evalStart host outside root last steps world = some answer := by
  induction steps with
  | nil =>
    intro current last world
    constructor
    · rintro ⟨bound, hrun⟩
      exact congrArg some (answer_of_done rfl hrun).symm
    · intro h
      cases h
      exact Yields.done rfl
  | cons step steps ih =>
    intro current last world
    cases step with
    | register id =>
      refine Iff.trans (yields_congr ?_) (ih none last ⟨_, world.context⟩)
      rfl
    | sharedProperty id name initial =>
      rw [evalStart.eq_def]
      dsimp only
      split
      · next hb =>
        refine Iff.trans (yields_congr ?_) (ih none last world)
        simp only [next_start, Start.resume, Start.proceed, hb, if_true]
      · next hb =>
        cases initial with
        | none =>
          refine Iff.trans (yields_congr ?_) (ih none last ⟨_, world.context⟩)
          simp only [next_start, Start.resume, Start.proceed, hb]
          rfl
        | some expression =>
          have hn : next host outside []
              (.start ⟨root, current, .sharedProperty id name (some expression) :: steps,
                last⟩) world none =
              ⟨.start ⟨root, some (.sharedProperty id name (some expression)), steps, last⟩,
                world, .ok (.push (.node expression (world.store.classAt id).sharedScope))⟩ := by
            simp only [next_start, Start.resume, Start.proceed, hb]
            rfl
          exact yields_start_of_push hn (yields_node_iff hh) fun _ world =>
            ih none last ⟨_, world.context⟩
    | sharedConstructor id =>
      rw [evalStart.eq_def]
      dsimp only
      split
      · next constructor hc =>
        have hn : next host outside []
            (.start ⟨root, current, .sharedConstructor id :: steps, last⟩) world none =
            ⟨.start ⟨root, some (.sharedConstructor id), steps, last⟩, world,
              .ok (.push (.call (.ofArguments constructor []
                (world.store.classAt id).sharedScope)))⟩ := by
          simp only [next_start, Start.resume, Start.proceed, hc]
          rfl
        exact yields_start_of_push hn (yields_call_iff hh) fun _ world => ih none last world
      · next hc =>
        refine Iff.trans (yields_congr ?_) (ih none last world)
        simp only [next_start, Start.resume, Start.proceed, hc]
    | file file =>
      rw [evalStart.eq_def]
      dsimp only
      split
      · next name body hk =>
        have hn : next host outside []
            (.start ⟨root, current, .file file :: steps, last⟩) world none =
            ⟨.start ⟨root, some (.file file), steps, last⟩,
              ⟨(world.store.fileScope (holding outside (.scope root :: last.refs) [] [])
                root name).2, world.context⟩,
              .ok (.push (.node file (world.store.fileScope
                (holding outside (.scope root :: last.refs) [] []) root name).1))⟩ := by
          simp only [next_start, Start.resume, Start.proceed, hk]
          rfl
        exact yields_start_of_push hn (yields_node_iff hh) fun value world => ih none value world
      · next hk =>
        have hn : next host outside []
            (.start ⟨root, current, .file file :: steps, last⟩) world none =
            ⟨.start ⟨root, none, steps, last⟩, world, .error (.internal .nonFileInUnit)⟩ := by
          simp only [next_start, Start.resume, Start.proceed]
          rfl
        constructor
        · rintro ⟨bound, hrun⟩
          exact congrArg some (answer_of_error hn hrun).symm
        · intro h
          cases h
          exact Yields.error hn

end Starts

end Frame

/-! ## Machines -/

/-- What a machine is started with: a node in a scope, a call, or a unit. -/
inductive Entry where
  | tree (root : Node) (scope : ScopeId)
  | call (function : Function) (args : List Constant) (parent : ScopeId)
  | unit (held : Held) (code : Code) (scope : ScopeId)

namespace Entry

/-- The machine that is started in a world. -/
def machine (entry : Entry) (world : World σ) : Machine τ :=
  match entry with
  | .tree root scope => .ofNode root scope
  | .call function args parent => .ofCall function args parent
  | .unit held code scope => .ofCode world.store held code scope

/-- The answer of the direct evaluation. -/
def answer? (host : Host σ τ) (outside : Held) (entry : Entry) (world : World σ) :
    Option (Except Error Outcome × World σ) :=
  match entry with
  | .tree root scope => evalNode host outside [] root scope world
  | .call function args parent => evalCall host outside [] function args parent world
  | .unit held code scope =>
    let start := Start.ofCode world.store held code scope
    evalStart host outside start.root start.last start.steps world

/-- The only frame of the machine comes to the direct answer. -/
theorem exists_frame (outside : Held) (hh : host.AnswersAtOnce) (entry : Entry)
    (world : World σ) :
    ∃ frame : Frame τ, entry.machine world = .ofFrame frame ∧
      ∀ answer, Yields host outside [] frame world none answer ↔
        entry.answer? host outside world = some answer := by
  cases entry with
  | tree root scope =>
    refine ⟨.node ⟨root, scope, .start⟩, rfl, fun _ => ?_⟩
    exact yields_node_iff hh
  | call function args parent =>
    refine ⟨.call (.ofArguments function args parent), rfl, fun _ => ?_⟩
    exact yields_call_iff hh
  | unit held code scope =>
    refine ⟨.start (.ofCode world.store held code scope), rfl, fun _ => ?_⟩
    exact yields_start_iff hh _ _ _ _

end Entry

namespace Machine

/-- Follow a machine and see whether its stack stays below the limit until it stops. -/
def staysShallow (host : Host σ τ) (outside : Held) : (moves : Nat) → Machine τ → World σ → Bool
  | 0, _, _ => false
  | moves + 1, machine, world =>
    machine.stack.depth < maxDepth &&
      match machine.move host outside world with
      | ⟨machine, world, none⟩ | ⟨machine, world, some (.ok .suspended)⟩ =>
        staysShallow host outside moves machine world
      | _ => true

theorem shallow_of_staysShallow {moves : Nat} : ∀ {machine : Machine τ} {world : World σ},
    staysShallow host outside moves machine world = true →
    Shallow host outside machine world := by
  induction moves with
  | zero => intro machine world h; simp [staysShallow] at h
  | succ moves ih =>
    intro machine world h machine' world' hrc
    simp only [staysShallow, Bool.and_eq_true, decide_eq_true_eq] at h
    obtain ⟨hd, hr⟩ := h
    rcases Relation.ReflTransGen.cases_head hrc with heq | ⟨⟨machine₁, world₁⟩, hg, ht⟩
    · cases heq
      exact hd
    · have hn : staysShallow host outside moves machine₁ world₁ = true := by
        rcases hg with hm | hm
        · simpa only [hm] using hr
        · simpa only [hm] using hr
      exact ih hn _ _ ht

/-- Stepped until it stops, a machine shows exactly the value, or the kind and the description
of the error, that the direct evaluation shows, and it leaves the same world behind: the same
store and the same output.  The pauses change nothing, and a machine stops just when the direct
evaluation has an answer. -/
theorem runsTo_iff_answer (host : Host σ τ) (outside : Held) (entry : Entry)
    (world world' : World σ) (result : Except Cause Constant) (hhost : host.AnswersAtOnce)
    (hshallow : Shallow host outside (entry.machine world) world) :
    (∃ stop, RunsTo host outside (entry.machine world) world stop world' ∧
        shown stop = some result) ↔
      ∃ answer, entry.answer? host outside world = some (answer, world') ∧
        shownAnswer answer = result := by
  obtain ⟨frame, hmachine, hanswer⟩ := entry.exists_frame outside hhost world
  rw [hmachine] at hshallow ⊢
  rw [runsTo_iff_yields hshallow]
  simp only [hanswer]

/-- A function that breaks out of an endless loop and gives a text back. -/
def leavingLoop : Function where
  name := "leave"
  params := []
  body := some ⟨.block [⟨.whileLoop ⟨.literal (.boolean true), default⟩ ⟨.breakLoop, default⟩,
    default⟩, ⟨.giveBack (some ⟨.literal (.string "over"), default⟩), default⟩], default⟩
  owner := none
  home := none
  token := default

/-- A host without native functions. -/
def bareHost : Host Unit Empty where
  native? _ _ := none
  poll task := nomatch task
  finish task := nomatch task
  refs task := nomatch task

/-- An empty store and nothing around it. -/
def emptyWorld : World Unit := ⟨{}, { state := () }⟩

theorem runsTo_iff_answer_leavingLoop :
    bareHost.AnswersAtOnce ∧
      Shallow bareHost (fun _ => []) ((Entry.call leavingLoop [] ⟨0⟩).machine emptyWorld)
        emptyWorld ∧
      ∃ world' answer, (Entry.call leavingLoop [] ⟨0⟩).answer? bareHost (fun _ => []) emptyWorld =
          some (answer, world') ∧
        shownAnswer answer = .ok (.string "over") := by
  have hhost : bareHost.AnswersAtOnce := by
    intro owner name provided h
    cases h
  have hstays : staysShallow bareHost (fun _ => []) 20
      ((Entry.call leavingLoop [] ⟨0⟩).machine emptyWorld) emptyWorld = true := by decide
  have hshallow := shallow_of_staysShallow hstays
  obtain ⟨world', hfinish⟩ : ∃ world', finish bareHost (fun _ => []) 20
      ((Entry.call leavingLoop [] ⟨0⟩).machine emptyWorld) emptyWorld =
        some (.ok (.finished (.string "over")), world') := ⟨_, rfl⟩
  refine ⟨hhost, hshallow, world', ?_⟩
  exact (runsTo_iff_answer _ _ _ emptyWorld world' _ hhost hshallow).mp
    ⟨_, runsTo_iff_finish.mpr ⟨20, hfinish⟩, rfl⟩

end Machine

end StepScript
