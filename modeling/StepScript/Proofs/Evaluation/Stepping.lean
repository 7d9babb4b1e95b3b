import Mathlib.Logic.Relation
import StepScript.Proofs.Evaluation.FrameRun
set_option autoImplicit false

/-!
# Machines come to the answers of their frames

A machine steps until it has an outcome, fails or has to wait, and goes on over every pause.
When its stack stays below the limit, it comes to the answer of the frame on top, run on its
own.
-/

namespace StepScript

open Direct StepScript.Frame

variable {σ τ : Type} {host : Host σ τ} {outside : Held}

/-- What the frames of a stack hold. -/
def Stack.refs (host : Host σ τ) (stack : Stack τ) : List Ref :=
  stack.frames.flatMap (Frame.refs host)

namespace Machine

/-! ## Moves from pause to pause -/

/-- A machine that resumes `frame` next. -/
def withTop (below : Stack τ) (frame : Frame τ) (incoming : Option Outcome) : Machine τ :=
  { stack := below.push frame, incoming }

theorem move_withTop (below : Stack τ) (frame : Frame τ) (incoming : Option Outcome)
    (world : World σ) :
    (withTop below frame incoming).move host outside world =
      follow (frame.next host outside (below.refs host) world incoming) below := by
  have hh : (fun _ => outside () ++ (withTop below frame incoming).refs host) =
      holding outside (frame.refs host) (below.refs host) (incomingRefs incoming) := by
    funext _
    cases incoming <;> simp [withTop, Machine.refs, Stack.push, Stack.refs, holding, incomingRefs]
  rw [next, ← hh]
  rfl

/-- One move that leaves the machine running or pauses it. -/
def Goes (host : Host σ τ) (outside : Held) (state state' : Machine τ × World σ) : Prop :=
  state.1.move host outside state.2 = ⟨state'.1, state'.2, none⟩ ∨
    state.1.move host outside state.2 = ⟨state'.1, state'.2, some (.ok .suspended)⟩

/-- The machine comes to a state by moves and over pauses. -/
def Reaches (host : Host σ τ) (outside : Held) : Machine τ × World σ → Machine τ × World σ → Prop :=
  Relation.ReflTransGen (Goes host outside)

/-- The stack of the machine stays below the limit. -/
def Shallow (host : Host σ τ) (outside : Held) (machine : Machine τ) (world : World σ) : Prop :=
  ∀ machine' world', Reaches host outside (machine, world) (machine', world') →
    machine'.stack.depth < maxDepth

theorem Shallow.of_reaches {machine machine' : Machine τ} {world world' : World σ}
    (h : Shallow host outside machine world)
    (hr : Reaches host outside (machine, world) (machine', world')) :
    Shallow host outside machine' world' :=
  fun _ _ hr' => h _ _ (hr.trans hr')

section Moves

variable {below : Stack τ} {frame frame' : Frame τ} {world world' : World σ}
  {incoming : Option Outcome} {work : Work} {outcome : Outcome} {fault : Error}

theorem goes_of_yield
    (hn : frame.next host outside (below.refs host) world incoming =
      ⟨frame', world', .ok .yield⟩) :
    Goes host outside (withTop below frame incoming, world) (withTop below frame' none, world') :=
  .inr (by rw [move_withTop, hn]; rfl)

theorem goes_of_push
    (hd : (withTop below frame incoming).stack.depth < maxDepth)
    (hn : frame.next host outside (below.refs host) world incoming =
      ⟨frame', world', .ok (.push work)⟩) :
    Goes host outside (withTop below frame incoming, world)
      (withTop (below.push frame') (.ofWork work) none, world') := by
  have hf : ¬ maxDepth ≤ (below.push frame').depth := Nat.not_le.mpr hd
  refine .inl ?_
  rw [move_withTop, hn]
  simp only [follow, hf]
  rfl

theorem goes_of_done {above : Frame τ}
    (hn : frame.next host outside ((below.push above).refs host) world incoming =
      ⟨frame', world', .ok (.done outcome)⟩) :
    Goes host outside (withTop (below.push above) frame incoming, world)
      (withTop below above (some outcome), world') :=
  .inl (by rw [move_withTop, hn]; rfl)

theorem move_of_error
    (hn : frame.next host outside (below.refs host) world incoming =
      ⟨frame', world', .error fault⟩) :
    ∃ machine' fault', fault'.cause = fault.cause ∧
      (withTop below frame incoming).move host outside world =
        ⟨machine', world', some (.error fault')⟩ := by
  refine ⟨_, _, ?_, by rw [move_withTop, hn]; rfl⟩
  simp only [Stack.locate]
  split <;> rfl

end Moves

/-! ## From the answer of a frame to the machine -/

/-- The machine comes to a point where the frame on top of `below` has the answer, or where
it fails for the same cause. -/
def Arrives (host : Host σ τ) (outside : Held) (below : Stack τ) (state : Machine τ × World σ) :
    Answer σ → Prop
  | (.ok outcome, world') => ∃ frame incoming world frame',
      Reaches host outside state (withTop below frame incoming, world) ∧
      frame.next host outside (below.refs host) world incoming =
        ⟨frame', world', .ok (.done outcome)⟩
  | (.error fault, world') => ∃ machine world machine' fault',
      Reaches host outside state (machine, world) ∧ fault'.cause = fault.cause ∧
      machine.move host outside world = ⟨machine', world', some (.error fault')⟩

theorem Arrives.of_reaches {below : Stack τ} {state state' : Machine τ × World σ}
    {answer : Answer σ} (hr : Reaches host outside state state')
    (h : Arrives host outside below state' answer) : Arrives host outside below state answer := by
  obtain ⟨fault | outcome, world'⟩ := answer
  · obtain ⟨machine, world, machine', fault', hr', hrs⟩ := h
    exact ⟨machine, world, machine', fault', hr.trans hr', hrs⟩
  · obtain ⟨frame, incoming, world, frame', hr', hrs⟩ := h
    exact ⟨frame, incoming, world, frame', hr.trans hr', hrs⟩

/-- The machine comes to the answer of the frame on top. -/
theorem arrives_of_run (bound : Nat) : ∀ (below : Stack τ) (frame : Frame τ)
    (incoming : Option Outcome) (world : World σ) (answer : Answer σ),
    Shallow host outside (withTop below frame incoming) world →
    frame.run host outside bound (below.refs host) world incoming = some answer →
    Arrives host outside below (withTop below frame incoming, world) answer := by
  induction bound with
  | zero => intro below frame incoming world answer _ h; simp [run] at h
  | succ bound ih =>
    intro below frame incoming world answer hs h
    obtain ⟨frame', world', flow, hn⟩ : ∃ frame' world' flow,
        frame.next host outside (below.refs host) world incoming = ⟨frame', world', flow⟩ :=
      ⟨_, _, _, rfl⟩
    rcases flow with fault | work | outcome | _ | _
    · rw [run_of_error hn] at h
      cases h
      obtain ⟨machine', fault', hc, hm⟩ := move_of_error hn
      exact ⟨_, _, machine', fault', .refl, hc, hm⟩
    · -- the work is run on top of the frame, which then goes on with its outcome
      have hp : Reaches host outside (withTop below frame incoming, world)
          (withTop (below.push frame') (.ofWork work) none, world') :=
        .single (goes_of_push (hs _ _ .refl) hn)
      rw [run_of_push hn] at h
      cases hw : run host outside bound ((below.push frame').refs host) (.ofWork work) world'
          none with
      | none =>
        have hnn : run host outside bound (frame'.refs host ++ below.refs host)
            (.ofWork work) world' none = none := hw
        simp [hnn] at h
      | some found =>
        have hf : run host outside bound (frame'.refs host ++ below.refs host)
            (.ofWork work) world' none = some found := hw
        rw [hf] at h
        have har := ih _ _ _ _ _ (hs.of_reaches hp) hw
        obtain ⟨fault | outcome, world''⟩ := found
        · cases h
          -- an error leaves no frame behind, so it does not matter where the stack ends
          exact Arrives.of_reaches hp (show Arrives host outside below _ _ from har)
        · obtain ⟨last, incoming', world₁, last', hr, hd⟩ := har
          have hb : Reaches host outside (withTop below frame incoming, world)
              (withTop below frame' (some outcome), world'') :=
            (hp.trans hr).tail (goes_of_done hd)
          exact Arrives.of_reaches hb (ih _ _ _ _ _ (hs.of_reaches hb) h)
    · rw [run_of_done hn] at h
      cases h
      exact ⟨frame, incoming, world, frame', .refl, hn⟩
    · have hy := Relation.ReflTransGen.single (goes_of_yield hn)
      rw [run_of_yield hn] at h
      exact Arrives.of_reaches hy (ih _ _ _ _ _ (hs.of_reaches hy) h)
    · exact (not_run_of_wait hn h).elim

/-! ## From the machine to the answer of a frame -/

/-- Make moves, over pauses, until the machine stops. -/
def finish (host : Host σ τ) (outside : Held) : (moves : Nat) → Machine τ → World σ →
    Option (Except Error Status × World σ)
  | 0, _, _ => none
  | moves + 1, machine, world =>
    match machine.move host outside world with
    | ⟨machine, world, none⟩ => finish host outside moves machine world
    | ⟨machine, world, some (.ok .suspended)⟩ => finish host outside moves machine world
    | ⟨_, world, some stop⟩ => some (stop, world)

section Finish

variable {machine machine' : Machine τ} {world world' : World σ} {moves : Nat}
  {stop : Except Error Status}

theorem finish_of_goes (h : Goes host outside (machine, world) (machine', world')) :
    finish host outside (moves + 1) machine world = finish host outside moves machine' world' := by
  rcases h with h | h
  · simp only [finish, h]
  · simp only [finish, h]

theorem finish_of_stop (moves : Nat) (h : machine.move host outside world = ⟨machine', world', some stop⟩)
    (hs : stop ≠ .ok .suspended) :
    finish host outside (moves + 1) machine world = some (stop, world') := by
  rcases stop with fault | _ | _ | value
  · simp only [finish, h]
  · exact (hs rfl).elim
  · simp only [finish, h]
  · simp only [finish, h]

/-- The first move of a machine that stops. -/
theorem parts_of_finish (h : finish host outside moves machine world = some (stop, world')) :
    ∃ less, moves = less + 1 ∧
      ((∃ machine₁ world₁, Goes host outside (machine, world) (machine₁, world₁) ∧
          finish host outside less machine₁ world₁ = some (stop, world')) ∨
        stop ≠ .ok .suspended ∧
          ∃ machine', machine.move host outside world = ⟨machine', world', some stop⟩) := by
  cases moves with
  | zero => simp [finish] at h
  | succ less =>
    refine ⟨less, rfl, ?_⟩
    obtain ⟨machine₁, world₁, end₁, hm⟩ : ∃ machine₁ world₁ end₁,
        machine.move host outside world = ⟨machine₁, world₁, end₁⟩ := ⟨_, _, _, rfl⟩
    rcases end₁ with _ | fault | _ | _ | value <;> simp only [finish, hm] at h
    · exact .inl ⟨machine₁, world₁, .inl hm, h⟩
    · cases h
      exact .inr ⟨by simp, machine₁, hm⟩
    · exact .inl ⟨machine₁, world₁, .inr hm, h⟩
    all_goals
      cases h
      exact .inr ⟨by simp, machine₁, hm⟩

theorem finish_succ : ∀ {moves : Nat} {machine : Machine τ} {world : World σ},
    finish host outside moves machine world = some (stop, world') →
    finish host outside (moves + 1) machine world = some (stop, world') := by
  intro moves
  induction moves with
  | zero => intro machine world h; simp [finish] at h
  | succ moves ih =>
    intro machine world h
    obtain ⟨less, hl, ⟨machine₁, world₁, hg, hr⟩ | ⟨hs, machine₁, hm⟩⟩ := parts_of_finish h
    · obtain rfl : moves = less := by omega
      rw [finish_of_goes hg]
      exact ih hr
    · exact finish_of_stop _ hm hs

theorem finish_mono {more : Nat} (hle : moves ≤ more)
    (h : finish host outside moves machine world = some (stop, world')) :
    finish host outside more machine world = some (stop, world') := by
  induction hle with
  | refl => exact h
  | step _ ih => exact finish_succ ih

/-- A machine stops in one way only. -/
theorem finish_unique {more : Nat} {stop' : Except Error Status} {world'' : World σ}
    (h : finish host outside moves machine world = some (stop, world'))
    (h' : finish host outside more machine world = some (stop', world'')) :
    stop = stop' ∧ world' = world'' := by
  have hl := finish_mono (Nat.le_max_left moves more) h
  have hr := finish_mono (Nat.le_max_right moves more) h'
  rw [hl] at hr
  cases hr
  exact ⟨rfl, rfl⟩

/-- A machine that comes to a state stops as it does from there. -/
theorem finish_of_reaches {state state' : Machine τ × World σ}
    (hr : Reaches host outside state state')
    (h : finish host outside moves state'.1 state'.2 = some (stop, world')) :
    ∃ more, finish host outside more state.1 state.2 = some (stop, world') := by
  induction hr using Relation.ReflTransGen.head_induction_on with
  | refl => exact ⟨moves, h⟩
  | head hg _ ih =>
    obtain ⟨more, ih⟩ := ih
    exact ⟨more + 1, by rw [finish_of_goes hg, ih]⟩

end Finish

/-- When the machine stops and does not wait, the frame on top has an answer; and if that is
an outcome, the frames below go on with it. -/
theorem run_of_finish {stop : Except Error Status} {world' : World σ}
    (hst : stop ≠ .ok .waiting) (moves : Nat) :
    ∀ (below : Stack τ) (frame : Frame τ) (incoming : Option Outcome) (world : World σ),
    Shallow host outside (withTop below frame incoming) world →
    finish host outside moves (withTop below frame incoming) world = some (stop, world') →
    ∃ answer, Yields host outside (below.refs host) frame world incoming answer ∧
      ∀ outcome world₁ above below', answer = (.ok outcome, world₁) →
        below = below'.push above →
        Reaches host outside (withTop below frame incoming, world)
          (withTop below' above (some outcome), world₁) ∧
        ∃ less < moves, finish host outside less (withTop below' above (some outcome)) world₁ =
          some (stop, world') := by
  induction moves using Nat.strongRecOn with
  | ind moves ih =>
    intro below frame incoming world hs h
    obtain ⟨frame', world₁, flow, hn⟩ : ∃ frame' world₁ flow,
        frame.next host outside (below.refs host) world incoming = ⟨frame', world₁, flow⟩ :=
      ⟨_, _, _, rfl⟩
    obtain ⟨less, rfl, hrs⟩ := parts_of_finish h
    rcases flow with fault | work | outcome | _ | _
    · refine ⟨_, Yields.error hn, ?_⟩
      rintro outcome world₂ above below' han
      cases han
    · have hp := goes_of_push (hs _ _ .refl) hn
      rw [finish_of_goes hp] at h
      have hr := Relation.ReflTransGen.single hp
      obtain ⟨⟨fault | outcome, world₂⟩, hw, hg⟩ := ih less (by omega) _ _ _ _ (hs.of_reaches hr) h
      · refine ⟨_, Yields.push_error hn hw, ?_⟩
        rintro outcome world₃ above below' han
        cases han
      · obtain ⟨hbc, less', hls', h⟩ := hg outcome world₂ frame' below rfl rfl
        have hr' := hr.trans hbc
        obtain ⟨answer, hy, hg⟩ := ih less' (by omega) _ _ _ _ (hs.of_reaches hr') h
        refine ⟨answer, Yields.push hn hw hy, ?_⟩
        intro outcome' world₃ above below' han hb
        obtain ⟨hl, less'', hls'', h⟩ := hg outcome' world₃ above below' han hb
        exact ⟨hr'.trans hl, less'', by omega, h⟩
    · refine ⟨_, Yields.done hn, ?_⟩
      rintro outcome' world₂ above below' han rfl
      cases han
      have hd := goes_of_done hn
      rw [finish_of_goes hd] at h
      exact ⟨.single hd, less, by omega, h⟩
    · have hyl := goes_of_yield hn
      rw [finish_of_goes hyl] at h
      have hr := Relation.ReflTransGen.single hyl
      obtain ⟨answer, hy, hg⟩ := ih less (by omega) _ _ _ _ (hs.of_reaches hr) h
      refine ⟨answer, Yields.yield hn hy, ?_⟩
      intro outcome world₂ above below' han hb
      obtain ⟨hl, less', hls', h⟩ := hg outcome world₂ above below' han hb
      exact ⟨hr.trans hl, less', by omega, h⟩
    · have hwt : (withTop below frame incoming).move host outside world =
          ⟨withTop below frame' none, world₁, some (.ok .waiting)⟩ := by
        rw [move_withTop, hn]; rfl
      rw [finish_of_stop less hwt (by simp)] at h
      cases h
      exact (hst rfl).elim

/-! ## Steps -/

/-- Stepped over its pauses, the machine stops in the world `world'`. -/
inductive RunsTo (host : Host σ τ) (outside : Held) :
    Machine τ → World σ → Except Error Status → World σ → Prop where
  | stop {machine machine' : Machine τ} {world world' : World σ} {moves : Nat}
      {stop : Except Error Status} :
      step host outside moves machine world = some ⟨machine', world', stop⟩ →
      stop ≠ .ok .suspended → RunsTo host outside machine world stop world'
  | pause {machine machine' : Machine τ} {world world' world'' : World σ} {moves : Nat}
      {stop : Except Error Status} :
      step host outside moves machine world = some ⟨machine', world', .ok .suspended⟩ →
      RunsTo host outside machine' world' stop world'' →
      RunsTo host outside machine world stop world''

section Steps

variable {machine machine' : Machine τ} {world world' : World σ} {stop : Except Error Status}

theorem step_of_move {moves : Nat}
    (h : machine.move host outside world = ⟨machine', world', none⟩) :
    step host outside (moves + 1) machine world = step host outside moves machine' world' := by
  simp only [step, h]

theorem step_of_stop (h : machine.move host outside world = ⟨machine', world', some stop⟩) :
    step host outside 1 machine world = some ⟨machine', world', stop⟩ := by
  simp only [step, h]

/-- The moves of a step lead to the one that stops it. -/
theorem reaches_of_step {moves : Nat} : ∀ {machine : Machine τ} {world : World σ},
    step host outside moves machine world = some ⟨machine', world', stop⟩ →
    ∃ machine₁ world₁, Reaches host outside (machine, world) (machine₁, world₁) ∧
      machine₁.move host outside world₁ = ⟨machine', world', some stop⟩ := by
  induction moves with
  | zero => intro machine world h; simp [step] at h
  | succ moves ih =>
    intro machine world h
    obtain ⟨machine₁, world₁, end₁, hm⟩ : ∃ machine₁ world₁ end₁,
        machine.move host outside world = ⟨machine₁, world₁, end₁⟩ := ⟨_, _, _, rfl⟩
    cases end₁ with
    | none =>
      rw [step_of_move hm] at h
      obtain ⟨machine₂, world₂, hr, hl⟩ := ih h
      exact ⟨machine₂, world₂, .head (.inl hm) hr, hl⟩
    | some end₁ =>
      simp only [step, hm] at h
      cases h
      exact ⟨machine, world, .refl, hm⟩

/-- Stepping a machine and letting it make moves are the same. -/
theorem runsTo_iff_finish : RunsTo host outside machine world stop world' ↔
    ∃ moves, finish host outside moves machine world = some (stop, world') := by
  constructor
  · intro h
    induction h with
    | stop hs hst =>
      obtain ⟨machine₁, world₁, hrc, hm⟩ := reaches_of_step hs
      exact finish_of_reaches hrc (finish_of_stop 0 hm hst)
    | pause hs _ ih =>
      obtain ⟨machine₁, world₁, hrc, hm⟩ := reaches_of_step hs
      obtain ⟨moves, ih⟩ := ih
      have hp := hrc.tail (.inr hm : Goes host outside (machine₁, world₁) (_, _))
      exact finish_of_reaches hp ih
  · rintro ⟨moves, h⟩
    induction moves generalizing machine world with
    | zero => simp [finish] at h
    | succ moves ih =>
      obtain ⟨less, hl, ⟨machine₁, world₁, hg, hr⟩ | ⟨hst, machine₁, hm⟩⟩ := parts_of_finish h
      · obtain rfl : moves = less := by omega
        rcases hg with hm | hm
        · -- one more move in front of the first step
          cases ih hr with
          | stop hs hst => exact .stop ((step_of_move hm).trans hs) hst
          | pause hs hr => exact .pause ((step_of_move hm).trans hs) hr
        · exact .pause (step_of_stop hm) (ih hr)
      · exact .stop (step_of_stop hm) hst

end Steps

/-! ## Machines of one frame -/

/-- What can be seen of a machine that has stopped: its value, or the kind and the description
of its error.  A machine that waits has nothing to show. -/
def shown : Except Error Status → Option (Except Cause Constant)
  | .ok (.finished value) => some (.ok value)
  | .error fault => some (.error fault.cause)
  | .ok .suspended | .ok .waiting => none

/-- What can be seen of the answer of the lowest frame. -/
def shownAnswer (answer : Except Error Outcome) : Except Cause Constant :=
  (answer.bind Start.outcomeValue).mapError Error.cause

/-- A machine of one frame. -/
def ofFrame (frame : Frame τ) : Machine τ := { stack := .single frame }

theorem finish_of_yields {frame : Frame τ} {world world' : World σ}
    {answer : Except Error Outcome} (hs : Shallow host outside (ofFrame frame) world)
    (h : Yields host outside [] frame world none (answer, world')) :
    ∃ moves stop, finish host outside moves (ofFrame frame) world = some (stop, world') ∧
      shown stop = some (shownAnswer answer) := by
  obtain ⟨bound, hrun⟩ := h
  have har := arrives_of_run bound default frame none world _ hs hrun
  suffices hsp : ∃ machine world₁ machine' stop,
      Reaches host outside (ofFrame frame, world) (machine, world₁) ∧
      machine.move host outside world₁ = ⟨machine', world', some stop⟩ ∧
      stop ≠ .ok .suspended ∧ shown stop = some (shownAnswer answer) by
    obtain ⟨machine, world₁, machine', stop, hr, hm, hst, hsh⟩ := hsp
    obtain ⟨moves, hf⟩ := finish_of_reaches hr (finish_of_stop 0 hm hst)
    exact ⟨moves, stop, hf, hsh⟩
  cases answer with
  | error fault =>
    obtain ⟨machine, world₁, machine', fault', hr, hc, hm⟩ := har
    refine ⟨machine, world₁, machine', _, hr, hm, by simp, ?_⟩
    rw [shown, hc]
    rfl
  | ok outcome =>
    obtain ⟨frame₁, incoming, world₁, frame', hr, hd⟩ := har
    have hm : (withTop default frame₁ incoming).move host outside world₁ =
        follow ⟨frame', world', .ok (.done outcome)⟩ default := by
      rw [move_withTop, hd]
    cases hv : Start.outcomeValue outcome with
    | error fault =>
      simp only [follow, hv] at hm
      refine ⟨_, world₁, _, _, hr, hm, by simp, ?_⟩
      simp only [shown, shownAnswer, Except.bind, hv]
      rfl
    | ok value =>
      simp only [follow, hv] at hm
      refine ⟨_, world₁, _, _, hr, hm, by simp, ?_⟩
      simp only [shown, shownAnswer, Except.bind, hv]
      rfl

/-- A machine of one frame shows what the answer of the frame shows, and in the same world. -/
theorem runsTo_iff_yields {frame : Frame τ} {world world' : World σ}
    (hsh : Shallow host outside (ofFrame frame) world) (result : Except Cause Constant) :
    (∃ stop, RunsTo host outside (ofFrame frame) world stop world' ∧ shown stop = some result) ↔
      ∃ answer, Yields host outside [] frame world none (answer, world') ∧
        shownAnswer answer = result := by
  simp only [runsTo_iff_finish]
  constructor
  · rintro ⟨stop, ⟨moves, hf⟩, hs⟩
    have hst : stop ≠ .ok .waiting := by
      rintro rfl
      cases hs
    obtain ⟨⟨answer, world₁⟩, hy, _⟩ := run_of_finish hst moves default frame none world hsh hf
    obtain ⟨moves', stop', hf', hs'⟩ := finish_of_yields hsh hy
    obtain ⟨rfl, rfl⟩ := finish_unique hf hf'
    exact ⟨answer, hy, Option.some.inj (hs'.symm.trans hs)⟩
  · rintro ⟨answer, hy, rfl⟩
    obtain ⟨moves, stop, hf, hs⟩ := finish_of_yields hsh hy
    exact ⟨stop, ⟨moves, hf⟩, hs⟩

end Machine

end StepScript
