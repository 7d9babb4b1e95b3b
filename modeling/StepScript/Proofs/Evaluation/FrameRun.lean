import StepScript.Proofs.Evaluation.Direct
set_option autoImplicit false

/-!
# Frames run on their own

A frame is run on its own when every frame that it gives work to is run to its end first,
and when pauses are passed over.  `Frame.run` does so without a stack.  A larger bound keeps
the answer (`run_mono`); the other statements put runs together from the flows of their frames
(`Yields`), and take them apart.
-/

namespace StepScript

open Direct

variable {σ τ : Type}

/-- The answer of an evaluation and the world after it. -/
abbrev Answer (σ : Type) : Type := Except Error Outcome × World σ

namespace Frame

/-- What an outcome that comes in holds. -/
def incomingRefs : Option Outcome → List Ref
  | some outcome => outcome.refs
  | none => []

/-- A frame resumed above frames that hold `below`. -/
def next (host : Host σ τ) (outside : Held) (below : List Ref) (frame : Frame τ)
    (world : World σ) (incoming : Option Outcome) : Resumed σ τ :=
  frame.resume host
    (holding outside (frame.refs host) below (incomingRefs incoming)) world incoming

/-- Run a frame, where at most `bound` frames are resumed one inside or after the other. -/
def run (host : Host σ τ) (outside : Held) : (bound : Nat) → List Ref → Frame τ → World σ →
    Option Outcome → Option (Answer σ)
  | 0, _, _, _, _ => none
  | bound + 1, below, frame, world, incoming =>
    match frame.next host outside below world incoming with
    | ⟨_, world, .error error⟩ => some (.error error, world)
    | ⟨_, world, .ok (.done outcome)⟩ => some (.ok outcome, world)
    | ⟨_, _, .ok .wait⟩ => none
    | ⟨frame, world, .ok .yield⟩ => run host outside bound below frame world none
    | ⟨frame, world, .ok (.push work)⟩ =>
      match run host outside bound (frame.refs host ++ below) (.ofWork work) world none with
      | some (.ok outcome, world) => run host outside bound below frame world (some outcome)
      | stop => stop

variable {host : Host σ τ} {outside : Held} {below : List Ref} {frame frame' : Frame τ}
  {world world' world'' : World σ} {incoming : Option Outcome} {answer : Answer σ} {work : Work}
  {outcome : Outcome} {fault : Error} {bound : Nat}

/-! ## What a run does -/

theorem run_of_done
    (hn : frame.next host outside below world incoming = ⟨frame', world', .ok (.done outcome)⟩) :
    frame.run host outside (bound + 1) below world incoming = some (.ok outcome, world') := by
  simp only [run, hn]

theorem run_of_error
    (hn : frame.next host outside below world incoming = ⟨frame', world', .error fault⟩) :
    frame.run host outside (bound + 1) below world incoming = some (.error fault, world') := by
  simp only [run, hn]

theorem run_of_yield
    (hn : frame.next host outside below world incoming = ⟨frame', world', .ok .yield⟩) :
    frame.run host outside (bound + 1) below world incoming =
      frame'.run host outside bound below world' none := by
  simp only [run, hn]

theorem run_of_push
    (hn : frame.next host outside below world incoming = ⟨frame', world', .ok (.push work)⟩) :
    frame.run host outside (bound + 1) below world incoming =
      match run host outside bound (frame'.refs host ++ below) (.ofWork work) world' none with
      | some (.ok outcome, world) => frame'.run host outside bound below world (some outcome)
      | stop => stop := by
  simp only [run, hn]

/-- A larger bound keeps the answer. -/
theorem run_succ : ∀ {bound : Nat} {below : List Ref} {frame : Frame τ} {world : World σ}
    {incoming : Option Outcome} {answer : Answer σ},
    frame.run host outside bound below world incoming = some answer →
    frame.run host outside (bound + 1) below world incoming = some answer := by
  intro bound
  induction bound with
  | zero => intro below frame world incoming answer h; simp [run] at h
  | succ bound ih =>
    intro below frame world incoming answer h
    obtain ⟨frame', world', flow, hn⟩ : ∃ frame' world' flow,
        frame.next host outside below world incoming = ⟨frame', world', flow⟩ := ⟨_, _, _, rfl⟩
    rcases flow with fault | work | outcome | _ | _
    · rw [run_of_error hn] at h ⊢; exact h
    · rw [run_of_push hn] at h ⊢
      cases hsub : run host outside bound (frame'.refs host ++ below) (.ofWork work) world'
          none with
      | none => simp [hsub] at h
      | some found =>
        rw [ih hsub]
        rw [hsub] at h
        obtain ⟨result, world''⟩ := found
        cases result with
        | error fault => exact h
        | ok outcome => exact ih h
    · rw [run_of_done hn] at h ⊢; exact h
    · rw [run_of_yield hn] at h ⊢; exact ih h
    · simp [run, hn] at h

theorem run_mono {larger : Nat} (hle : bound ≤ larger)
    (h : frame.run host outside bound below world incoming = some answer) :
    frame.run host outside larger below world incoming = some answer := by
  induction hle with
  | refl => exact h
  | step _ ih => exact run_succ ih

/-! ## Answers of a frame -/

/-- The frame, run on its own, comes to the answer. -/
def Yields (host : Host σ τ) (outside : Held) (below : List Ref) (frame : Frame τ)
    (world : World σ) (incoming : Option Outcome) (answer : Answer σ) : Prop :=
  ∃ bound, frame.run host outside bound below world incoming = some answer

theorem Yields.done
    (hn : frame.next host outside below world incoming = ⟨frame', world', .ok (.done outcome)⟩) :
    Yields host outside below frame world incoming (.ok outcome, world') :=
  ⟨1, run_of_done hn⟩

theorem Yields.error
    (hn : frame.next host outside below world incoming = ⟨frame', world', .error fault⟩) :
    Yields host outside below frame world incoming (.error fault, world') :=
  ⟨1, run_of_error hn⟩

theorem Yields.yield
    (hn : frame.next host outside below world incoming = ⟨frame', world', .ok .yield⟩)
    (hr : Yields host outside below frame' world' none answer) :
    Yields host outside below frame world incoming answer := by
  obtain ⟨bound, hr⟩ := hr
  exact ⟨bound + 1, by rw [run_of_yield hn, hr]⟩

theorem Yields.push
    (hn : frame.next host outside below world incoming = ⟨frame', world', .ok (.push work)⟩)
    (hw : Yields host outside (frame'.refs host ++ below) (.ofWork work) world' none
      (.ok outcome, world''))
    (hr : Yields host outside below frame' world'' (some outcome) answer) :
    Yields host outside below frame world incoming answer := by
  obtain ⟨m, hw⟩ := hw
  obtain ⟨n, hr⟩ := hr
  refine ⟨max m n + 1, ?_⟩
  rw [run_of_push hn, run_mono (Nat.le_max_left m n) hw]
  exact run_mono (Nat.le_max_right m n) hr

theorem Yields.push_error
    (hn : frame.next host outside below world incoming = ⟨frame', world', .ok (.push work)⟩)
    (hw : Yields host outside (frame'.refs host ++ below) (.ofWork work) world' none
      (.error fault, world'')) :
    Yields host outside below frame world incoming (.error fault, world'') := by
  obtain ⟨m, hw⟩ := hw
  exact ⟨m + 1, by rw [run_of_push hn, hw]⟩

/-! ## Taking a run apart -/

theorem answer_of_done
    (hn : frame.next host outside below world incoming = ⟨frame', world', .ok (.done outcome)⟩)
    (h : frame.run host outside bound below world incoming = some answer) :
    answer = (.ok outcome, world') := by
  cases bound with
  | zero => simp [run] at h
  | succ bound => rw [run_of_done hn] at h; exact (Option.some.inj h).symm

theorem answer_of_error
    (hn : frame.next host outside below world incoming = ⟨frame', world', .error fault⟩)
    (h : frame.run host outside bound below world incoming = some answer) :
    answer = (.error fault, world') := by
  cases bound with
  | zero => simp [run] at h
  | succ bound => rw [run_of_error hn] at h; exact (Option.some.inj h).symm

theorem rest_of_yield
    (hn : frame.next host outside below world incoming = ⟨frame', world', .ok .yield⟩)
    (h : frame.run host outside bound below world incoming = some answer) :
    ∃ less < bound, frame'.run host outside less below world' none = some answer := by
  cases bound with
  | zero => simp [run] at h
  | succ bound => exact ⟨bound, by omega, by rw [run_of_yield hn] at h; exact h⟩

theorem not_run_of_wait
    (hn : frame.next host outside below world incoming = ⟨frame', world', .ok .wait⟩)
    (h : frame.run host outside bound below world incoming = some answer) : False := by
  cases bound with
  | zero => simp [run] at h
  | succ bound => simp [run, hn] at h

/-- A frame that gives work away has an answer only if the work has one, and goes on with
its outcome. -/
theorem parts_of_push
    (hn : frame.next host outside below world incoming = ⟨frame', world', .ok (.push work)⟩)
    (h : frame.run host outside bound below world incoming = some answer) :
    ∃ less < bound, ∃ result world'',
      run host outside less (frame'.refs host ++ below) (.ofWork work) world' none =
        some (result, world'') ∧
      ((∃ fault, result = .error fault ∧ answer = (.error fault, world'')) ∨
        ∃ outcome, result = .ok outcome ∧
          frame'.run host outside less below world'' (some outcome) = some answer) := by
  cases bound with
  | zero => simp [run] at h
  | succ bound =>
    rw [run_of_push hn] at h
    refine ⟨bound, by omega, ?_⟩
    cases hsub : run host outside bound (frame'.refs host ++ below) (.ofWork work) world'
        none with
    | none => simp [hsub] at h
    | some found =>
      obtain ⟨result, world''⟩ := found
      rw [hsub] at h
      cases result with
      | error fault => exact ⟨_, _, rfl, .inl ⟨fault, rfl, (Option.some.inj h).symm⟩⟩
      | ok outcome => exact ⟨_, _, rfl, .inr ⟨outcome, rfl, h⟩⟩

/-! ## Frames that wait for a value -/

variable {result : Except Error Outcome} {value : Constant}

/-- The frame refuses every outcome that is not a value. -/
def NeedsValue (host : Host σ τ) (outside : Held) (below : List Ref) (frame : Frame τ) : Prop :=
  ∀ (world : World σ) (outcome : Outcome) (fault : Error), outcome.asValue = .error fault →
    ∃ frame', frame.next host outside below world (some outcome) = ⟨frame', world, .error fault⟩

theorem eq_of_valueOf (h : valueOf result = .ok value) : result = .ok (.value value) := by
  rcases result with fault | ⟨result⟩ | _ | _ | _ <;> cases h
  rfl

theorem Yields.value_error
    (hn : frame.next host outside below world incoming = ⟨frame', world', .ok (.push work)⟩)
    (hw : Yields host outside (frame'.refs host ++ below) (.ofWork work) world' none
      (result, world''))
    (hv : valueOf result = .error fault)
    (hnd : NeedsValue host outside below frame') :
    Yields host outside below frame world incoming (.error fault, world'') := by
  cases result with
  | error fault' =>
    cases hv
    exact Yields.push_error hn hw
  | ok outcome =>
    obtain ⟨frame'', hr⟩ := hnd world'' outcome fault hv
    exact Yields.push hn hw (Yields.error hr)

theorem Yields.value_ok
    (hn : frame.next host outside below world incoming = ⟨frame', world', .ok (.push work)⟩)
    (hw : Yields host outside (frame'.refs host ++ below) (.ofWork work) world' none
      (result, world''))
    (hv : valueOf result = .ok value)
    (hr : Yields host outside below frame' world'' (some (.value value)) answer) :
    Yields host outside below frame world incoming answer := by
  rw [eq_of_valueOf hv] at hw
  exact Yields.push hn hw hr

/-- A frame that ends with the value of a computation. -/
theorem Yields.of_except {computed : Except Error Constant}
    (hn : frame.next host outside below world incoming =
      ⟨frame', world', computed.map .give⟩) :
    Yields host outside below frame world incoming (computed.map .value, world') := by
  cases computed with
  | error fault => exact Yields.error hn
  | ok value => exact Yields.done hn

theorem parts_of_value
    (hnx : frame.next host outside below world incoming = ⟨frame', world', .ok (.push work)⟩)
    (hn : NeedsValue host outside below frame')
    (h : frame.run host outside bound below world incoming = some answer) :
    ∃ less < bound, ∃ result world'',
      run host outside less (frame'.refs host ++ below) (.ofWork work) world' none =
        some (result, world'') ∧
      ((∃ fault, valueOf result = .error fault ∧ answer = (.error fault, world'')) ∨
        ∃ value, valueOf result = .ok value ∧
          frame'.run host outside less below world'' (some (.value value)) = some answer) := by
  obtain ⟨less, hl, result, world'', hsub, hr⟩ := parts_of_push hnx h
  refine ⟨less, hl, result, world'', hsub, ?_⟩
  rcases hr with ⟨fault, rfl, rfl⟩ | ⟨outcome, rfl, hr⟩
  · exact .inl ⟨fault, rfl, rfl⟩
  · cases hv : outcome.asValue with
    | error fault =>
      obtain ⟨frame'', hrj⟩ := hn world'' outcome fault hv
      exact .inl ⟨fault, hv, answer_of_error hrj hr⟩
    | ok value =>
      have hrs : valueOf (.ok outcome) = .ok value := hv
      have ho : outcome = .value value := Except.ok.inj (eq_of_valueOf hrs)
      exact .inr ⟨value, hv, ho ▸ hr⟩

theorem answer_of_except {computed : Except Error Constant}
    (hn : frame.next host outside below world incoming =
      ⟨frame', world', computed.map .give⟩)
    (h : frame.run host outside bound below world incoming = some answer) :
    answer = (computed.map .value, world') := by
  cases computed with
  | error fault => exact answer_of_error hn h
  | ok value => exact answer_of_done hn h

end Frame

end StepScript
