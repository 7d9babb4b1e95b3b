import StepScript.Proofs.System.Declarations
set_option autoImplicit false

/-!
# No frame fails for want of a behaviour

Only constructions attach behaviours, and only `new` gives constructions of classes away.  So over
a Global scope that is in order no frame but that of a host function fails with an attachment
fault (`Frame.resume_attaches`), and what a machine has still to attach stays constructible while
it moves (`Machine.move_attachable`).
-/

namespace StepScript

variable {σ τ : Type}

/-! ## Nodes -/

theorem Flow.Rests.attaches {flow : Except Error Flow} (h : Flow.Rests flow) :
    Flow.Attaches flow := by
  rcases flow with error | (work | _ | _ | _)
  · exact h
  · exact h.elim
  all_goals trivial

namespace NodeFrame

variable {store : Store} {root : ScopeId} {held : Held}

theorem Does.attaches {scope : ScopeId} {progress : Progress} {resumed : Resumed Progress}
    (h : Does scope progress store held resumed) (hr : store.Registered root) :
    Flow.Attaches resumed.flow := by
  cases h with
  | rests hw hrs => exact hrs.attaches
  | evaluates => trivial
  | calls => trivial
  | creates values =>
    obtain ⟨hff, hac⟩ := @Construction.ofClass_attaches store root held hr _ values
    generalize (Construction.ofClass store held _ values).1 = planned at *
    cases planned with
    | error error => exact hff.not_fault error rfl
    | ok construction => exact hac construction rfl
  | enters => trivial
  | waits => trivial

theorem resume_attaches (h : store.Registered root) (frame : NodeFrame) (held : Held)
    (incoming : Option Outcome) : Flow.Attaches (frame.resume store held incoming).flow :=
  (frame.resume_does store held incoming).attaches h

end NodeFrame

/-! ## The start of a unit -/

namespace Start

theorem proceed_attaches (held : Held) (root : ScopeId) (last : Constant)
    (steps : List StartStep) (store : Store) :
    Flow.Attaches (proceed held root last steps store).flow := by
  fun_induction proceed held root last steps store with
  | case1 => trivial
  | case2 _ _ _ _ _ _ _ ih => exact ih
  | case3 => trivial
  | case4 _ _ _ _ _ _ ih => exact ih
  | case5 => trivial
  | case6 _ _ _ _ ih => exact ih
  | case7 _ _ _ ih => exact ih
  | case8 => trivial
  | case9 => exact id

theorem resume_attaches (start : Start) (store : Store) (held : Held)
    (incoming : Option Outcome) : Flow.Attaches (start.resume store held incoming).flow := by
  unfold resume
  split
  · exact proceed_attaches ..
  · split
    · next error he =>
      unfold outcomeValue at he
      split at he <;> cases he <;> exact id
    · split <;> trivial

end Start

/-! ## Frames and machines -/

/-- What the frame has still to attach can be constructed. -/
def Frame.Attachable : Frame τ → Prop
  | .construct begun => begun.Attachable
  | _ => True

/-- What the machine has still to attach can be constructed. -/
def Machine.Attachable (machine : Machine τ) : Prop :=
  ∀ frame ∈ machine.stack.frames, frame.Attachable

/-- The frame calls a function of the host. -/
def Frame.IsNative : Frame τ → Prop
  | .native .. => True
  | _ => False

variable {host : Host σ τ} {root : ScopeId} {world : World σ}

namespace Frame

/-- No frame fails with an attachment fault, unless the host does. -/
theorem resume_attaches (host : Host σ τ) (h : world.store.Registered root) {frame : Frame τ}
    (hac : frame.Attachable) (hf : ¬ frame.IsNative) (held : Held)
    (incoming : Option Outcome) :
    Flow.Attaches (frame.resume host held world incoming).flow := by
  cases frame with
  | node frame => exact NodeFrame.resume_attaches h frame held incoming
  | start begun => exact Start.resume_attaches ..
  | call begun => exact Call.resume_attaches ..
  | native function scope task => exact absurd trivial hf
  | construct begun => exact (Construction.resume_goesOn hac _ _).flow.attaches

theorem resumeNative_frame (held : Held) (function : Function) (scope : ScopeId)
    (task : Option (HostTask τ)) :
    (resumeNative host held world function scope task).frame.IsNative ∧
      ∀ work, (resumeNative host held world function scope task).flow ≠ .ok (.push work) := by
  have hp (world : World σ) (task : HostTask τ) (work : Work) :
      (pollTask host world function scope task).flow ≠ .ok (.push work) := by
    unfold pollTask
    dsimp only
    cases (task.poll host world.context).1 with
    | error error => exact fun h => nomatch h
    | ok answer => cases answer <;> exact fun h => nomatch h
  unfold resumeNative
  split
  · exact ⟨trivial, hp world _⟩
  · split
    · exact ⟨trivial, fun _ h => nomatch h⟩
    · dsimp only
      split
      · exact ⟨trivial, fun _ h => nomatch h⟩
      · exact ⟨trivial, fun _ h => nomatch h⟩
      · exact ⟨trivial, hp _ _⟩

theorem resume_attachable {frame : Frame τ} (hac : frame.Attachable) (held : Held)
    (world : World σ) (incoming : Option Outcome) :
    (frame.resume host held world incoming).frame.Attachable := by
  cases frame with
  | construct begun => exact (Construction.resume_goesOn hac _ _).attachable
  | native function scope task =>
    have hn := (@resumeNative_frame σ τ host world held function scope task).1
    change (resumeNative host held world function scope task).frame.Attachable
    generalize (resumeNative host held world function scope task).frame = frame at hn
    cases frame <;> first | exact hn.elim | trivial
  | node frame => trivial
  | start begun => trivial
  | call begun => trivial

/-- Work that a frame gives away can be begun. -/
theorem push_attachable (h : world.store.Registered root) {frame : Frame τ}
    (hac : frame.Attachable) {held : Held} {incoming : Option Outcome} {work : Work}
    (hp : (frame.resume host held world incoming).flow = .ok (.push work)) :
    (ofWork work : Frame τ).Attachable := by
  by_cases hfr : frame.IsNative
  · cases frame with
    | native function scope task =>
      exact absurd hp ((resumeNative_frame held function scope task).2 work)
    | node | start | call | construct => exact hfr.elim
  · have hf := resume_attaches host h hac hfr held incoming
    rw [hp] at hf
    cases work with
    | construct construction => exact hf
    | node | call | native => trivial

end Frame

/-- A move of a machine keeps what it has still to attach constructible. -/
theorem Machine.move_attachable {machine : Machine τ} (hac : machine.Attachable)
    (h : world.store.Registered root) (outside : Held) :
    (machine.move host outside world).machine.Attachable := by
  rcases move_cases host outside machine world with hm | ⟨frame, below, hfr, hm⟩
  · rw [hm]
    exact hac
  · rw [hm]
    have hf := hac frame (hfr ▸ List.mem_cons_self)
    intro other ho
    rcases of_mem_follow ho with rfl | hb | ⟨work, hp, rfl⟩
    · exact Frame.resume_attachable hf _ _ _
    · exact hac other (hfr ▸ List.mem_cons_of_mem _ hb)
    · exact Frame.push_attachable h hf hp

end StepScript
