import StepScript.Proofs.System.Nodes
set_option autoImplicit false

/-!
# Running code declares nothing

Frames only do to the store what `Store.Evolves` allows.  The start of a unit needs to know its
Global scope for that, because it makes the scopes of files there (`Frame.StartsAt`); nothing
else is asked of a machine (`Machine.move_evolves`, `Machine.step_evolves`).
-/

namespace StepScript

open Store (Evolves IsRoot)

variable {σ τ : Type} {store : Store}

/-! ## Calls -/

namespace Call

theorem fillNext_store (call : Call) (store : Store) (scope : ScopeId)
    (left : List (String × Node)) : (call.fillNext store scope left).store = store := by
  cases left with
  | nil => rfl
  | cons param rest => rfl

theorem resume_evolves (call : Call) (store : Store) (incoming : Option Outcome) :
    store.Evolves (call.resume store incoming).store := by
  unfold Call.resume
  split
  · split
    · exact .refl store
    · rw [fillNext_store]
      exact .trans (.addScope rfl) (.setAllOwn _ _)
  · split
    · exact .refl store
    · rw [fillNext_store]
      exact .setOwn _ _ _
  · dsimp only
    split <;> exact .refl store
  · split <;> exact .refl store

end Call

/-! ## Constructions -/

namespace Construction

theorem levelScopes_evolves (scopes : List ScopeId) (parent : ScopeId) (levels : List Level)
    (store : Store) : store.Evolves (levelScopes scopes parent levels store).2 := by
  induction levels generalizing scopes parent store with
  | nil => exact .refl store
  | cons level rest ih =>
    refine .trans ?_ (ih _ _ _)
    refine .trans (.setFunctions (.trans (.addScope rfl) (.addScope rfl)) ?_ _) (.setAllOwn _ _)
    simp

theorem instantiate_evolves (store : Store) (held : Held) (typeName : String)
    (classId : Option ClassId) (outer : ScopeId) (scopes : List ScopeId) :
    store.Evolves (instantiate store held typeName classId outer scopes).2 := by
  have hs : store.Evolves (store.nextSerial held outer).2 :=
    .withState held outer (fun _ => rfl) (fun _ => rfl) (fun _ => rfl)
  unfold instantiate
  exact hs.trans (.trans (.addObject _ _ _) (.setObjects _ _))

theorem ofClass_evolves (store : Store) (held : Held) (id : ClassId) (args : List Constant) :
    store.Evolves (ofClass store held id args).2 := by
  unfold ofClass
  dsimp only
  split
  · exact .refl store
  · split
    · exact .refl store
    · split
      · exact .refl store
      · split
        · exact .refl store
        · exact (levelScopes_evolves _ _ _ _).trans (instantiate_evolves _ _ _ _ _ _)

theorem ofBehaviour_evolves (store : Store) (held : Held) (behaviour : Behaviour)
    (owner : ObjectRef) : store.Evolves (ofBehaviour store held behaviour owner).2 := by
  unfold ofBehaviour
  split
  · exact .refl store
  · exact .refl store
  · refine .trans (.setFunctions (.addScope rfl) ?_ _) (instantiate_evolves _ _ _ _ _ _)
    exact Nat.le_refl _

theorem register_evolves (store : Store) (held : Held) (object : ObjectRef) :
    store.Evolves (register store held object) := by
  unfold register
  split
  · split
    · refine .modifyState _ _ (fun state => ?_) (fun state => ?_) (fun state => ?_) <;>
        (unfold GlobalState.register; split <;> rfl)
    · exact .refl store
  · exact .refl store

theorem receive_evolves (store : Store) (object : ObjectRef) (step : Option ConstructionStep)
    (outcome : Outcome) : store.Evolves (receive store object step outcome).2 := by
  unfold receive
  split
  · split
    · exact .refl store
    · exact .setOwn _ _ _
  · split
    · exact .refl store
    · exact .setOwn _ _ _
  · split
    · exact .refl store
    · exact .trans (.attach _ _) (.modifyObject _ _)
    · exact .refl store
  · exact .refl store

theorem proceed_evolves (held : Held) (object : ObjectRef) (steps : List ConstructionStep)
    (store : Store) : store.Evolves (proceed held object steps store).store := by
  induction steps generalizing store with
  | nil => exact .refl store
  | cons step rest ih =>
    cases step with
    | parameter scope name initial => exact .refl store
    | property scope name initial =>
      unfold proceed
      split
      · exact ih store
      · split
        · exact .refl store
        · exact .trans (.setOwn _ _ _) (ih _)
    | behaviour scope behaviour =>
      have hb := ofBehaviour_evolves store held behaviour object
      unfold proceed
      split
      · next error later heq => exact (heq ▸ hb :)
      · next construction later heq => exact (heq ▸ hb :)
    | body constructor scope => exact .addScope rfl
    | phase => exact .refl store
    | register => exact (register_evolves store held object).trans (ih _)

theorem resume_evolves (construction : Construction) (store : Store) (held : Held)
    (incoming : Option Outcome) :
    store.Evolves (construction.resume store held incoming).store := by
  unfold Construction.resume
  split
  · exact proceed_evolves _ _ _ _
  · next outcome =>
    have h := receive_evolves store construction.object construction.current outcome
    split
    · next error later heq =>
      rw [heq] at h
      exact h
    · next later heq =>
      rw [heq] at h
      exact h.trans (proceed_evolves _ _ _ _)

end Construction

/-! ## Nodes -/

namespace NodeFrame

variable {held : Held} {scope : ScopeId} {progress : Progress}

theorem Writes.evolves {later : Store} (h : Writes scope progress store held later) :
    store.Evolves later := by
  cases h with
  | nothing => exact .refl store
  | assigned name value => exact .setVariable _ _ _ _
  | member _ name value => exact .setMember _ _ _ _
  | own _ name value => exact .setOwn _ _ _

theorem Does.evolves {resumed : Resumed Progress} (h : Does scope progress store held resumed) :
    store.Evolves resumed.store := by
  cases h with
  | rests hw => exact hw.evolves
  | evaluates part hw => exact hw.evolves
  | calls => exact .refl store
  | creates values => exact Construction.ofClass_evolves _ _ _ _
  | enters => exact .addScope rfl
  | waits =>
    have hs (ticket : Ticket) :
        store.newTicket.2.Evolves (store.newTicket.2.modifyState held scope fun state =>
          { state with waiters := state.waiters ++ [ticket] }) :=
      .modifyState held scope (fun _ => rfl) (fun _ => rfl) (fun _ => rfl)
    exact Evolves.newTicket.trans (hs _)

theorem resume_evolves (frame : NodeFrame) (store : Store) (held : Held)
    (incoming : Option Outcome) : store.Evolves (frame.resume store held incoming).store :=
  (frame.resume_does store held incoming).evolves

end NodeFrame

/-! ## Starts of units -/

namespace Start

theorem register_evolves (store : Store) (held : Held) (root : ScopeId) (id : ClassId) :
    store.Evolves (register store held root id) := by
  unfold register
  split
  · refine .modifyState _ _ (fun state => ?_) (fun state => ?_) (fun state => ?_) <;>
      (unfold GlobalState.register; split <;> rfl)
  · exact .refl store

theorem proceed_evolves {root : ScopeId} (h : store.IsRoot root) (held : Held) (last : Constant)
    (steps : List StartStep) : store.Evolves (proceed held root last steps store).store := by
  induction steps generalizing store with
  | nil => exact .refl store
  | cons step rest ih =>
    cases step with
    | sharedProperty id name initial =>
      unfold proceed
      dsimp only
      split
      · exact ih h
      · split
        · exact .refl store
        · have hset : store.Evolves
              (store.setOwn (store.classAt id).sharedScope name .none) := .setOwn _ _ _
          exact hset.trans (ih (h.evolved hset))
    | sharedConstructor id =>
      unfold proceed
      split
      · exact .refl store
      · exact ih h
    | register id =>
      have hset := register_evolves store held root id
      exact hset.trans (ih (h.evolved hset))
    | file file =>
      unfold proceed
      split
      · exact .fileScope h held _
      · exact .refl store

theorem proceed_root (held : Held) (root : ScopeId) (last : Constant) (steps : List StartStep)
    (store : Store) : (proceed held root last steps store).frame.root = root := by
  fun_induction proceed held root last steps store <;> first | rfl | assumption

theorem resume_evolves {start : Start} (h : store.IsRoot start.root) (held : Held)
    (incoming : Option Outcome) : store.Evolves (start.resume store held incoming).store := by
  unfold Start.resume
  split
  · exact proceed_evolves h held _ _
  · split
    · exact .refl store
    · split
      · exact .setOwn _ _ _
      · exact .refl store
      · exact .refl store

theorem resume_root (start : Start) (store : Store) (held : Held) (incoming : Option Outcome) :
    (start.resume store held incoming).frame.root = start.root := by
  unfold Start.resume
  split
  · exact proceed_root _ _ _ _ _
  · split
    · rfl
    · split <;> rfl

end Start

/-! ## Frames and machines -/

/-- If the frame starts a unit, it does so in the Global scope. -/
def Frame.StartsAt (root : ScopeId) : Frame τ → Prop
  | .start begun => begun.root = root
  | _ => True

/-- Units are started in the Global scope. -/
def Machine.StartsAt (root : ScopeId) (machine : Machine τ) : Prop :=
  ∀ frame ∈ machine.stack.frames, frame.StartsAt root

variable {host : Host σ τ} {root : ScopeId}

namespace Frame

theorem resumeNative_store (host : Host σ τ) (held : Held) (world : World σ)
    (function : Function) (scope : ScopeId) (task : Option (HostTask τ)) :
    (resumeNative host held world function scope task).world.store = world.store := by
  unfold resumeNative
  split
  · rfl
  · split
    · rfl
    · dsimp only
      split <;> rfl

theorem resumeNative_startsAt (host : Host σ τ) (held : Held) (world : World σ)
    (function : Function) (scope : ScopeId) (task : Option (HostTask τ)) :
    (resumeNative host held world function scope task).frame.StartsAt root := by
  unfold resumeNative
  split
  · trivial
  · split
    · trivial
    · dsimp only
      split <;> trivial

theorem resume_evolves {frame : Frame τ} (hs : frame.StartsAt root) {world : World σ}
    (hr : world.store.IsRoot root) (held : Held) (incoming : Option Outcome) :
    world.store.Evolves (frame.resume host held world incoming).world.store := by
  cases frame with
  | node frame => exact NodeFrame.resume_evolves _ _ _ _
  | start begun =>
    have hb : begun.root = root := hs
    exact Start.resume_evolves (hb ▸ hr) held incoming
  | call begun => exact Call.resume_evolves _ _ _
  | native function scope task =>
    exact .of_eq (congrArg _ (resumeNative_store ..)) (congrArg _ (resumeNative_store ..))
  | construct begun => exact Construction.resume_evolves _ _ _ _

theorem resume_startsAt {frame : Frame τ} (hs : frame.StartsAt root) (held : Held)
    (world : World σ) (incoming : Option Outcome) :
    (frame.resume host held world incoming).frame.StartsAt root := by
  cases frame with
  | start begun => exact (Start.resume_root _ _ _ _).trans hs
  | native function scope task => exact resumeNative_startsAt ..
  | node frame => trivial
  | call begun => trivial
  | construct begun => trivial

theorem ofWork_startsAt (work : Work) : (ofWork work : Frame τ).StartsAt root := by
  cases work <;> trivial

end Frame

namespace Machine

/-- The frames of a machine after a move are those below the resumed one, the resumed one
itself, and the frame of the work that it gives away. -/
theorem of_mem_follow {resumed : Frame.Resumed σ τ} {below : Stack τ} {frame : Frame τ}
    (h : frame ∈ (follow resumed below).machine.stack.frames) :
    frame = resumed.frame ∨ frame ∈ below.frames ∨
      ∃ work, resumed.flow = .ok (.push work) ∧ frame = .ofWork work := by
  obtain ⟨on, world, flow⟩ := resumed
  have hp (hmem : frame ∈ (below.push on).frames) : frame = on ∨ frame ∈ below.frames :=
    List.mem_cons.mp hmem
  unfold follow at h
  match flow with
  | .error _ | .ok .yield | .ok .wait => exact (hp h).imp_right .inl
  | .ok (.push work) =>
    dsimp only at h
    split at h
    · exact (hp h).imp_right .inl
    · rcases List.mem_cons.mp h with rfl | hmem
      · exact .inr (.inr ⟨work, rfl, rfl⟩)
      · exact (hp hmem).imp_right .inl
  | .ok (.done outcome) =>
    dsimp only at h
    split at h
    · split at h <;> exact .inr (.inl h)
    · exact .inr (.inl h)

theorem follow_world (resumed : Frame.Resumed σ τ) (below : Stack τ) :
    (follow resumed below).world = resumed.world := by
  obtain ⟨on, world, flow⟩ := resumed
  unfold follow
  match flow with
  | .error _ | .ok .yield | .ok .wait => rfl
  | .ok (.push work) =>
    dsimp only
    split <;> rfl
  | .ok (.done outcome) =>
    dsimp only
    split
    · split <;> rfl
    · rfl

/-- A move finds nothing left to do, or it resumes the frame on top. -/
theorem move_cases (host : Host σ τ) (outside : Held) (machine : Machine τ) (world : World σ) :
    machine.move host outside world
        = ⟨machine, world, some (.ok (.finished (machine.result.getD .none)))⟩ ∨
      ∃ frame below, machine.stack.frames = frame :: below.frames ∧
        machine.move host outside world
          = follow (frame.resume host (fun _ => outside () ++ machine.refs host) world
              machine.incoming) below := by
  obtain ⟨⟨frames, depth, hd⟩, incoming, result⟩ := machine
  cases frames with
  | nil => exact .inl rfl
  | cons frame rest => exact .inr ⟨frame, ⟨rest, depth - 1, by simp_all⟩, rfl, rfl⟩

variable {machine : Machine τ} {world : World σ}

/-- Whatever a machine runs, a move of it declares nothing. -/
theorem move_evolves (host : Host σ τ) (hs : machine.StartsAt root)
    (hr : world.store.IsRoot root) (outside : Held) :
    world.store.Evolves (machine.move host outside world).world.store := by
  rcases move_cases host outside machine world with hm | ⟨frame, below, hfr, hm⟩
  · rw [hm]
    exact .refl _
  · rw [hm, follow_world]
    have hf : frame ∈ machine.stack.frames := hfr ▸ List.mem_cons_self
    exact Frame.resume_evolves (hs frame hf) hr _ _

theorem move_startsAt (host : Host σ τ) (hs : machine.StartsAt root) (outside : Held)
    (world : World σ) :
    (machine.move host outside world).machine.StartsAt root := by
  rcases move_cases host outside machine world with hm | ⟨frame, below, hf, hm⟩
  · rw [hm]
    exact hs
  · rw [hm]
    intro other ho
    rcases of_mem_follow ho with rfl | hb | ⟨work, -, rfl⟩
    · exact Frame.resume_startsAt (hs frame (hf ▸ List.mem_cons_self)) _ _ _
    · exact hs other (hf ▸ List.mem_cons_of_mem _ hb)
    · exact Frame.ofWork_startsAt work

/-- Moves that do not stop the machine declare nothing. -/
theorem goesOn_evolves {outside : Held} {later : Machine τ × World σ}
    (hmv : Relation.ReflTransGen (GoesOn host outside) (machine, world) later)
    (hst : machine.StartsAt root) (hr : world.store.IsRoot root) :
    world.store.Evolves later.2.store ∧ later.1.StartsAt root := by
  induction hmv with
  | refl => exact ⟨.refl _, hst⟩
  | @tail between last _ hm ih =>
    obtain ⟨hb, hbs⟩ := ih
    have hs := move_evolves host hbs (hr.evolved hb) outside
    have hf := move_startsAt host hbs outside between.2
    rw [hm] at hs hf
    exact ⟨hb.trans hs, hf⟩

/-- Whatever a machine runs, a step of it declares nothing. -/
theorem step_evolves {outside : Held} {moves : Nat} {moved : Moved σ τ (Except Error Status)}
    (hsp : machine.step host outside moves world = some moved)
    (hst : machine.StartsAt root) (hr : world.store.IsRoot root) :
    world.store.Evolves moved.world.store ∧ moved.machine.StartsAt root := by
  obtain ⟨last, before, hm, hl⟩ := moves_of_step hsp
  obtain ⟨hb, hbs⟩ := goesOn_evolves hm hst hr
  have hs := move_evolves host hbs (hr.evolved hb) outside
  have hf := move_startsAt host hbs outside before
  rw [hl] at hs hf
  exact ⟨hb.trans hs, hf⟩

end Machine

theorem Program.endFrame_evolves (program : Program) (store : Store) :
    store.Evolves (program.endFrame store) := by
  have hs : store.Evolves (store.withState (fun _ => program.refs) program.root
      fun state => (state.waiters, { state with waiters := [] })).2 :=
    .withState _ _ (fun _ => rfl) (fun _ => rfl) (fun _ => rfl)
  exact hs.trans (.releaseAll _)

end StepScript
