import StepScript.Proofs.Running.Frames
set_option autoImplicit false

/-!
# What frames give away

A frame that is resumed may give work away.  Nodes begin the constructions of instances, and the
construction of an instance begins those of its behaviours, which have no behaviours themselves.  So
every construction is that of an object that has been made, and of an instance if there are
behaviours to attach (`Frame.resume_builds`).
-/

namespace StepScript

variable {σ τ : Type} {root : ScopeId} {own : Option ObjectRef} {store : Store} {held : Held}

/-! ## Nodes, calls and units -/

/-- Nodes begin constructions of instances. -/
theorem NodeFrame.construct_of_resume (hp : store.InPlace root) {frame : NodeFrame}
    {incoming : Option Outcome} {begun : Construction}
    (h : (frame.resume store held incoming).flow = .ok (.push (.construct begun))) :
    ∃ id args, id.index < store.classes.size ∧
      Construction.ofClass store held id args
        = (.ok begun, (frame.resume store held incoming).store) := by
  have hd := frame.resume_does store held incoming
  generalize frame.resume store held incoming = resumed at h hd ⊢
  cases hd with
  | rests hw hr =>
    obtain rfl : _ = Except.ok (Flow.push (.construct begun)) := h
    exact hr.elim
  | @creates name id values hf =>
    refine ⟨id, values, hp.rooted.class_found hp.registered.grounded hf, ?_⟩
    generalize Construction.ofClass store held id values = planned at h
    obtain ⟨error | construction, later⟩ := planned
    · cases h
    · cases h
      rfl
  | evaluates | calls | enters | waits => cases h

/-- Only nodes and constructions begin constructions. -/
theorem Call.resume_ne_construct (call : Call) (store : Store) (incoming : Option Outcome)
    (begun : Construction) :
    (call.resume store incoming).flow ≠ .ok (.push (.construct begun)) := by
  have hf (store : Store) (scope : ScopeId) (left : List (String × Node)) :
      (call.fillNext store scope left).flow ≠ .ok (.push (.construct begun)) := by
    unfold fillNext
    split <;> simp
  unfold resume
  split
  · split
    · simp
    · exact hf _ _ _
  · split
    · simp
    · exact hf _ _ _
  · dsimp only
    split <;> simp
  · split <;> simp [Flow.give]

theorem Start.resume_ne_construct (start : Start) (store : Store) (held : Held)
    (incoming : Option Outcome) (begun : Construction) :
    (start.resume store held incoming).flow ≠ .ok (.push (.construct begun)) := by
  have hp (held : Held) (last : Constant) (steps : List StartStep) (store : Store) :
      (proceed held start.root last steps store).flow ≠ .ok (.push (.construct begun)) := by
    fun_induction proceed held start.root last steps store <;> simp [Flow.give, *]
  unfold resume
  split
  · exact hp _ _ _ _
  · split
    · simp
    · split <;> simp

/-! ## Constructions -/

namespace Construction

theorem ofClass_builds {id : ClassId} {args : List Constant} {construction : Construction}
    {later : Store} (h : ofClass store held id args = (.ok construction, later)) :
    construction.Builds later := by
  rcases ofClass_cases store held id args with ⟨error, he⟩ | ⟨plan, begun, after, hbg, hp⟩
  · cases he.symm.trans h
  · obtain ⟨hs, rfl⟩ := Prod.mk.inj (hbg.symm.trans h)
    obtain rfl := Except.ok.inj hs
    obtain ⟨between, base, hb, had, hm⟩ := hp.made
    obtain ⟨checked, hpl⟩ := hp.bound
    refine ⟨hm.made (fun hnil => ?_) fun id hid => (had.fresh id hid).2, fun _ _ _ => ?_⟩
    · -- There is a level for the last ancestor at least.
      have hc := had.chain
      rw [levels_declared hpl, show plan.scopes = [] from hnil] at hc
      generalize (store.hierarchy id).map store.classAt = classes at hb hc
      cases hc
      cases hb
    · rw [hm.object_eq]
      rfl

theorem ofBehaviour_builds {behaviour : Behaviour} {owner : ObjectRef} {construction : Construction}
    {later : Store} (h : ofBehaviour store held behaviour owner = (.ok construction, later)) :
    construction.Builds later := by
  rcases ofBehaviour_cases store held behaviour owner with
    ⟨error, he⟩ | ⟨begun, after, hbg, hb⟩
  · cases he.symm.trans h
  · obtain ⟨hsm, rfl⟩ := Prod.mk.inj (hbg.symm.trans h)
    obtain rfl := Except.ok.inj hsm
    obtain ⟨binding, outer, -, -, hnew, hm, -⟩ := hb.begun
    refine ⟨hm.made (List.cons_ne_nil _ _) fun id hid => ?_, fun scope other hs => ?_⟩
    · rw [List.mem_singleton.mp hid]
      simp
    · rw [hnew] at hs
      simp [behaviourSteps, parameterSteps, propertySteps, bodySteps] at hs

/-- A resumed construction goes on with steps that it had, and what it gives away builds on
instances as well. -/
structure GoesOnBuilding (construction : Construction) (resumed : Resumed Construction) : Prop where
  object : resumed.frame.object = construction.object
  steps : resumed.frame.steps ⊆ construction.steps
  gives : ∀ begun, resumed.flow = .ok (.push (.construct begun)) → begun.Builds resumed.store

theorem proceed_goesOnBuilding (held : Held) (object : ObjectRef) (steps : List ConstructionStep)
    (store : Store) : GoesOnBuilding { object, steps } (proceed held object steps store) := by
  fun_induction proceed held object steps store with
  | case1 | case2 | case4 | case6 | case8 | case9 =>
    exact ⟨rfl, by simp, fun begun hf => by cases hf⟩
  | case3 _ _ _ _ _ _ ih | case5 _ _ _ _ _ ih | case10 _ _ ih =>
    exact ⟨ih.object, fun _ hs => List.mem_cons_of_mem _ (ih.steps hs), ih.gives⟩
  | case7 scope behaviour steps store construction later heq =>
    refine ⟨rfl, by simp, fun begun hf => ?_⟩
    cases hf
    exact ofBehaviour_builds heq

theorem resume_goesOnBuilding (construction : Construction) (store : Store) (held : Held)
    (incoming : Option Outcome) :
    construction.GoesOnBuilding (construction.resume store held incoming) := by
  have hp (later : Store) : construction.GoesOnBuilding
      (proceed held construction.object construction.steps later) :=
    let goes := proceed_goesOnBuilding held construction.object construction.steps later
    ⟨goes.object, goes.steps, goes.gives⟩
  unfold resume
  split
  · exact hp store
  · split
    · exact ⟨rfl, List.Subset.refl _, fun begun hf => by cases hf⟩
    · exact hp _

end Construction

/-! ## Frames -/

namespace Frame

theorem ofWork_eq_construct {work : Work} {begun : Construction}
    (h : (ofWork work : Frame τ) = .construct begun) : work = .construct begun := by
  cases work with
  | construct other => rw [Frame.construct.inj h]
  | _ => cases h

theorem resumeNative_pushes_nothing (host : Host σ τ) (held : Held) (world : World σ)
    (function : Function) (scope : ScopeId) (task : Option (HostTask τ)) :
    ∃ next, (resumeNative host held world function scope task).frame = .native function scope next ∧
      ∀ work, (resumeNative host held world function scope task).flow ≠ .ok (.push work) := by
  have hp (world : World σ) (task : HostTask τ) :
      ∃ next, (pollTask host world function scope task).frame = .native function scope next ∧
        ∀ work, (pollTask host world function scope task).flow ≠ .ok (.push work) := by
    refine ⟨_, rfl, fun work => ?_⟩
    unfold pollTask
    dsimp only
    cases (task.poll host world.context).1 with
    | error error => simp [Except.map]
    | ok answer => cases answer <;> simp [Except.map, Flow.give]
  unfold resumeNative
  split
  · exact hp _ _
  · split
    · exact ⟨_, rfl, by simp⟩
    · dsimp only
      split
      · exact ⟨_, rfl, by simp⟩
      · exact ⟨_, rfl, by simp [Flow.give]⟩
      · exact hp _ _

/-- A construction builds an object that has been made. -/
def Builds (store : Store) (frame : Frame τ) : Prop :=
  ∀ begun, frame = .construct begun → begun.Builds store

theorem builds_of_own {frame : Frame τ} (h : frame.own = none) : frame.Builds store := by
  intro begun hb
  rw [hb] at h
  cases h

theorem Builds.unfolded {frame : Frame τ} {later : Store} (h : frame.Builds store)
    (hu : store.Unfolds own later) : frame.Builds later :=
  fun begun hb => (h begun hb).later hu rfl (List.Subset.refl _)

theorem resume_builds {host : Host σ τ} {frame : Frame τ} {world : World σ}
    (hp : world.store.InPlace root) (h : frame.Builds world.store) {incoming : Option Outcome}
    (hu : world.store.Unfolds own (frame.resume host held world incoming).world.store) :
    (frame.resume host held world incoming).frame.Builds
        (frame.resume host held world incoming).world.store ∧
      ∀ work, (frame.resume host held world incoming).flow = .ok (.push work) →
        (ofWork work : Frame τ).Builds (frame.resume host held world incoming).world.store := by
  have hw {flow : Except Error Flow} {later : Store}
      (hg : ∀ begun, flow = .ok (.push (.construct begun)) → begun.Builds later)
      (work : Work) (hf : flow = .ok (.push work)) : (ofWork work : Frame τ).Builds later := by
    intro begun hb
    obtain rfl := ofWork_eq_construct hb
    exact hg begun hf
  cases frame with
  | node frame =>
    refine ⟨builds_of_own rfl, hw fun begun hf => ?_⟩
    obtain ⟨id, args, -, hb⟩ := NodeFrame.construct_of_resume hp hf
    exact Construction.ofClass_builds hb
  | start begun =>
    exact ⟨builds_of_own rfl, hw fun other hf => absurd hf (begun.resume_ne_construct _ _ _ other)⟩
  | call begun =>
    exact ⟨builds_of_own rfl, hw fun other hf => absurd hf (begun.resume_ne_construct _ _ other)⟩
  | native function scope task =>
    obtain ⟨next, hfr, hf⟩ := resumeNative_pushes_nothing host held world function scope task
    refine ⟨builds_of_own ((congrArg Frame.own hfr).trans rfl), fun work hps => ?_⟩
    exact absurd hps (hf work)
  | construct begun =>
    obtain ⟨ho, hs, hg⟩ := begun.resume_goesOnBuilding world.store held incoming
    refine ⟨fun other heq => ?_, hw hg⟩
    obtain rfl := Frame.construct.inj heq
    exact (h begun rfl).later hu ho hs

end Frame

end StepScript
