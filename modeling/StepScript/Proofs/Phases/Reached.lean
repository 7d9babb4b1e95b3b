import StepScript.Proofs.Phases.Plans
set_option autoImplicit false

/-!
# How far a construction has come

At any time the construction of an instance has done the first steps of its plan, and may have
given the work of the next one away (`Construction.Task.Reached`).  Whatever happens beside it
changes nothing about this (`Reached.continued`), and when it is resumed it goes on with the next
steps (`Reached.resume`).
-/

namespace StepScript

variable {performed : List Event} {left : List ConstructionStep}

/-- The scope of the step binds its name. -/
def ConstructionStep.BoundIn (store : Store) : ConstructionStep → Prop
  | .parameter scope name _ | .property scope name _ => store.bindsVariable scope name = true
  | .behaviour .. | .body .. | .phase | .register => True

/-! ## Stores in order -/

namespace Store

variable {root : ScopeId} {own : Option ObjectRef} {store later : Store}

theorem apart_none (object : ObjectRef) : Apart none object := fun _ ho => nomatch ho

theorem Unfolds.boundIn (h : store.Unfolds own later) {step : ConstructionStep}
    (hb : step.BoundIn store) : step.BoundIn later := by
  cases step with
  | parameter | property => exact h.binds hb
  | _ => trivial

/-- Everything is in its place, the Global scope is no level of an object, and only objects of the
store are registered for updates. -/
structure Orderly (root : ScopeId) (store : Store) : Prop where
  place : store.InPlace root
  apart : ∀ object, root ∉ (store.object object).scopes
  books : ∀ object : ObjectRef, store.objects.size ≤ object.key → ∀ order,
    (store.updates root order).count (.ofObject object) = 0

theorem Orderly.isRoot (h : store.Orderly root) : store.IsRoot root :=
  h.place.registered.grounded.isRoot

theorem Orderly.continued (h : store.Orderly root) (hp : later.InPlace root)
    (hu : store.Unfolds own later)
    (hown : ∀ constructed, own = some constructed → constructed.key < store.objects.size) :
    later.Orderly root := by
  refine ⟨hp, fun object hl => ?_, fun object ho order => ?_⟩
  · by_cases hold : object.key < store.objects.size
    · exact h.apart object (hu.levels hold ▸ hl)
    · have hf := hu.fresh (Nat.le_of_not_lt hold) root hl
      exact Nat.not_lt_of_le hf h.isRoot.inside
  · have hnew := Nat.le_trans hu.known ho
    rw [hu.updates (fun constructed how => ?_) root order]
    · exact h.books object hnew order
    · exact Nat.ne_of_lt (Nat.lt_of_lt_of_le (hown constructed how) hnew)

theorem Orderly.changed (h : store.Orderly root) (hc : Changes root own store later)
    (hown : ∀ constructed, own = some constructed → constructed.key < store.objects.size) :
    later.Orderly root :=
  h.continued (hc.inPlace h.place) (Changes.unfolds hc) hown

/-- Whether the object is updated in the phase, once it is registered. -/
def updatedIn (store : Store) (object : ObjectRef) (id : ClassId) (order : UpdateOrder) : Bool :=
  (store.hasInstanceUpdate id
    || (store.object object).behaviours.any (Construction.updatesItself store))
  && decide (order = store.updateOrderOf id)

/-- A behaviour keeps its `update`. -/
theorem Continues.updatesItself_eq (h : store.Continues root own later)
    (hst : store.Orderly root) {behaviour : ObjectRef}
    (hk : behaviour.key < store.objects.size) :
    Construction.updatesItself later behaviour = Construction.updatesItself store behaviour := by
  have ho : later.outerScope? behaviour = store.outerScope? behaviour := by
    rw [outerScope?, h.unfolds.levels hk, outerScope?]
  unfold Construction.updatesItself
  rw [ho]
  cases hs : store.outerScope? behaviour with
  | none => rfl
  | some outer =>
    have hl : outer ∈ (store.object behaviour).scopes := List.mem_of_head? hs
    have hne : outer ≠ root := fun heq => hst.apart behaviour (heq ▸ hl)
    have hr := h.scopes (hst.place.rooted.outer_hosts hs).inside hne
    simp only [ownFunction?, hr.functions]

theorem Continues.updatedIn_eq (h : store.Continues root own later) (hs : store.Orderly root)
    {object : ObjectRef} {id : ClassId} (hid : id.index < store.classes.size)
    (hb : (later.object object).behaviours = (store.object object).behaviours)
    (hk : ∀ behaviour ∈ (store.object object).behaviours, behaviour.key < store.objects.size)
    (order : UpdateOrder) : later.updatedIn object id order = store.updatedIn object id order := by
  have hany : (store.object object).behaviours.any (Construction.updatesItself later)
      = (store.object object).behaviours.any (Construction.updatesItself store) := by
    rw [Bool.eq_iff_iff, List.any_eq_true, List.any_eq_true]
    refine exists_congr fun behaviour => and_congr_right fun hmem => ?_
    rw [h.updatesItself_eq hs (hk behaviour hmem)]
  unfold updatedIn
  rw [hb, hany, hasInstanceUpdate_eq, updateOrderOf_eq, h.ancestry hid,
    ← hasInstanceUpdate_eq, ← updateOrderOf_eq]

end Store

/-! ## What has been done -/

namespace Construction

/-- An instance of a class that is to be constructed. -/
structure Task where
  object : ObjectRef
  id : ClassId
  args : List Constant
  plan : Plan

/-- The construction has done the first steps of its plan, and it has given the work of `current`
away. -/
structure Task.Reached (task : Task) (root : ScopeId) (store : Store)
    (done : List ConstructionStep) (current : Option ConstructionStep)
    (rest : List ConstructionStep) (events : List Event) : Prop where
  fits : task.plan.Fits root store task.object task.id task.args
  split : task.plan.steps = done ++ (current.toList ++ rest)
  performs : Performs task.object done current events
  bound : ∀ step ∈ done, step.BoundIn store
  names : (store.object task.object).behaviours.map (·.typeName)
    = done.filterMap ConstructionStep.attaches?
  knows : ∀ behaviour ∈ (store.object task.object).behaviours,
    behaviour.key < store.objects.size
  unregistered : .register ∉ done → ∀ order,
    (store.updates root order).count (.ofObject task.object) = 0
  registered : .register ∈ done → ∀ order, (store.updates root order).count (.ofObject task.object)
      = if store.updatedIn task.object task.id order then 1 else 0

namespace Task.Reached

variable {root : ScopeId} {own : Option ObjectRef} {store later : Store} {held : Held} {task : Task}
  {done rest steps : List ConstructionStep} {current : Option ConstructionStep}
  {step : ConstructionStep} {events : List Event}

/-- Nothing that happens beside a construction matters to it. -/
theorem continued (h : task.Reached root store done current rest events)
    (hs : store.Orderly root) (hc : store.Continues root own later)
    (hap : Store.Apart own task.object) :
    task.Reached root later done current rest events := by
  have hu := hc.unfolds
  have hb := hu.behaviours h.fits.key_lt hap
  refine
    { fits := h.fits.continued hs.isRoot hc
      split := h.split
      performs := h.performs
      bound := fun step hst => hu.boundIn (h.bound step hst)
      names := hb ▸ h.names
      knows := fun behaviour hmem => ?_
      unregistered := fun hnot order => ?_
      registered := fun hin order => ?_ }
  · exact Nat.lt_of_lt_of_le (h.knows behaviour (hb ▸ hmem)) hu.known
  · rw [hu.updates hap]
    exact h.unregistered hnot order
  · rw [hu.updates hap, h.registered hin, hc.updatedIn_eq hs h.fits.known
      hb h.knows]

/-- An instance is registered with the last step only. -/
theorem not_registered (h : task.Reached root store done current rest events)
    (hl : current.toList ++ rest ≠ []) : .register ∉ done := by
  obtain ⟨work, hw, hnot⟩ := task.plan.steps_eq
  have hs := h.split.symm.trans hw
  rw [← List.dropLast_concat_getLast hl, ← List.append_assoc] at hs
  have hd := (List.append_inj' hs rfl).1
  exact fun hin => hnot (hd ▸ List.mem_append_left _ hin)

/-- The work of the next step has been given away. -/
theorem starts (h : task.Reached root store done none (step :: rest) events) {event : Event}
    (hof : event.object = task.object) (hd : event.deed = .starts step)
    (he : event.Starts step) :
    task.Reached root store done (some step) rest (events ++ [event]) :=
  { h with split := h.split, performs := .starts h.performs hof hd he }

/-- One more step is over. -/
theorem next (h : task.Reached root store done current rest events) (hrt : store.IsRoot root)
    (hc : store.Continues root own later) (hs : current.toList ++ rest = step :: left)
    (hp : Performs task.object (done ++ [step]) none performed) (hb : step.BoundIn later)
    (hn : (later.object task.object).behaviours.map (·.typeName)
      = (store.object task.object).behaviours.map (·.typeName) ++ step.attaches?.toList)
    (hk : ∀ behaviour ∈ (later.object task.object).behaviours, behaviour.key < store.objects.size)
    (hu : .register ∉ done ++ [step] → ∀ order,
      (later.updates root order).count (.ofObject task.object) = 0)
    (hr : .register ∈ done ++ [step] → ∀ order,
      (later.updates root order).count (.ofObject task.object)
        = if later.updatedIn task.object task.id order then 1 else 0) :
    task.Reached root later (done ++ [step]) none left performed := by
  refine
    { fits := h.fits.continued hrt hc
      split := ?_
      performs := hp
      bound := ?_
      names := ?_
      knows := fun other ho => Nat.lt_of_lt_of_le (hk other ho) hc.unfolds.known
      unregistered := hu
      registered := hr }
  · rw [h.split, hs, List.append_assoc]
    rfl
  · intro other ho
    rcases List.mem_append.mp ho with ho | hl
    · exact hc.unfolds.boundIn (h.bound other ho)
    · rwa [List.mem_singleton.mp hl]
  · rw [hn, h.names, List.filterMap_append]
    cases hac : step.attaches? <;> simp [hac]

/-- A step that neither attaches nor registers anything is over. -/
theorem passed (h : task.Reached root store done current rest events) (hrt : store.IsRoot root)
    (hs : current.toList ++ rest = step :: left)
    (hp : Performs task.object (done ++ [step]) none performed) (hb : step.BoundIn store)
    (hac : step.attaches? = none) (hne : step ≠ .register) :
    task.Reached root store (done ++ [step]) none left performed := by
  have hr : .register ∈ done ++ [step] ↔ .register ∈ done := by
    simp [Ne.symm hne]
  refine h.next hrt ((Store.Evolves.refl store).continues root (.refl none store)) hs
    hp hb ?_ h.knows ?_ ?_
  · rw [hac, Option.toList_none, List.append_nil]
  · exact fun hnot => h.unregistered fun hin => hnot (hr.mpr hin)
  · exact fun hin => h.registered (hr.mp hin)

/-- The behaviour that the construction has waited for is attached. -/
theorem attached {scope : ScopeId} {behaviour : Behaviour} {added : ObjectRef}
    (h : task.Reached root store done (some (.behaviour scope behaviour)) rest events)
    (hr : store.IsRoot root) (hn : added.typeName = behaviour.name)
    (hk : added.key < store.objects.size)
    (hl : later = (store.attach scope added).modifyObject task.object fun owner =>
      { owner with behaviours := owner.behaviours ++ [added] }) :
    task.Reached root later (done ++ [.behaviour scope behaviour]) none rest
      (events ++ [⟨task.object, .completes (.behaviour scope behaviour), store, later⟩]) := by
  have hc : Store.Changes root (some task.object) store later :=
    .single (hl ▸ .attach scope added rfl)
  have hb : (later.object task.object).behaviours
      = (store.object task.object).behaviours ++ [added] := by
    rw [hl, Store.object_modifyObject, if_pos ⟨rfl, h.fits.key_lt⟩]
    rfl
  have hup (order : UpdateOrder) : later.updates root order = store.updates root order := by
    have hs : ((store.attach scope added).scope root).state = (store.scope root).state := by
      unfold Store.attach
      rw [Store.scope_modifyScope]
      split
      · next heq => rw [heq.1]
      · rfl
    rw [hl]
    exact congrArg (fun state => (state.getD {}).registry order) hs
  have hu := h.not_registered (List.cons_ne_nil _ _)
  have hrg : .register ∉ done ++ [.behaviour scope behaviour] := by simpa using hu
  refine h.next hr (hc.continues hr) rfl
    (.completes h.performs rfl rfl ⟨added, hn, hk, hl⟩) trivial ?_ ?_ ?_
    fun hin => absurd hin hrg
  · rw [hb, List.map_append, ConstructionStep.attaches?, ← hn]
    rfl
  · rw [hb]
    intro other ho
    rcases List.mem_append.mp ho with ho | hls
    · exact h.knows other ho
    · rwa [List.mem_singleton.mp hls]
  · intro _ order
    rw [hup, h.unregistered hu]

/-- The instance is registered for updates. -/
theorem registers (h : task.Reached root store done none (.register :: rest) events)
    (hs : store.Orderly root) (held : Held) :
    task.Reached root (register store held task.object) (done ++ [.register]) none rest
      (events ++ [⟨task.object, .completes .register, store, register store held task.object⟩]) := by
  have hch : Store.Changes root (some task.object) store (register store held task.object) :=
    .single (.register held rfl)
  have hc := hch.continues hs.isRoot
  have hb := h.unregistered (h.not_registered (List.cons_ne_nil _ _))
  obtain ⟨outer, hot⟩ := h.fits.exists_outer
  have hr := h.fits.root_eq hs.place held hot
  have ho : (register store held task.object).object = store.object := by
    unfold Store.object
    rw [objects_register]
  refine h.next hs.isRoot hc rfl (.passes h.performs rfl ⟨rfl, held, rfl⟩) trivial ?_ ?_
    (fun hnot => absurd (by simp) hnot) ?_
  · rw [ho]
    exact (List.append_nil _).symm
  · rw [ho]
    exact h.knows
  · intro _ order
    rw [hc.updatedIn_eq hs h.fits.known (by rw [ho]) h.knows]
    unfold register Store.updatedIn
    rw [h.fits.classId, hot]
    dsimp only
    split
    · next hu =>
      unfold Store.updates Store.modifyState
      rw [Store.scope_withState, hr, if_pos ⟨rfl, hs.isRoot.inside⟩, hu]
      dsimp only
      rw [Option.getD_some, GlobalState.count_register]
      have hcn := hb order
      unfold Store.updates at hcn
      simp [hcn]
    · next hi => simp [hb order, hi]

end Task.Reached

/-! ## Resuming -/

/-- A construction is resumed with what it waits for. -/
def Waits (construction : Construction) (bound : Nat) : Option Outcome → Prop
  | none => construction.current = none
  | some outcome => ∃ step, construction.current = some step ∧
      ∀ scope behaviour added, step = .behaviour scope behaviour →
        outcome = .value (.object added) → added.typeName = behaviour.name ∧ added.key < bound

/-- What is left of a construction that has been resumed, and how it has ended. -/
inductive Leaves (object : ObjectRef) : Resumed Construction → Option ConstructionStep →
    List ConstructionStep → List Event → Prop where
  | finishes {store : Store} :
      Leaves object ⟨{ object, steps := [] }, store, .ok (.give (.object object))⟩ none []
        [⟨object, .finishes, store, store⟩]
  | fails {frame : Construction} {store : Store} {error : Error}
      {current : Option ConstructionStep} {rest : List ConstructionStep}
      (left : current.toList ++ rest ≠ []) : Leaves object ⟨frame, store, .error error⟩ current rest []
  | pushes {store : Store} {work : Work} {step : ConstructionStep} {rest : List ConstructionStep} :
      Leaves object ⟨{ object, current := some step, steps := rest }, store, .ok (.push work)⟩
        (some step) rest []
  | pauses {store : Store} {rest : List ConstructionStep} (left : rest ≠ []) :
      Leaves object ⟨{ object, steps := rest }, store, .ok .yield⟩ none rest []

/-- An outcome that is refused leaves no trace. -/
theorem receive_error {store later : Store} {object : ObjectRef} {step : Option ConstructionStep}
    {outcome : Outcome} {error : Error}
    (h : receive store object step outcome = (.error error, later)) : later = store := by
  unfold receive at h
  split at h
  · split at h
    · exact (Prod.mk.inj h).2.symm
    · cases h
  · split at h
    · exact (Prod.mk.inj h).2.symm
    · cases h
  · split at h
    · exact (Prod.mk.inj h).2.symm
    · cases h
    · exact (Prod.mk.inj h).2.symm
  · cases h

/-- The resumed construction has come further, and its events say how. -/
def Task.GoesOn (task : Task) (root : ScopeId) (events : List Event)
    (resumed : Resumed Construction) (more : List Event) : Prop :=
  ∃ done current rest performed last,
    task.Reached root resumed.store done current rest (events ++ performed) ∧
      more = performed ++ last ∧ Leaves task.object resumed current rest last

namespace Task.Reached

variable {root : ScopeId} {store later : Store} {held : Held} {task : Task}
  {done rest steps : List ConstructionStep} {current : Option ConstructionStep}
  {step : ConstructionStep} {events : List Event}

/-- A name is bound, and the step is over. -/
theorem binds (h : task.Reached root store done current rest events) (hs : store.Orderly root)
    {scope : ScopeId} {name : String} {value : Constant}
    (hsp : current.toList ++ rest = step :: left)
    (hp : Performs task.object (done ++ [step]) none performed) (hsc : store.Hosts scope)
    (hbn : ∀ store : Store, store.bindsVariable scope name = true → step.BoundIn store)
    (hac : step.attaches? = none) (hne : step ≠ .register) :
    task.Reached root (store.setOwn scope name value) (done ++ [step]) none left performed := by
  have hb : Store.Changes root none store (store.setOwn scope name value) :=
    .single (.bind hsc.plain name value)
  have hl := h.continued hs (hb.continues hs.isRoot) (Store.apart_none _)
  have hr := hs.isRoot.evolved (hb.evolves hs.isRoot)
  refine hl.passed hr hsp hp (hbn _ ?_) hac hne
  rw [Store.bindsVariable, Store.scope_setOwn_self hsc.inside, Table.binds_insert]
  simp

theorem proceed (h : task.Reached root store done none steps events) (hs : store.Orderly root)
    (hsc : store.HostsAll (steps.flatMap ConstructionStep.scopes)) (held : Held) :
    task.GoesOn root events (Construction.proceed held task.object steps store)
      (stepEvents held task.object steps store) := by
  have hrt := hs.isRoot
  induction steps generalizing store done events with
  | nil => exact ⟨done, none, [], [], _, (List.append_nil events).symm ▸ h, rfl, .finishes⟩
  | cons step rest ih =>
    rw [List.flatMap_cons, Store.hostsAll_append] at hsc
    have hgo {later : Store} {event : Event}
        (hr : task.Reached root later (done ++ [step]) none rest (events ++ [event]))
        (hc : Store.Changes root (some task.object) store later) :
        task.GoesOn root events (Construction.proceed held task.object rest later)
          (event :: stepEvents held task.object rest later) := by
      have hl := hs.changed hc fun _ ho => Option.some.inj ho ▸ h.fits.key_lt
      obtain ⟨done', current, left, performed, last, hr', hm, hlv⟩ :=
        ih hr hl (hc.hosts hs.place hsc.2) hl.isRoot
      refine ⟨done', current, left, event :: performed, last, ?_, congrArg _ hm, hlv⟩
      rwa [List.append_assoc] at hr'
    have hst {later : Store} {work : Work} {event : Event}
        (hr : task.Reached root later done (some step) rest (events ++ [event])) :
        task.GoesOn root events
          ⟨{ object := task.object, current := some step, steps := rest }, later,
            .ok (.push work)⟩ [event] :=
      ⟨done, some step, rest, [event], [], hr, rfl, .pushes⟩
    cases step with
    | parameter scope name initial => exact hst (h.starts rfl rfl rfl)
    | property scope name initial =>
      unfold Construction.proceed stepEvents
      dsimp only
      by_cases hb : store.bindsVariable scope name = true
      · rw [if_pos hb, if_pos hb]
        refine hgo (h.passed hrt rfl ?_ hb rfl (by simp)) .refl
        exact .passes h.performs rfl (.inl ⟨rfl, hb, rfl⟩)
      · rw [if_neg hb, if_neg hb]
        have hu := Bool.eq_false_of_not_eq_true hb
        cases initial with
        | some expression => exact hst (h.starts rfl rfl ⟨rfl, hu, rfl⟩)
        | none =>
          have hsp := (Store.hostsAll_cons.mp hsc.1).1
          refine hgo (h.binds hs rfl ?_ hsp (fun _ hb => hb) rfl (by simp))
            (.single (.bind hsp.plain name .none))
          exact .passes h.performs rfl (.inr ⟨rfl, rfl, hu, rfl⟩)
    | behaviour scope behaviour =>
      have he := ofBehaviour_evolves store held behaviour task.object
      have hun := Store.Unfolds.ofBehaviour none store held behaviour task.object
      unfold Construction.proceed stepEvents
      rcases ofBehaviour_cases store held behaviour task.object with
        ⟨error, hsm⟩ | ⟨construction, later, hok, -⟩
      · rw [hsm]
        exact ⟨done, none, _, [], [], (List.append_nil events).symm ▸ h, rfl,
          .fails (List.cons_ne_nil _ _)⟩
      · rw [hok] at he hun ⊢
        have hl := h.continued hs (he.continues root hun) (Store.apart_none _)
        exact hst (hl.starts rfl rfl ⟨held, construction, hok⟩)
    | body constructor scope =>
      have he : store.Evolves (Call.ofBody store constructor scope).2 := .addScope rfl
      have hl := h.continued hs (he.continues root (.addScope rfl))
        (Store.apart_none _)
      exact hst (hl.starts rfl rfl rfl)
    | phase =>
      have hrs : rest ≠ [] := by
        rintro rfl
        obtain ⟨work, hw, -⟩ := task.plan.steps_eq
        have hls := (List.append_inj' (h.split.symm.trans hw) rfl).2
        cases hls
      refine ⟨done ++ [.phase], none, rest, [_], [], ?_, rfl, .pauses hrs⟩
      exact h.passed hrt rfl (.passes h.performs rfl ⟨rfl, rfl⟩) trivial rfl (by simp)
    | register => exact hgo (h.registers hs held) (.single (.register held rfl))

theorem receive (h : task.Reached root store done (some step) rest events)
    (hs : store.Orderly root) (hsc : store.HostsAll step.scopes) {outcome : Outcome}
    (hr : Construction.receive store task.object (some step) outcome = (.ok (), later))
    (had : ∀ scope behaviour added, step = .behaviour scope behaviour →
      outcome = .value (.object added) →
        added.typeName = behaviour.name ∧ added.key < store.objects.size) :
    task.Reached root later (done ++ [step]) none rest
      (events ++ [⟨task.object, .completes step, store, later⟩]) := by
  unfold Construction.receive at hr
  cases step with
  | parameter scope name initial | property scope name initial =>
    dsimp only at hr
    split at hr
    · cases hr
    · next value _ =>
      obtain ⟨-, rfl⟩ := Prod.mk.inj hr
      refine h.binds hs rfl (.completes h.performs rfl rfl ⟨value, rfl⟩) ?_
        (fun _ hb => hb) rfl (by simp)
      exact (Store.hostsAll_cons.mp hsc).1
  | behaviour scope behaviour =>
    dsimp only at hr
    split at hr
    · cases hr
    · next added hv =>
      obtain ⟨-, rfl⟩ := Prod.mk.inj hr
      have ho : outcome = .value (.object added) := by
        cases outcome with
        | value result => exact congrArg Outcome.value (Except.ok.inj hv)
        | _ => cases hv
      obtain ⟨hn, hk⟩ := had scope behaviour added rfl ho
      exact h.attached hs.isRoot hn hk rfl
    · cases hr
  | body constructor scope =>
    obtain ⟨-, rfl⟩ := Prod.mk.inj hr
    exact h.passed hs.isRoot rfl (.completes h.performs rfl rfl rfl) trivial rfl (by simp)
  | phase | register =>
    cases h.performs with
    | starts _ _ _ he => cases he

/-- A construction that is resumed with what it waits for does its next steps. -/
theorem resume (h : task.Reached root store done current rest events) (hs : store.Orderly root)
    {construction : Construction} (hcn : construction = ⟨task.object, current, rest⟩)
    (hsc : store.HostsAll construction.scopes) {incoming : Option Outcome}
    (hw : construction.Waits store.objects.size incoming) (held : Held) :
    task.GoesOn root events (construction.resume store held incoming)
      (construction.events store held incoming) := by
  obtain ⟨hcr, hrs⟩ := Store.hostsAll_append.mp hsc
  subst hcn
  unfold Construction.resume Construction.events
  cases incoming with
  | none =>
    obtain rfl : current = none := hw
    exact h.proceed hs hrs held
  | some outcome =>
    obtain ⟨step, hst, had⟩ := hw
    obtain rfl : current = some step := hst
    have hc : Store.Changes root (some task.object) store
        (Construction.receive store task.object (some step) outcome).2 :=
      receive_changes rfl hcr _
    dsimp only
    rcases heq : Construction.receive store task.object (some step) outcome with
      ⟨error | _, later⟩
    · rw [receive_error heq]
      exact ⟨done, some step, rest, [], [], (List.append_nil events).symm ▸ h, rfl,
        .fails (List.cons_ne_nil _ _)⟩
    · rw [heq] at hc
      have hl := hs.changed hc fun _ ho => Option.some.inj ho ▸ h.fits.key_lt
      have hr := h.receive hs (by simpa using hcr) heq had
      obtain ⟨done', current, left, performed, last, hr', hm, hlv⟩ :=
        hr.proceed hl (hc.hosts hs.place hrs) held
      refine ⟨done', current, left, _ :: performed, last, ?_, congrArg _ hm, hlv⟩
      rwa [List.append_assoc] at hr'

end Task.Reached

end Construction

end StepScript
