import StepScript.Proofs.Running.Objects
set_option autoImplicit false

/-!
# Frames work in scopes of the store

The scopes that a frame refers to are scopes of the store, and they stay so when the frame is
resumed: it does nothing but changes of the store (`Store.Change`), and it refers only to scopes
that it knew, that it has made or that it has found (`Frame.resume_changes`).
-/

namespace StepScript

variable {object : ObjectRef} {id scope found : ScopeId} {name : String}
  {construction : Construction}

/-! ## The scopes of a frame -/

/-- The scopes that a node in evaluation refers to. -/
def NodeFrame.scopes (frame : NodeFrame) : List ScopeId := frame.scope :: frame.progress.scopes

/-- The scope of a call, once it has one. -/
def CallStage.scopes : CallStage → List ScopeId
  | .bind _ => []
  | .fill scope _ _ | .ready scope | .running scope => [scope]

/-- The scopes that a call refers to. -/
def Call.scopes (call : Call) : List ScopeId :=
  call.parent :: (call.function.scopes ++ call.stage.scopes)

/-- The scopes that a step of a construction refers to. -/
def ConstructionStep.scopes : ConstructionStep → List ScopeId
  | .parameter scope _ _ | .property scope _ _ => [scope]
  | .behaviour scope attached => scope :: attached.members.scopes
  | .body constructor scope => scope :: constructor.scopes
  | .phase | .register => []

/-- The scopes that a construction refers to. -/
def Construction.scopes (construction : Construction) : List ScopeId :=
  construction.current.toList.flatMap ConstructionStep.scopes
    ++ construction.steps.flatMap ConstructionStep.scopes

/-- The scopes that work refers to. -/
def Work.scopes : Work → List ScopeId
  | .node _ scope => [scope]
  | .call begun => begun.scopes
  | .native function scope => scope :: function.scopes
  | .construct begun => begun.scopes

/-- The scopes that a flow refers to. -/
def Flow.scopes : Except Error Flow → List ScopeId
  | .ok (.push work) => work.scopes
  | _ => []

variable {σ τ : Type}

/-- The scopes that a frame refers to. -/
def Frame.scopes : Frame τ → List ScopeId
  | .node frame => frame.scopes
  | .start begun => [begun.root]
  | .call begun => begun.scopes
  | .native function scope _ => scope :: function.scopes
  | .construct begun => begun.scopes

/-- The object that a frame constructs. -/
def Frame.own : Frame τ → Option ObjectRef
  | .construct begun => some begun.object
  | _ => none

open Store (InPlace Changes hostsAll_nil hostsAll_cons hostsAll_append)

variable {root : ScopeId} {own : Option ObjectRef} {store : Store} {held : Held}

/-- A resumed frame has changed the store, and it works in scopes of the store. -/
structure Resumed.Changes {φ : Type} (root : ScopeId) (own : Option ObjectRef)
    (scopes : φ → List ScopeId) (store : Store) (resumed : Resumed φ) : Prop where
  changes : Store.Changes root own store resumed.store
  frame : resumed.store.HostsAll (scopes resumed.frame)
  flow : resumed.store.HostsAll (Flow.scopes resumed.flow)

/-- The store is as it was. -/
theorem Resumed.Changes.still {φ : Type} {scopes : φ → List ScopeId} {frame : φ}
    {flow : Except Error Flow} (hfr : store.HostsAll (scopes frame))
    (hf : store.HostsAll (Flow.scopes flow)) :
    Resumed.Changes root own scopes store ⟨frame, store, flow⟩ :=
  ⟨.refl, hfr, hf⟩

/-- The store has changed before. -/
theorem Resumed.Changes.after {φ : Type} {scopes : φ → List ScopeId} {earlier : Store}
    {resumed : Resumed φ} (h : Resumed.Changes root own scopes store resumed)
    (hb : Store.Changes root own earlier store) :
    Resumed.Changes root own scopes earlier resumed :=
  ⟨hb.trans h.changes, h.frame, h.flow⟩

theorem Flow.Rests.scopes_eq {flow : Except Error Flow} (h : Flow.Rests flow) :
    Flow.scopes flow = [] := by
  rcases flow with error | (work | _ | _ | _)
  case ok.push => exact h.elim
  all_goals rfl

/-- An object with a class is in the store, and keeps the class. -/
theorem Store.Unfolds.isInstance {later : Store} (h : store.Unfolds own later)
    (ho : (store.object object).classId.isSome = true) :
    (later.object object).classId.isSome = true := by
  obtain ⟨id, hid⟩ := Option.isSome_iff_exists.mp ho
  rwa [h.classId (Store.key_lt_of_classId hid)]

/-- The construction builds an object that has been made, and only that of an instance has
behaviours to attach. -/
structure Construction.Builds (store : Store) (construction : Construction) : Prop where
  made : store.Made construction.object
  attaches : ∀ scope behaviour, .behaviour scope behaviour ∈ construction.steps →
    (store.object construction.object).classId.isSome = true

theorem Construction.Builds.later {construction other : Construction} {later : Store}
    (h : construction.Builds store) (hu : store.Unfolds own later)
    (ho : other.object = construction.object) (hst : other.steps ⊆ construction.steps) :
    other.Builds later := by
  refine ⟨ho ▸ h.made.unfolded hu, fun scope behaviour hs => ?_⟩
  rw [ho]
  exact hu.isInstance (h.attaches scope behaviour (hst hs))

/-! ## Sizes -/

theorem Store.Changes.keepsDelegates {later : Store} (h : Store.Changes root own store later)
    (hp : store.InPlace root) : store.KeepsDelegates later :=
  (h.evolves hp.registered.grounded.isRoot).keepsDelegates

theorem Store.Changes.hosts {later : Store} (h : Store.Changes root own store later)
    (hp : store.InPlace root) {ids : List ScopeId} (hids : store.HostsAll ids) :
    later.HostsAll ids :=
  hids.kept (h.keepsDelegates hp)

/-- One change after the other. -/
theorem Store.changes_setAllOwn (hid : store.Hosts id) (values : Table Constant) :
    Store.Changes root own store (store.setAllOwn id values) := by
  unfold Store.setAllOwn
  induction values generalizing store with
  | nil => exact .refl
  | cons entry rest ih =>
    exact .head (.bind hid.plain entry.1 entry.2)
      (ih (hid.kept (Store.keepsDelegates_modifyScope rfl)))

/-- A variable is bound where it has been found, or else in a scope that code works in. -/
theorem Store.Hosts.plain_of_found (hid : store.Hosts id) (hr : store.Rooted root)
    {membersOnly : Bool} {bound : Nat} :
    (store.scope ((store.walkFrom held membersOnly (fun place scope =>
      if scope.values.binds name then some place else none) bound id).getD id)).delegate = none := by
  generalize hf : store.walkFrom held membersOnly (fun place scope =>
    if scope.values.binds name then some place else none) bound id = found
  cases found with
  | none => exact hid.plain
  | some place =>
    obtain ⟨other, ho⟩ := Store.exists_of_walkFrom hf
    split at ho
    · next hb =>
      cases ho
      exact hr.plain_of_binds hb
    · cases ho

/-! ## Calls -/

namespace Call

theorem fillNext_changes (call : Call) (left : List (String × Node))
    (hp : store.HostsAll (call.parent :: call.function.scopes)) (hs : store.Hosts scope) :
    Resumed.Changes root own Call.scopes store (call.fillNext store scope left) := by
  obtain ⟨hp, hf⟩ := hostsAll_cons.mp hp
  cases left with
  | nil =>
    refine .still ?_ (hostsAll_nil _)
    simp [Call.scopes, CallStage.scopes, hp, hf, hs]
  | cons param rest =>
    refine .still ?_ ?_
    · simp [Call.scopes, CallStage.scopes, hp, hf, hs]
    · simp [Flow.scopes, Work.scopes, hs]

theorem resume_changes (hpl : store.InPlace root) {call : Call}
    (hcl : store.HostsAll call.scopes) (incoming : Option Outcome) :
    Resumed.Changes root own Call.scopes store (call.resume store incoming) := by
  obtain ⟨hp, hrs⟩ := hostsAll_cons.mp hcl
  obtain ⟨hf, hst⟩ := hostsAll_append.mp hrs
  have hb : store.HostsAll (call.parent :: call.function.scopes) := hostsAll_cons.mpr ⟨hp, hf⟩
  unfold Call.resume
  split
  · split
    · refine .still ?_ (hostsAll_nil _)
      simp [Call.scopes, CallStage.scopes, hp, hf]
    · next binding _ =>
      have hc : Changes root own store
          ((store.newScope .function call.parent).2.setAllOwn ⟨store.scopes.size⟩ binding.bound) :=
        .head (.enter .function hp.inside)
          (Store.changes_setAllOwn (Store.hosts_addScope rfl) _)
      have hs : ((store.newScope .function call.parent).2.setAllOwn ⟨store.scopes.size⟩
          binding.bound).Hosts ⟨store.scopes.size⟩ :=
        (Store.hosts_addScope rfl).kept (Store.Evolves.setAllOwn _ _).keepsDelegates
      obtain ⟨hn, hfr, hfl⟩ := @fillNext_changes ⟨store.scopes.size⟩ root own _ call
        binding.left (hc.hosts hpl hb) hs
      exact ⟨hc.trans hn, hfr, hfl⟩
  · next scope param rest hfi =>
    have hs : store.Hosts scope := by
      rw [hfi] at hst
      exact (hostsAll_cons.mp hst).1
    split
    · exact .still hcl (hostsAll_nil _)
    · next value _ =>
      have hc : Changes root own store (store.setOwn scope param value) :=
        .single (.bind hs.plain param value)
      obtain ⟨hn, hfr, hfl⟩ := @fillNext_changes scope root own _ call rest
        (hc.hosts hpl hb) (hs.kept (hc.keepsDelegates hpl))
      exact ⟨hc.trans hn, hfr, hfl⟩
  · next scope hrd =>
    have hs : store.Hosts scope := by
      rw [hrd] at hst
      exact (hostsAll_cons.mp hst).1
    have hr : store.HostsAll (Call.scopes { call with stage := .running scope }) := by
      simp [Call.scopes, CallStage.scopes, hp, hf, hs]
    dsimp only
    split
    · refine .still hr ?_
      simp [Flow.scopes, Work.scopes, hs]
    · refine .still hr ?_
      simp [Flow.scopes, Work.scopes, hs, hf]
  · split <;> exact .still hcl (hostsAll_nil _)

end Call

/-! ## Constructions -/

namespace Construction

theorem parameterSteps_scopes (hs : store.Hosts scope) (binding : Binding) :
    store.HostsAll ((parameterSteps scope binding).flatMap ConstructionStep.scopes) := by
  refine Store.hostsAll_flatMap.mpr fun step hst => ?_
  obtain ⟨param, -, rfl⟩ := List.mem_map.mp hst
  simp [ConstructionStep.scopes, hs]

theorem propertySteps_scopes (hs : store.Hosts scope) (members : Members) :
    store.HostsAll ((propertySteps scope members).flatMap ConstructionStep.scopes) := by
  refine Store.hostsAll_flatMap.mpr fun step hst => ?_
  obtain ⟨property, -, rfl⟩ := List.mem_map.mp hst
  simp [ConstructionStep.scopes, hs]

theorem bodySteps_scopes (hs : store.Hosts scope) {members : Members}
    (hm : store.HostsAll members.scopes) :
    store.HostsAll ((bodySteps scope members).flatMap ConstructionStep.scopes) := by
  refine Store.hostsAll_flatMap.mpr fun step hst => ?_
  obtain ⟨body, hb, rfl⟩ := List.mem_map.mp hst
  refine hostsAll_cons.mpr ⟨hs, (hostsAll_append.mp hm).2.subset ?_⟩
  exact fun home hh => List.mem_flatMap.mpr ⟨body, hb, hh⟩

/-- The steps of a construction work in the scopes of the object. -/
theorem classSteps_scopes {scopes : List ScopeId} (hsc : store.HostsAll scopes)
    {planned : List Level}
    (hpl : ∀ level ∈ planned, store.HostsAll level.declared.members.scopes)
    {attached : List (List Behaviour)}
    (hac : ∀ behaviours ∈ attached, ∀ behaviour ∈ behaviours,
      store.HostsAll behaviour.members.scopes) :
    store.HostsAll ((classSteps scopes planned attached).flatMap ConstructionStep.scopes) := by
  have hp {steps : ScopeId × Level → List ConstructionStep}
      (hsp : ∀ placed : ScopeId × Level, store.Hosts placed.1 →
        store.HostsAll placed.2.declared.members.scopes →
        store.HostsAll ((steps placed).flatMap ConstructionStep.scopes)) :
      store.HostsAll (((scopes.zip planned).flatMap steps).flatMap ConstructionStep.scopes) := by
    rw [List.flatMap_assoc]
    refine Store.hostsAll_flatMap.mpr fun placed hmem => ?_
    obtain ⟨hs, hl⟩ := List.of_mem_zip hmem
    exact hsp placed (hsc _ hs) (hpl _ hl)
  have hb : store.HostsAll (((scopes.zip attached).flatMap fun placed =>
      placed.2.map fun behaviour => ConstructionStep.behaviour placed.1 behaviour).flatMap
        ConstructionStep.scopes) := by
    rw [List.flatMap_assoc]
    refine Store.hostsAll_flatMap.mpr fun placed hmem => ?_
    obtain ⟨hs, hb⟩ := List.of_mem_zip hmem
    refine Store.hostsAll_flatMap.mpr fun step hst => ?_
    obtain ⟨behaviour, hbh, rfl⟩ := List.mem_map.mp hst
    exact hostsAll_cons.mpr ⟨hsc _ hs, hac _ hb behaviour hbh⟩
  unfold classSteps
  simp only [List.flatMap_append, hostsAll_append]
  refine ⟨⟨⟨⟨⟨⟨⟨?_, ?_⟩, ?_⟩, ?_⟩, hb⟩, ?_⟩, ?_⟩, ?_⟩
  · exact hp fun placed hs _ => parameterSteps_scopes hs _
  · simp [ConstructionStep.scopes]
  · exact hp fun placed hs _ => propertySteps_scopes hs _
  · simp [ConstructionStep.scopes]
  · simp [ConstructionStep.scopes]
  · exact hp fun placed hs hl => bodySteps_scopes hs hl
  · simp [ConstructionStep.scopes]

/-- The behaviours of a level that are found refer to scopes of the store. -/
theorem attachments_scopes (hp : store.InPlace root) {classes : List Class}
    {attached : List (List Behaviour)}
    (h : classes.mapM (attachments store held) = .ok attached) :
    ∀ behaviours ∈ attached, ∀ behaviour ∈ behaviours, store.HostsAll behaviour.members.scopes := by
  intro behaviours hbh behaviour hb
  obtain ⟨declared, -, hd⟩ := mem_of_mapM_ok h behaviours hbh
  obtain ⟨mention, -, hm⟩ := mem_of_mapM_ok hd behaviour hb
  dsimp only at hm
  split at hm
  · next found hf =>
    obtain rfl := Except.ok.inj hm
    exact hp.rooted.behaviour_found hf
  · cases hm

theorem ofClass_scopes (hp : store.InPlace root) {id : ClassId}
    (hid : id.index < store.classes.size) {args : List Constant} {later : Store}
    (h : ofClass store held id args = (.ok construction, later)) :
    later.HostsAll construction.scopes := by
  have hr := hp.ofClass hid held args
  rw [h] at hr
  rcases ofClass_cases store held id args with ⟨error, her⟩ | ⟨plan, begun, after, hb, hpl⟩
  · cases her.symm.trans h
  · obtain ⟨hs, rfl⟩ := Prod.mk.inj (hb.symm.trans h)
    obtain rfl := Except.ok.inj hs
    obtain ⟨⟨checked, hlv⟩, hac, hst, between, base, -, had, hm⟩ := hpl
    have he := ofClass_evolves store held id args
    rw [h] at he
    have hk : store.KeepsDelegates after := he.keepsDelegates
    rw [hst]
    refine hostsAll_append.mpr ⟨hostsAll_nil _, classSteps_scopes ?_ ?_ ?_⟩
    · have ho := hr.objects begun.object
      rw [hm.object_eq] at ho
      exact ho
    · intro level hl
      have hd : level.declared ∈ (store.hierarchy id).map store.classAt := by
        rw [← levels_declared hlv]
        exact List.mem_map_of_mem hl
      obtain ⟨owner, -, heq⟩ := List.mem_map.mp hd
      have hf := hp.rooted.functions owner
      rw [heq] at hf
      exact Store.HostsAll.kept (hostsAll_append.mp hf).1 hk
    · exact fun behaviours hbv behaviour hbh => Store.HostsAll.kept
        (attachments_scopes hp hac behaviours hbv behaviour hbh) hk

theorem ofBehaviour_scopes {behaviour : Behaviour}
    (hmm : store.HostsAll behaviour.members.scopes) {owner : ObjectRef} {later : Store}
    (h : ofBehaviour store held behaviour owner = (.ok construction, later)) :
    later.HostsAll construction.scopes := by
  rcases ofBehaviour_cases store held behaviour owner with ⟨error, her⟩ | ⟨begun, after, hb, hp⟩
  · cases her.symm.trans h
  · obtain ⟨hsm, rfl⟩ := Prod.mk.inj (hb.symm.trans h)
    obtain rfl := Except.ok.inj hsm
    obtain ⟨binding, outer, -, -, hst, hm, -⟩ := hp.begun
    have he := ofBehaviour_evolves store held behaviour owner
    rw [h] at he
    have hs : after.Hosts ⟨store.scopes.size⟩ := by
      refine ⟨hm.size ▸ (Store.hosts_addScope rfl).inside, ?_⟩
      rw [hm.scopes]
      exact (Store.hosts_addScope rfl).plain
    rw [hst]
    refine hostsAll_append.mpr ⟨hostsAll_nil _, ?_⟩
    simp only [behaviourSteps, List.flatMap_append, hostsAll_append]
    refine ⟨⟨⟨parameterSteps_scopes hs _, propertySteps_scopes hs _⟩, ?_⟩, ?_⟩
    · simp [ConstructionStep.scopes]
    · exact bodySteps_scopes hs (hmm.kept he.keepsDelegates)

theorem receive_changes (ho : own = some object) {step : Option ConstructionStep}
    (hst : store.HostsAll (step.toList.flatMap ConstructionStep.scopes)) (outcome : Outcome) :
    Changes root own store (receive store object step outcome).2 := by
  unfold receive
  split
  · have hs := (hostsAll_cons.mp (hostsAll_append.mp hst).1).1
    split
    · exact .refl
    · exact .single (.bind hs.plain _ _)
  · have hs := (hostsAll_cons.mp (hostsAll_append.mp hst).1).1
    split
    · exact .refl
    · exact .single (.bind hs.plain _ _)
  · split
    · exact .refl
    · exact .single (.attach _ _ ho)
    · exact .refl
  · exact .refl

theorem proceed_changes (hp : store.InPlace root) (ho : own = some object)
    (hh : .object object ∈ held ()) {steps : List ConstructionStep}
    (hbl : Builds store { object, steps })
    (hst : store.HostsAll (steps.flatMap ConstructionStep.scopes)) :
    Resumed.Changes root own Construction.scopes store (proceed held object steps store) := by
  induction steps generalizing store with
  | nil => exact .still (hostsAll_nil _) (hostsAll_nil _)
  | cons step rest ih =>
    rw [List.flatMap_cons, hostsAll_append] at hst
    obtain ⟨hs, hr⟩ := hst
    have hgo {later : Store} (hc : Changes root own store later) :
        Resumed.Changes root own Construction.scopes store (proceed held object rest later) := by
      have hbl' : Builds later { object, steps := rest } :=
        hbl.later (Store.Changes.unfolds hc) rfl (List.subset_cons_self ..)
      obtain ⟨hch, hfr, hf⟩ := ih (hc.inPlace hp) hbl' (hc.hosts hp hr)
      exact ⟨hc.trans hch, hfr, hf⟩
    cases step with
    | parameter scope name initial =>
      refine .still (hostsAll_append.mpr ⟨?_, hr⟩) ?_
      · simpa [ConstructionStep.scopes] using hs
      · exact hs
    | property scope name initial =>
      unfold proceed
      split
      · exact hgo .refl
      · split
        · refine .still (hostsAll_append.mpr ⟨?_, hr⟩) ?_
          · simpa [ConstructionStep.scopes] using hs
          · exact hs
        · exact hgo (.single (.bind (hostsAll_cons.mp hs).1.plain _ _))
    | behaviour scope behaviour =>
      obtain ⟨hsc, hm⟩ := hostsAll_cons.mp hs
      have hb : Changes root own store (ofBehaviour store held behaviour object).2 :=
        .single (.begin ho hm hh (hbl.attaches scope behaviour List.mem_cons_self))
      unfold proceed
      split
      · next error later heq =>
        rw [heq] at hb
        refine ⟨hb, ?_, hostsAll_nil _⟩
        exact hostsAll_append.mpr ⟨hostsAll_nil _, hb.hosts hp hr⟩
      · next construction later heq =>
        rw [heq] at hb
        refine ⟨hb, ?_, ofBehaviour_scopes hm heq⟩
        refine hostsAll_append.mpr ⟨?_, hb.hosts hp hr⟩
        simpa [ConstructionStep.scopes] using hb.hosts hp hs
    | body constructor scope =>
      obtain ⟨hsc, hcn⟩ := hostsAll_cons.mp hs
      have he : Changes root own store (store.newScope .function scope).2 :=
        .single (.enter .function hsc.inside)
      dsimp only [proceed, Call.ofBody]
      refine ⟨he, hostsAll_append.mpr ⟨?_, he.hosts hp hr⟩, ?_⟩
      · simpa [ConstructionStep.scopes] using he.hosts hp hs
      · have hcl := he.hosts hp hs
        obtain ⟨hpr, hfn⟩ := hostsAll_cons.mp hcl
        refine hostsAll_cons.mpr ⟨hpr, hostsAll_append.mpr ⟨hfn, ?_⟩⟩
        exact hostsAll_cons.mpr ⟨Store.hosts_addScope rfl, hostsAll_nil _⟩
    | phase => exact .still (hostsAll_append.mpr ⟨hostsAll_nil _, hr⟩) (hostsAll_nil _)
    | register => exact hgo (.single (.register held ho))

theorem resume_changes (hp : store.InPlace root) (ho : own = some construction.object)
    (hh : .object construction.object ∈ held ()) (hb : construction.Builds store)
    (hsc : store.HostsAll construction.scopes) (incoming : Option Outcome) :
    Resumed.Changes root own Construction.scopes store
      (construction.resume store held incoming) := by
  obtain ⟨hcr, hs⟩ := hostsAll_append.mp hsc
  unfold Construction.resume
  split
  · have hb' : Builds store { construction with current := none } :=
      hb.later (.refl own store) rfl (List.Subset.refl _)
    exact proceed_changes hp ho hh hb' hs
  · next outcome =>
    have hr : Changes root own store
        (receive store construction.object construction.current outcome).2 :=
      receive_changes ho hcr _
    split
    · next error later heq =>
      rw [heq] at hr
      refine ⟨hr, ?_, hostsAll_nil _⟩
      exact hostsAll_append.mpr ⟨hostsAll_nil _, hr.hosts hp hs⟩
    · next later heq =>
      rw [heq] at hr
      have hb' : Builds later { construction with current := none } :=
        hb.later (Store.Changes.unfolds hr) rfl (List.Subset.refl _)
      obtain ⟨hc, hfr, hf⟩ := proceed_changes (hr.inPlace hp) ho hh
        hb' (hr.hosts hp hs)
      exact ⟨hr.trans hc, hfr, hf⟩

end Construction

/-! ## Nodes -/

namespace NodeFrame

variable {progress : Progress}

theorem memberScope_hosts (hp : store.InPlace root) {value : Constant}
    (h : memberScope store value = .ok found) : store.Hosts found := by
  unfold memberScope at h
  split at h
  · next outer ho =>
    obtain rfl := Except.ok.inj h
    obtain ⟨object, -, ho⟩ := Option.bind_eq_some_iff.mp ho
    exact hp.rooted.outer_hosts ho
  · cases h

theorem typeScope_hosts (hp : store.InPlace root)
    (h : typeScope store held scope name = .ok found) : store.Hosts found := by
  unfold typeScope at h
  split at h
  · exact memberScope_hosts hp h
  · split at h
    · next declared hd =>
      obtain rfl := Except.ok.inj h
      exact hp.rooted.shared
        ⟨declared, hp.rooted.class_found hp.registered.grounded hd, rfl⟩
    · split at h <;> cases h

theorem hostsAll_setOwn {value : Constant} {ids : List ScopeId} (h : store.HostsAll ids) :
    (store.setOwn id name value).HostsAll ids :=
  h.kept (Store.keepsDelegates_modifyScope rfl)

/-- The call of a function that has been found. -/
theorem pushes_call {function : Function} {values : List Constant}
    (h : store.HostsAll (found :: function.scopes)) :
    store.HostsAll (Flow.scopes (.ok (.push (.call
      (.ofArguments function values (function.callParent found)))))) := by
  refine hostsAll_cons.mpr ⟨Store.Rooted.callParent_hosts h, hostsAll_append.mpr ⟨?_, ?_⟩⟩
  · exact (hostsAll_cons.mp h).2
  · exact hostsAll_nil _

theorem Knows.hosts {place : ScopeId} (h : Knows scope progress store held place)
    (hp : store.InPlace root) (hpr : store.HostsAll progress.scopes) :
    store.Hosts place := by
  rcases h with hk | ⟨value, hf⟩ | ⟨name, hf⟩
  · exact hpr place hk
  · exact memberScope_hosts hp hf
  · exact typeScope_hosts hp hf

theorem Writes.changes {later : Store} (h : Writes scope progress store held later)
    (hr : store.Rooted root) (hs : store.Hosts scope)
    (hp : store.HostsAll progress.scopes) : Changes root own store later := by
  cases h with
  | nothing => exact .refl
  | assigned name value => exact .single (.bind (hs.plain_of_found hr) _ _)
  | member hk name value => exact .single (.bind ((hp _ hk).plain_of_found hr) _ _)
  | own hk name value => exact .single (.bind (hp _ hk).plain _ _)

theorem Does.changes {resumed : Resumed Progress} (h : Does scope progress store held resumed)
    (hp : store.InPlace root) (hsc : store.HostsAll (scope :: progress.scopes)) :
    Resumed.Changes root own Progress.scopes store resumed := by
  obtain ⟨hs, hpr⟩ := hostsAll_cons.mp hsc
  have hn {next : Progress} {later : Store} (hc : Changes root own store later)
      (hk : ∀ place ∈ next.scopes, Knows scope progress store held place) :
      later.HostsAll next.scopes :=
    hc.hosts hp fun place hkn => (hk place hkn).hosts hp hpr
  cases h with
  | rests hw hr hk =>
    have hc : Changes root own store _ := hw.changes hp.rooted hs hpr
    exact ⟨hc, hn hc hk, hr.scopes_eq ▸ hostsAll_nil _⟩
  | evaluates part hw hh hk =>
    have hc : Changes root own store _ := hw.changes hp.rooted hs hpr
    refine ⟨hc, hn hc hk, hc.hosts hp ?_⟩
    exact hostsAll_cons.mpr ⟨hsc _ hh, hostsAll_nil _⟩
  | calls values hfn hk =>
    obtain ⟨start, name, hf⟩ := hfn
    have hfc := hf.elim hp.rooted.function_found hp.rooted.function_found
    exact ⟨.refl, hn .refl hk, pushes_call hfc⟩
  | @creates name id values hf =>
    have hkn := hp.rooted.class_found hp.registered.grounded hf
    refine ⟨.single (.create held values hkn), hostsAll_nil _, ?_⟩
    generalize hb : Construction.ofClass store held id values = begun
    obtain ⟨error | construction, later⟩ := begun
    · exact hostsAll_nil _
    · exact Construction.ofClass_scopes hp hkn hb
  | enters part =>
    have he : Changes root own store (store.newScope .generic scope).2 :=
      .single (.enter .generic hs.inside)
    refine ⟨he, hostsAll_cons.mpr ⟨Store.hosts_addScope rfl, hostsAll_nil _⟩, ?_⟩
    exact he.hosts hp (hostsAll_cons.mpr ⟨hs, hostsAll_nil _⟩)
  | waits =>
    have hst : ∀ state : GlobalState, state.KeepsBooks
        { state with waiters := state.waiters ++ [store.newTicket.1] } := by
      intro state
      exact ⟨rfl, rfl, rfl, rfl, fun order object => by cases order <;> rfl⟩
    exact ⟨.head .wait (.single (.state held scope hst)), hostsAll_nil _, hostsAll_nil _⟩

theorem resume_changes (hp : store.InPlace root) {frame : NodeFrame}
    (hf : store.HostsAll frame.scopes) (incoming : Option Outcome) :
    Resumed.Changes root own Progress.scopes store (frame.resume store held incoming) :=
  (frame.resume_does store held incoming).changes hp hf

end NodeFrame

/-! ## The start of a unit -/

/-- The first scope of a store is no class level, since it stands under no other one. -/
theorem Store.Rooted.hosts_first (h : store.Rooted root) : store.Hosts ⟨0⟩ := by
  refine ⟨Nat.zero_lt_of_lt h.host.inside, ?_⟩
  cases hp : (store.scope ⟨0⟩).parent with
  | none =>
    obtain rfl := h.orphan (Nat.zero_lt_of_lt h.host.inside) hp
    exact h.host.plain
  | some link =>
    rcases h.parents hp with hl | hs
    · exact absurd hl (Nat.not_lt_zero _)
    · exact (h.shared hs).plain

/-- Code can work in the shared scope of a class, and in the place of a class that is not there. -/
theorem Store.InPlace.sharedScope_hosts (h : store.InPlace root) (id : ClassId) :
    store.Hosts (store.classAt id).sharedScope := by
  by_cases hid : id.index < store.classes.size
  · exact h.rooted.shared ⟨id, hid, rfl⟩
  · have hd : store.classAt id = default := by
      unfold Store.classAt
      exact Array.getD_eq_getD_getElem? .. ▸ by simp [Nat.le_of_not_lt hid]
    rw [hd]
    exact h.rooted.hosts_first

/-- The scope of a file is there, or it is made. -/
theorem Store.InPlace.fileScope_changes (own : Option ObjectRef) (h : store.InPlace root)
    (held : Held) (name : String) :
    Store.Changes root own store (store.fileScope held root name).2 ∧
      (store.fileScope held root name).2.Hosts (store.fileScope held root name).1 := by
  have hir := h.registered.grounded.isRoot
  have hs : ∀ state : GlobalState, state.KeepsBooks (id state) :=
    fun _ => ⟨rfl, rfl, rfl, rfl, fun _ _ => rfl⟩
  have hr : Store.Changes root own store (store.existingFile? held root name).2 :=
    .single (.state held root hs)
  have hf : (store.existingFile? held root name).2.fileOf? root name
      = (store.existingFile? held root name).1 := by
    unfold Store.existingFile? Store.withState Store.fileOf?
    rw [hir.root_eq held, Store.scope_modifyScope_self hir.inside]
    rfl
  have hp := hr.inPlace h
  unfold Store.fileScope
  split
  · next file read heq =>
    rw [heq] at hr hf hp
    obtain ⟨hi, hif⟩ := hp.registered.grounded.files hf
    exact ⟨hr, hi, hif.delegate⟩
  · next read heq =>
    rw [heq] at hr hf hp
    have hrr : read.IsRoot root := hp.registered.grounded.isRoot
    have har : (read.newScope .file root).2.IsRoot root := hrr.evolved (.addScope rfl)
    have hm : Store.Change root own read
        ((read.newScope .file (read.root held root)).2.addFile held root name
          ⟨read.scopes.size⟩) := by
      rw [hrr.root_eq held, har.addFile_eq held name ⟨read.scopes.size⟩]
      exact .file hf
    have hnew : (read.newScope .file (read.root held root)).2.Hosts ⟨read.scopes.size⟩ :=
      Store.hosts_addScope rfl
    exact ⟨hr.tail hm, hnew.kept (Store.keepsDelegates_modifyScope rfl)⟩

namespace Start

theorem register_changes (held : Held) (place : ScopeId) (id : ClassId) :
    Changes root own store (register store held place id) := by
  unfold register
  split
  · refine .single (.state held place fun state => ?_)
    generalize store.updateOrderOf id = order
    refine ⟨by cases order <;> rfl, by cases order <;> rfl, by cases order <;> rfl,
      by cases order <;> rfl, ?_⟩
    intro other object
    cases order <;> cases other <;> simp [GlobalState.register, GlobalState.registry]
  · exact .refl

theorem proceed_changes (hp : store.InPlace root) (held : Held) (last : Constant)
    (steps : List StartStep) :
    Resumed.Changes root own (fun start : Start => [start.root]) store
      (proceed held root last steps store) := by
  have hr (store : Store) (h : store.InPlace root) : store.HostsAll [root] :=
    hostsAll_cons.mpr ⟨h.rooted.host, hostsAll_nil _⟩
  induction steps generalizing store with
  | nil => exact .still (hr _ hp) (hostsAll_nil _)
  | cons step steps ih =>
    cases step with
    | sharedProperty id name initial =>
      unfold proceed
      dsimp only
      split
      · exact ih hp
      · split
        · refine .still (hr _ hp) ?_
          exact hostsAll_cons.mpr ⟨hp.sharedScope_hosts id, hostsAll_nil _⟩
        · have hb : Changes root own store
              (store.setOwn (store.classAt id).sharedScope name .none) :=
            .single (.bind (hp.sharedScope_hosts id).plain _ _)
          exact (ih (hb.inPlace hp)).after hb
    | sharedConstructor id =>
      unfold proceed
      split
      · next constructor hcn =>
        refine .still (hr _ hp) ?_
        refine hostsAll_cons.mpr ⟨hp.sharedScope_hosts id, ?_⟩
        refine hostsAll_append.mpr ⟨?_, hostsAll_nil _⟩
        refine (hp.rooted.functions id).subset ?_
        simp [Class.functionScopes, hcn, Call.ofArguments]
      · exact ih hp
    | register id =>
      unfold proceed
      have hrg : Changes root own store (register store held root id) :=
        register_changes held root id
      exact (ih (hrg.inPlace hp)).after hrg
    | file file =>
      unfold proceed
      split
      · next name _ _ =>
        obtain ⟨hc, hi⟩ := hp.fileScope_changes own held name
        refine ⟨hc, hr _ (hc.inPlace hp), ?_⟩
        exact hostsAll_cons.mpr ⟨hi, hostsAll_nil _⟩
      · exact .still (hr _ hp) (hostsAll_nil _)

theorem resume_changes (hp : store.InPlace root) {start : Start} (hs : start.root = root)
    (held : Held) (incoming : Option Outcome) :
    Resumed.Changes root own (fun start : Start => [start.root]) store
      (start.resume store held incoming) := by
  subst hs
  have hr : store.HostsAll [start.root] := hostsAll_cons.mpr ⟨hp.rooted.host, hostsAll_nil _⟩
  unfold resume
  split
  · exact proceed_changes hp held _ _
  · split
    · exact .still hr (hostsAll_nil _)
    · split
      · exact ⟨.single (.bind (hp.sharedScope_hosts _).plain _ _),
          NodeFrame.hostsAll_setOwn hr, hostsAll_nil _⟩
      · exact .still hr (hostsAll_nil _)
      · exact .still hr (hostsAll_nil _)

end Start

/-! ## All frames -/

namespace Frame

/-- A resumed frame has changed the store, and it works in scopes of the store. -/
structure Changes (root : ScopeId) (own : Option ObjectRef) (store : Store)
    (resumed : Frame.Resumed σ τ) : Prop where
  changes : Store.Changes root own store resumed.world.store
  frame : resumed.world.store.HostsAll resumed.frame.scopes
  flow : resumed.world.store.HostsAll (Flow.scopes resumed.flow)

theorem resumeNative_changes {host : Host σ τ} {world : World σ} {function : Function}
    (h : world.store.HostsAll (scope :: function.scopes)) (held : Held)
    (task : Option (HostTask τ)) :
    Frame.Changes root own world.store
      (resumeNative host held world function scope task) := by
  have hp (task : HostTask τ) (context : Context σ) :
      Frame.Changes root own world.store
        (pollTask host { world with context } function scope task) := by
    refine ⟨.refl, h, ?_⟩
    change world.store.HostsAll (Flow.scopes ((task.poll host context).1.map _))
    cases (task.poll host context).1 with
    | error error => exact hostsAll_nil _
    | ok answer => cases answer <;> exact hostsAll_nil _
  unfold resumeNative
  split
  · exact hp _ _
  · split
    · exact ⟨.refl, h, hostsAll_nil _⟩
    · dsimp only
      split
      · exact ⟨.refl, h, hostsAll_nil _⟩
      · exact ⟨.refl, h, hostsAll_nil _⟩
      · exact hp _ _

/-- A frame that works in scopes of the store does so after it has been resumed. -/
theorem resume_changes {host : Host σ τ} {frame : Frame τ} {world : World σ}
    (hp : world.store.InPlace root) (hst : frame.StartsAt root)
    (hfr : world.store.HostsAll frame.scopes) {held : Held}
    (hh : ∀ ref ∈ frame.refs host, ref ∈ held ())
    (hbl : ∀ begun, frame = .construct begun → begun.Builds world.store)
    (incoming : Option Outcome) :
    Frame.Changes root frame.own world.store (frame.resume host held world incoming) := by
  cases frame with
  | node frame =>
    have hs := (hostsAll_cons.mp hfr).1
    obtain ⟨hc, hpr, hf⟩ : Resumed.Changes root none Progress.scopes world.store
        (frame.resume world.store held incoming) :=
      NodeFrame.resume_changes hp hfr incoming
    have hk := hs.kept (hc.keepsDelegates hp)
    exact ⟨hc, hostsAll_cons.mpr ⟨hk, hpr⟩, hf⟩
  | start begun =>
    obtain ⟨hc, hb, hf⟩ : Resumed.Changes root none _ world.store
        (begun.resume world.store held incoming) :=
      Start.resume_changes hp hst held incoming
    exact ⟨hc, hb, hf⟩
  | call begun =>
    obtain ⟨hc, hb, hf⟩ : Resumed.Changes root none _ world.store
        (begun.resume world.store incoming) :=
      Call.resume_changes hp hfr incoming
    exact ⟨hc, hb, hf⟩
  | native function scope task => exact resumeNative_changes hfr held task
  | construct begun =>
    obtain ⟨hc, hb, hf⟩ : Resumed.Changes root _ _ world.store
        (begun.resume world.store held incoming) :=
      Construction.resume_changes hp rfl (hh _ (List.mem_singleton_self _))
        (hbl begun rfl) hfr incoming
    exact ⟨hc, hb, hf⟩

end Frame

end StepScript
