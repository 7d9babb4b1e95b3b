import Mathlib.Logic.Relation
import StepScript.Proofs.Running.Allocation
import StepScript.Proofs.System.Growing
set_option autoImplicit false

/-!
# What running code does to the store

Whatever a frame does when it is resumed, it does in steps of a few kinds (`Store.Change`).  Each of
them leaves the Global scope in order and every scope in its place (`Store.Change.inPlace`).
-/

namespace StepScript

/-- The state keeps what has been registered by name, the numbers of objects, and the objects that
are updated. -/
structure GlobalState.KeepsBooks (state later : GlobalState) : Prop where
  classes : later.classes = state.classes
  behaviours : later.behaviours = state.behaviours
  files : later.files = state.files
  serial : later.lastSerial = state.lastSerial
  objects : ∀ (order : UpdateOrder) (object : ObjectRef),
    (later.registry order).count (.ofObject object) = (state.registry order).count (.ofObject object)

/-- One target more in one phase. -/
theorem GlobalState.count_register (state : GlobalState) (order other : UpdateOrder)
    (target registered : UpdateTarget) :
    ((state.register order target).registry other).count registered
      = (state.registry other).count registered
        + (if other = order ∧ registered = target then 1 else 0) := by
  by_cases heq : registered = target
  · subst heq
    cases order <;> cases other <;> simp [GlobalState.register, GlobalState.registry]
  · cases order <;> cases other <;>
      simp [GlobalState.register, GlobalState.registry, heq, Ne.symm heq]

namespace Store

/-- One thing that running code does to the store of a program with the Global scope `root`.  Only
the construction of an object attaches behaviours to it and registers it for updates: the code
works for the construction of `own`, if it does. -/
inductive Change (root : ScopeId) (own : Option ObjectRef) : Store → Store → Prop where
  /-- Bind a variable. -/
  | bind {store : Store} {id : ScopeId} (place : (store.scope id).delegate = none) (name : String)
      (value : Constant) : Change root own store (store.setOwn id name value)
  /-- Enter a call or a loop. -/
  | enter {store : Store} {parent : ScopeId} (kind : ScopeKind)
      (inside : parent.index < store.scopes.size) :
      Change root own store (store.newScope kind parent).2
  /-- Make the scope of a file. -/
  | file {store : Store} {name : String} (unknown : store.fileOf? root name = none) :
      Change root own store
        ((store.newScope .file root).2.modifyScope root (·.addFile name ⟨store.scopes.size⟩))
  /-- Work with the state of the program. -/
  | state {store : Store} (held : Held) (id : ScopeId) {change : GlobalState → GlobalState}
      (keeps : ∀ state : GlobalState, state.KeepsBooks (change state)) :
      Change root own store (store.modifyState held id change)
  /-- Begin to construct an instance of a class, or fail to. -/
  | create (held : Held) {store : Store} {id : ClassId} (args : List Constant)
      (known : id.index < store.classes.size) :
      Change root own store (Construction.ofClass store held id args).2
  /-- Begin to construct a behaviour of an instance, or fail to. -/
  | begin {held : Held} {store : Store} {owner : ObjectRef} {behaviour : Behaviour}
      (owns : own = some owner) (members : store.HostsAll behaviour.members.scopes)
      (keeps : .object owner ∈ held ()) (isInstance : (store.object owner).classId.isSome = true) :
      Change root own store (Construction.ofBehaviour store held behaviour owner).2
  /-- Attach a behaviour that has been constructed. -/
  | attach {store : Store} (id : ScopeId) (behaviour : ObjectRef) {owner : ObjectRef}
      (owns : own = some owner) :
      Change root own store ((store.attach id behaviour).modifyObject owner fun object =>
        { object with behaviours := object.behaviours ++ [behaviour] })
  /-- Register an object for updates. -/
  | register {store : Store} (held : Held) {object : ObjectRef} (owns : own = some object) :
      Change root own store (Construction.register store held object)
  /-- Begin to wait for the end of the frame. -/
  | wait {store : Store} : Change root own store store.newTicket.2
  /-- End a wait. -/
  | release {store : Store} (ticket : Ticket) : Change root own store (store.release ticket)

/-- What running code does to the store. -/
abbrev Changes (root : ScopeId) (own : Option ObjectRef) : Store → Store → Prop :=
  Relation.ReflTransGen (Change root own)

/-- The Global scope is in order, and every scope is in its place. -/
structure InPlace (root : ScopeId) (store : Store) : Prop where
  registered : store.Registered root
  rooted : store.Rooted root

variable {root : ScopeId} {own : Option ObjectRef} {store later : Store}

/-! ## Places of new objects -/

theorem IsShared.of_classes_eq {id : ScopeId} (h : store.IsShared id)
    (hc : later.classes = store.classes) : later.IsShared id := by
  obtain ⟨declared, hd, hs⟩ := h
  refine ⟨declared, hc ▸ hd, ?_⟩
  unfold Store.classAt at hs ⊢
  rw [hc, hs]

/-- The level of a registered class. -/
structure AdmitsLevel (store : Store) (level : Construction.Level) : Prop where
  shared : store.IsShared level.declared.sharedScope
  functions : store.HostsAll level.declared.members.functions.scopes

theorem Rooted.addLevel (h : store.Rooted root) {parent : ScopeId}
    (hp : parent.index < store.scopes.size) {level : Construction.Level}
    (hl : store.AdmitsLevel level) : (store.addLevel parent level).Rooted root := by
  have hw : store.Admits (.mk .classLevel (some (.strong parent))
      (some level.declared.sharedScope) [] [] [] [] [] none none) := by
    refine ⟨⟨_, rfl, hp⟩, fun shared hsh => ?_, rfl, rfl, hostsAll_nil _⟩
    obtain rfl := Option.some.inj hsh
    exact ⟨hl.shared, rfl, rfl, rfl⟩
  have had := (h.addScope hw).addScope
    (admits_newScope (show (⟨store.scopes.size⟩ : ScopeId).index < _ by simp) .object)
  have hs : ((store.newWrapper level.declared.sharedScope parent).2.newScope .object
      ⟨store.scopes.size⟩).2.Hosts ⟨(store.newWrapper level.declared.sharedScope
        parent).2.scopes.size⟩ := hosts_addScope rfl
  refine (had.setFunctions hs.plain ?_).setAllOwn ?_ _
  · exact (hl.functions.kept (keepsDelegates_addScope _)).kept (keepsDelegates_addScope _)
  · exact hs.kept (keepsDelegates_modifyScope rfl)

theorem Rooted.levelScopes (h : store.Rooted root) {parent : ScopeId}
    (hp : parent.index < store.scopes.size) (scopes : List ScopeId)
    {levels : List Construction.Level} (hlv : ∀ level ∈ levels, store.AdmitsLevel level) :
    (Construction.levelScopes scopes parent levels store).2.Rooted root := by
  induction levels generalizing scopes parent store with
  | nil => exact h
  | cons level rest ih =>
    obtain ⟨hl, hr⟩ := List.forall_mem_cons.mp hlv
    have hst : Construction.levelScopes scopes parent (level :: rest) store
        = Construction.levelScopes (⟨store.scopes.size + 1⟩ :: scopes)
          ⟨store.scopes.size + 1⟩ rest (store.addLevel parent level) := by
      simp [Construction.levelScopes, Store.addLevel, newScope, newWrapper]
    rw [hst]
    refine ih (h.addLevel hp hl) ?_ _ fun other ho => ?_
    · rw [size_addLevel]
      exact Nat.lt_succ_self _
    · obtain ⟨hs, hf⟩ := hr other ho
      exact ⟨hs.of_classes_eq (addLevel_rest ..).2.1, hf.kept (addLevel_evolves ..).keepsDelegates⟩

theorem Rooted.instantiate (h : store.Rooted root) (held : Held) (typeName : String)
    (classId : Option ClassId) (outer : ScopeId) {scopes : List ScopeId}
    (hs : store.HostsAll scopes) :
    (Construction.instantiate store held typeName classId outer scopes).2.Rooted root := by
  have hsr : (store.nextSerial held outer).2.Rooted root := h.withState held outer fun _ => rfl
  have hs' : (store.nextSerial held outer).2.HostsAll scopes :=
    hs.kept (keepsDelegates_modifyScope rfl)
  have had : ((store.nextSerial held outer).2.addObject typeName
      (store.nextSerial held outer).1 { classId, scopes }).2.Rooted root :=
    hsr.addObject typeName _ hs'
  exact had.setObjects scopes _

/-- The classes of a hierarchy are registered, and so is the last of them. -/
theorem Registered.hierarchy_inside (h : store.Registered root) {id : ClassId}
    (hid : id.index < store.classes.size) :
    ∀ level ∈ store.hierarchy id, level.index < store.classes.size := by
  have hk := kinship h.grounded h.linked.parents
  obtain ⟨chain, hc⟩ := h.exists_lineage hid
  rw [hk.hierarchy_eq hc hid]
  exact hk.inside hc hid

namespace InPlace

variable {held : Held}

variable (h : store.InPlace root)

include h

theorem home_inside {id : ClassId} (hid : id.index < store.classes.size) :
    (store.classAt id).home.index < store.scopes.size := by
  obtain ⟨name, hn⟩ := (h.registered.grounded.placed hid).home
  exact (h.registered.grounded.files hn).1

theorem shared_inside {id : ClassId} (hid : id.index < store.classes.size) :
    (store.classAt id).sharedScope.index < store.scopes.size :=
  (h.registered.grounded.placed hid).inside

theorem admitsLevel {id : ClassId} (hid : id.index < store.classes.size) (binding : Binding) :
    store.AdmitsLevel ⟨store.classAt id, binding⟩ where
  shared := ⟨id, hid, rfl⟩
  functions := (hostsAll_append.mp (hostsAll_append.mp (h.rooted.functions id)).1).1

theorem ofClass {id : ClassId} (hid : id.index < store.classes.size) (held : Held)
    (args : List Constant) :
    (Construction.ofClass store held id args).2.Rooted root := by
  have hi := h.registered.hierarchy_inside hid
  unfold Construction.ofClass
  dsimp only
  split
  · exact h.rooted
  · next checked planned hlv =>
    split
    · exact h.rooted
    · split
      · exact h.rooted
      · split
        · exact h.rooted
        · next base hb =>
          have hp : ∀ level ∈ planned.reverse, store.AdmitsLevel level := by
            intro level hl
            have hd : level.declared ∈ (store.hierarchy id).map store.classAt := by
              rw [← Construction.levels_declared hlv]
              exact List.mem_map_of_mem (List.mem_reverse.mp hl)
            obtain ⟨owner, ho, heq⟩ := List.mem_map.mp hd
            have ham := h.admitsLevel (hi owner ho) level.binding
            rwa [heq] at ham
          have hh : base.home.index < store.scopes.size := by
            obtain ⟨owner, ho, rfl⟩ := List.mem_map.mp (List.mem_of_getLast? hb)
            exact h.home_inside (hi owner ho)
          have had := levelScopes_addsLevels (AddsLevels.refl store base.home)
            planned.reverse
          have hr := h.rooted.levelScopes hh [] hp
          refine hr.instantiate _ _ _ _ fun scope hs => ?_
          have hk := had.chain.kind_eq scope hs
          exact ⟨(had.fresh scope hs).2, hr.plain_of_kind (ne_of_eq_of_ne hk (by decide))⟩

/-- The scope of a new behaviour. -/
theorem addBehaviour {behaviour : Behaviour} (hm : store.HostsAll behaviour.members.scopes)
    {owner : ObjectRef} {outer : ScopeId} (ho : store.outerScope? owner = some outer) :
    (store.addScope (Construction.behaviourScope behaviour outer)).2.Rooted root := by
  refine h.rooted.addScope ⟨⟨_, rfl, (h.rooted.outer_hosts ho).inside⟩, fun _ hs => ?_, rfl,
    rfl, hostsAll_append.mpr ⟨(hostsAll_append.mp hm).1, hostsAll_nil _⟩⟩
  cases hs

theorem ofBehaviour {behaviour : Behaviour} (hm : store.HostsAll behaviour.members.scopes)
    (held : Held) (owner : ObjectRef) :
    (Construction.ofBehaviour store held behaviour owner).2.Rooted root := by
  unfold Construction.ofBehaviour
  split
  · exact h.rooted
  · exact h.rooted
  · next binding outer _ ho =>
    have hs : (store.newDetached .object outer).2.Hosts ⟨store.scopes.size⟩ := hosts_addScope rfl
    have hr : ((store.newDetached .object outer).2.setFunctions ⟨store.scopes.size⟩
        behaviour.members.functions).Rooted root :=
      (setFunctions_addScope ..).symm ▸ h.addBehaviour hm ho
    refine hr.instantiate _ _ _ _ ?_
    exact hostsAll_cons.mpr ⟨hs.kept (keepsDelegates_modifyScope rfl), hostsAll_nil _⟩

/-- The scope of a new file. -/
theorem addFile {name : String} (hu : store.fileOf? root name = none) :
    ((store.newScope .file root).2.modifyScope root
      (·.addFile name ⟨store.scopes.size⟩)).Rooted root := by
  have hr := h.registered.grounded.isRoot
  obtain ⟨state, hst, -⟩ := h.registered.grounded.state
  have hs : (store.newScope .file root).2.scope root = store.scope root :=
    scope_addScope_of_lt hr.inside
  have hu' : (store.newScope .file root).2.fileOf? root name = none := by
    unfold fileOf? at hu ⊢
    rw [hs]
    exact hu
  rw [← declare_file_eq (hs ▸ hst) hu']
  refine (h.rooted.addScope (admits_newScope hr.inside .file)).declare ⟨?_, by simp, by simp⟩
  exact hostsAll_cons.mpr ⟨hosts_addScope rfl, hostsAll_nil _⟩

end InPlace

/-! ## Changes -/

namespace Change

theorem evolves (h : Change root own store later) (hr : store.IsRoot root) :
    store.Evolves later := by
  cases h with
  | bind _ name value => exact .setOwn _ name value
  | enter kind _ => exact .addScope rfl
  | file hu => exact .addFile hr hu
  | state held id hk =>
    exact .modifyState held id (fun state => (hk state).classes)
      (fun state => (hk state).behaviours) (fun state => (hk state).files)
  | create held args _ => exact Construction.ofClass_evolves ..
  | begin => exact Construction.ofBehaviour_evolves ..
  | attach id behaviour _ => exact .trans (.attach id behaviour) (.modifyObject _ _)
  | register held _ => exact Construction.register_evolves ..
  | wait => exact .newTicket
  | release ticket => exact .of_eq rfl rfl

theorem rooted (h : Change root own store later) (hp : store.InPlace root) : later.Rooted root := by
  have hr := hp.rooted
  cases h with
  | bind hp name value => exact hr.setOwn hp name value
  | enter kind hi => exact hr.addScope (admits_newScope hi kind)
  | file hu => exact hp.addFile hu
  | state held id hk => exact hr.withState held id fun state => (hk state).files
  | create held args hkn => exact hp.ofClass hkn held args
  | begin _ hm => exact hp.ofBehaviour hm _ _
  | attach id behaviour _ => exact (hr.attach id behaviour).modifyObject _ fun _ => rfl
  | register held _ =>
    unfold Construction.register
    split
    · split
      · refine hr.withState held _ fun state => ?_
        unfold GlobalState.register
        split <;> rfl
      · exact hr
    · exact hr
  | wait => exact hr.of_eq rfl rfl rfl
  | release ticket => exact hr.of_eq rfl rfl rfl

theorem inPlace (h : Change root own store later) (hp : store.InPlace root) : later.InPlace root :=
  ⟨hp.registered.evolved (h.evolves hp.registered.grounded.isRoot), h.rooted hp⟩

end Change

theorem Changes.inPlace (h : Changes root own store later) (hp : store.InPlace root) :
    later.InPlace root := by
  induction h with
  | refl => exact hp
  | tail _ hc ih => exact hc.inPlace ih

theorem Changes.evolves (h : Changes root own store later) (hr : store.IsRoot root) :
    store.Evolves later := by
  induction h with
  | refl => exact .refl store
  | tail _ hc ih => exact ih.trans (hc.evolves (hr.evolved ih))

end Store

end StepScript
