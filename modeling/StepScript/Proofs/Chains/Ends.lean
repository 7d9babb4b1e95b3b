import StepScript.Proofs.Running.Histories
set_option autoImplicit false

/-!
# Where chains end

Whatever has happened to a program, the way from a scope to its parent and on is finite.  It ends at
the Global scope, or else at the scope of a behaviour whose owner is gone (`Store.EndsWell`), and
every lookup along it comes to an end (`Store.LookupsEnd`).
-/

namespace StepScript

namespace Store

variable {root : ScopeId} {store : Store} {held : Held} {id : ScopeId}

/-- The chain of a scope goes through scopes of the store, through none of them twice, and ends at
the Global scope unless it reaches the scope of a behaviour whose owner is gone. -/
structure EndsWell (root : ScopeId) (store : Store) (held : Held) (id : ScopeId)
    (path : List ScopeId) : Prop where
  ascent : store.Ascent held id path
  inside : store.Contains path
  nodup : path.Nodup
  last : path.getLast? = some root ∨
    ∃ last parent behaviour owner, path.getLast? = some last ∧
      (store.scope last).parent = some (.weak parent) ∧
      store.OwnedBy last parent behaviour owner ∧ store.alive held (.object owner) = false

/-- No bound cuts a walk along the chain of the scope short, as long as it is not smaller than the
number of scopes. -/
structure LookupsEnd (store : Store) (held : Held) (id : ScopeId) : Prop where
  find : ∀ {α : Type} (visit : ScopeId → Scope → Option α) {bound : Nat},
    store.scopes.size ≤ bound → store.walkFrom held false visit bound id = store.find held id visit
  findMember : ∀ {α : Type} (visit : ScopeId → Scope → Option α) {bound : Nat},
    store.scopes.size ≤ bound →
      store.walkFrom held true visit bound id = store.findMember held id visit
  nearest : ∀ (kind : ScopeKind) {bound : Nat}, store.scopes.size ≤ bound →
    store.nearestFrom held kind bound id = store.nearest held id kind
  root : ∀ {bound : Nat}, store.scopes.size ≤ bound →
    store.rootFrom held bound id = store.root held id

/-- The owner of a behaviour keeps its own scopes alive. -/
theorem OwnedBy.owner_dead {parent : ScopeId} {behaviour owner : ObjectRef}
    (h : store.OwnedBy id parent behaviour owner) (he : store.Enclosed)
    (hh : ∀ ref ∈ held (), store.Sees ref) (hp : parent.index < store.scopes.size)
    (hd : store.alive held (.scope parent) = false) :
    store.alive held (.object owner) = false := by
  have hhl : Ref.scope parent ∈ store.refsOf (.object owner) := by
    refine List.mem_append_left _ (List.mem_map.mpr ⟨parent, ?_, rfl⟩)
    exact List.mem_of_head? h.outer
  by_contra hal
  have hk := he.alive_of_held hh
    (show store.Sees (.object owner) from trivial) hhl
    (Nat.lt_of_lt_of_le hp (Nat.le_add_right _ _)) (by simpa using hal)
  rw [hd] at hk
  cases hk

namespace InPlace

theorem exists_endsWell (h : store.InPlace root) (ho : store.Owned)
    (hh : ∀ ref ∈ held (), store.Sees ref) (hid : id.index < store.scopes.size) :
    ∃ path, store.EndsWell root held id path := by
  obtain ⟨path, hpt⟩ := exists_ascent (h.rooted.wellFounded h.registered) held id
  have hi := hpt.contains (h.rooted.parent_inside h.registered) hid
  obtain ⟨last, hl, hn⟩ := hpt.exists_last
  refine ⟨path, hpt, hi, hpt.nodup, ?_⟩
  rcases parentOf_eq_none_iff.mp hn with hp | ⟨parent, hp, hd⟩
  · have hr := h.rooted.orphan (hi last (List.mem_of_getLast? hl)) hp
    exact .inl (hr ▸ hl)
  · obtain ⟨behaviour, owner, hb⟩ := ho last parent hp
    have hpi := h.rooted.parent_inside h.registered ⟨_, hp, rfl⟩
    have how := hb.owner_dead (h.rooted.enclosed h.registered) hh hpi hd
    exact .inr ⟨last, parent, behaviour, owner, hl, hp, hb, how⟩

theorem lookupsEnd (h : store.InPlace root) (held : Held) (hid : id.index < store.scopes.size) :
    store.LookupsEnd held id := by
  obtain ⟨path, hp⟩ := exists_ascent (h.rooted.wellFounded h.registered) held id
  have hl := h.rooted.length_le h.registered hp hid
  refine ⟨fun visit _ hb => ?_, fun visit _ hb => ?_, fun kind _ hb => ?_, fun hb => ?_⟩
  · exact hp.walkFrom_eq (hl.trans hb) hl false visit
  · exact hp.walkFrom_eq (hl.trans hb) hl true visit
  · exact hp.nearestFrom_eq (hl.trans hb) hl kind
  · have hfar := hp.rootFrom_eq (hl.trans hb)
    have hn := hp.rootFrom_eq hl
    exact Option.some.inj (hfar.symm.trans hn)

/-- A delegate is the shared scope of a class that the Global scope knows by its name. -/
theorem delegate_registered (h : store.InPlace root) {shared : ScopeId}
    (hdl : (store.scope id).delegate = some shared) :
    ∃ name declared, (store.scope root).classes.get? name = some declared ∧
      (store.classAt declared).sharedScope = shared := by
  obtain ⟨declared, hd, hs⟩ := h.rooted.delegates hdl
  have hk := h.registered.grounded.get?_class_iff.mpr ⟨hd, rfl⟩
  exact ⟨_, declared, hk, hs⟩

end InPlace

end Store

namespace System

variable {σ τ : Type} {host : Host σ τ} {system : System σ τ} {moves : List (Move σ τ)}

/-- The scopes that frames, classes, functions and objects refer to. -/
inductive RefersTo (system : System σ τ) : ScopeId → Prop where
  | frame {machine : Machine τ} {frame : Frame τ} {id : ScopeId}
      (running : machine ∈ system.running) (stacked : frame ∈ machine.stack.frames)
      (refers : id ∈ frame.scopes) : RefersTo system id
  | sharedScope {declared : ClassId} (known : declared.index < system.store.classes.size) :
      RefersTo system (system.store.classAt declared).sharedScope
  | home {declared : ClassId} (known : declared.index < system.store.classes.size) :
      RefersTo system (system.store.classAt declared).home
  | function {place id : ScopeId} {name : String} {function : Function}
      (declared : system.store.ownFunction? place name = some function)
      (refers : id ∈ place :: function.scopes) : RefersTo system id
  | member {declared : ClassId} {id : ScopeId}
      (refers : id ∈ (system.store.classAt declared).functionScopes) : RefersTo system id
  | behaviour {place id : ScopeId} {entry : String × Behaviour}
      (declared : entry ∈ (system.store.scope place).behaviours)
      (refers : id ∈ entry.2.members.scopes) : RefersTo system id
  | object {object : ObjectRef} {id : ScopeId}
      (level : id ∈ (system.store.object object).scopes) : RefersTo system id

theorem InPlace.inside (h : system.InPlace) {id : ScopeId} (hid : system.RefersTo id) :
    id.index < system.store.scopes.size := by
  cases hid with
  | @frame machine frame id hrn hs hr =>
    exact (Store.hostsAll_flatMap.mp (h.machines machine hrn).scopes frame hs id hr).inside
  | sharedScope hk => exact h.store.shared_inside hk
  | home hk => exact h.store.home_inside hk
  | function hd hr => exact (h.rooted.function_declared hd id hr).inside
  | member hr => exact (h.rooted.functions _ id hr).inside
  | behaviour hd hr => exact (h.rooted.behaviours _ _ hd id hr).inside
  | object hl => exact (h.rooted.objects _ id hl).inside

/-- **Chains of scopes.**  Whatever units have been registered and however their machines have run,
the relation between a scope and its parent is well founded, delegates are shared scopes of
registered classes, every chain ends at the Global scope or at the scope of a behaviour whose owner
is gone, and so every lookup from a scope that something refers to ends. -/
theorem History.chains_end (h : History host moves system) :
    WellFounded system.store.IsParent ∧
      (∀ id shared, (system.store.scope id).delegate = some shared →
        ∃ name declared,
          (system.store.scope system.program.root).classes.get? name = some declared ∧
            (system.store.classAt declared).sharedScope = shared) ∧
      (∀ held : Held, (∀ ref ∈ held (), system.store.Sees ref) →
        ∀ id : ScopeId, id.index < system.store.scopes.size →
          ∃ path, system.store.EndsWell system.program.root held id path) ∧
      ∀ id, system.RefersTo id → id.index < system.store.scopes.size ∧
        ∀ held : Held, system.store.LookupsEnd held id := by
  have hplace := h.inPlace
  refine ⟨hplace.rooted.wellFounded hplace.inOrder.registered, ?_, ?_, ?_⟩
  · intro id shared hdelegate
    exact hplace.store.delegate_registered hdelegate
  · intro held hheld id hid
    exact hplace.store.exists_endsWell hplace.owned hheld hid
  · intro id hrefers
    have hinside := hplace.inside hrefers
    exact ⟨hinside, fun held => hplace.store.lookupsEnd held hinside⟩

/-! ## A behaviour without its owner -/

/-- A source that creates an object with a behaviour and keeps nothing of it. -/
def attachedFiles : List Node :=
  (Grammar.parseText "behaviour B\nend\nclass A\nhas behaviour B\nend\nnew A\n"
    "attached").toOption.toList

/-- The source runs, and its machine has made some moves. -/
def attachedSystem : System Unit Standard.Sleep :=
  (advance Standard.host)^[16] (launch attachedFiles { state := () })

theorem exists_history_attachedSystem : ∃ moves, History Standard.host moves attachedSystem :=
  ⟨_, (History.launch (by decide +kernel)).advance 16⟩

/-- The chain of the behaviour ends with its own scope once nothing is held, and at the Global scope
while the owner is. -/
theorem History.chains_end_attached :
    ∃ moves owner, History Standard.host moves attachedSystem ∧
      attachedSystem.store.parentOf (fun _ => []) ⟨5⟩ = none ∧
      (∃ path, attachedSystem.store.EndsWell attachedSystem.program.root (fun _ => []) ⟨5⟩ path) ∧
      attachedSystem.store.parentOf (fun _ => [.object owner]) ⟨5⟩ = some ⟨4⟩ ∧
      (∃ path, attachedSystem.store.EndsWell attachedSystem.program.root
        (fun _ => [.object owner]) ⟨5⟩ path) := by
  obtain ⟨moves, hhistory⟩ := exists_history_attachedSystem
  obtain ⟨-, -, hchains, -⟩ := hhistory.chains_end
  have hinside : (⟨5⟩ : ScopeId).index < attachedSystem.store.scopes.size := by decide +kernel
  refine ⟨moves, ⟨0, "A", 1⟩, hhistory, by decide +kernel, ?_, by decide +kernel, ?_⟩
  · exact hchains _ (fun _ href => absurd href List.not_mem_nil) _ hinside
  · refine hchains _ (fun ref href => ?_) _ hinside
    obtain rfl := List.mem_singleton.mp href
    trivial

end System

end StepScript
