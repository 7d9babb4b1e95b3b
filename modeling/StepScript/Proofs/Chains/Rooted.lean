import StepScript.Proofs.Registration.Acceptance
import StepScript.Proofs.Store.Holding
set_option autoImplicit false

/-!
# Chains of scopes

A scope stands under a scope that is older than itself, except for the shared scope of a class,
which is put under that of the parent of the class (`Store.Rooted`).  Inheritance has no cycles, so
no way from scopes to their parents goes on for ever (`Store.Rooted.wellFounded`), and the chain of
a scope is a list without repetitions (`Store.Ascent`), which every walk gets through
(`Store.visits`).
-/

namespace StepScript

/-! ## What is referred to -/

/-- The scope that a link leads to. -/
def ParentLink.target : ParentLink → ScopeId
  | .strong parent | .weak parent => parent

/-- The scope that a function refers to. -/
def Function.scopes (function : Function) : List ScopeId := function.home.toList

/-- The scopes that the functions of a table refer to. -/
def Table.scopes (functions : Table Function) : List ScopeId :=
  functions.entries.flatMap Function.scopes

/-- The scopes that members refer to. -/
def Members.scopes (members : Members) : List ScopeId :=
  members.functions.scopes ++ members.constructor.toList.flatMap Function.scopes

/-- The scopes that the functions of a class refer to. -/
def Class.functionScopes (declared : Class) : List ScopeId :=
  declared.members.scopes ++ declared.sharedConstructor.toList.flatMap Function.scopes

/-- The scopes that the functions and the files of a scope refer to. -/
def Scope.declaredScopes (scope : Scope) : List ScopeId :=
  scope.functions.scopes ++ scope.state.toList.flatMap (·.files.entries)

/-- The scope is the class level of an object, which binds and declares nothing itself. -/
def Scope.IsWrapper (scope : Scope) : Prop :=
  scope.kind = .classLevel ∧ scope.values = [] ∧ scope.functions = []

namespace Store

/-- The scopes are scopes of the store. -/
def Contains (store : Store) (ids : List ScopeId) : Prop := ∀ id ∈ ids, id.index < store.scopes.size

/-- The scope is a scope of the store that code can work in, which no scope with a delegate is. -/
def Hosts (store : Store) (id : ScopeId) : Prop :=
  id.index < store.scopes.size ∧ (store.scope id).delegate = none

/-- Code can work in each of the scopes. -/
def HostsAll (store : Store) (ids : List ScopeId) : Prop := ∀ id ∈ ids, store.Hosts id

section HostsAll

variable {store later : Store} {ids others : List ScopeId} {id : ScopeId}

theorem Hosts.inside (h : store.Hosts id) : id.index < store.scopes.size := h.1

theorem Hosts.plain (h : store.Hosts id) : (store.scope id).delegate = none := h.2

@[simp] theorem hostsAll_nil (store : Store) : store.HostsAll [] := fun _ hid => nomatch hid

@[simp] theorem hostsAll_cons : store.HostsAll (id :: ids) ↔ store.Hosts id ∧ store.HostsAll ids :=
  List.forall_mem_cons

@[simp] theorem hostsAll_append :
    store.HostsAll (ids ++ others) ↔ store.HostsAll ids ∧ store.HostsAll others :=
  List.forall_mem_append

theorem HostsAll.subset (h : store.HostsAll ids) (hs : others ⊆ ids) : store.HostsAll others :=
  fun id hid => h id (hs hid)

theorem hostsAll_flatMap {α : Type} {items : List α} {scopes : α → List ScopeId} :
    store.HostsAll (items.flatMap scopes) ↔ ∀ item ∈ items, store.HostsAll (scopes item) := by
  simp only [HostsAll, List.mem_flatMap]
  exact ⟨fun h item hi id hid => h id ⟨item, hi, hid⟩, fun h id ⟨item, hi, hid⟩ => h item hi id hid⟩

/-- The scopes of the former store are in the later one, with the same delegates. -/
def KeepsDelegates (store later : Store) : Prop :=
  ∀ id : ScopeId, id.index < store.scopes.size → id.index < later.scopes.size ∧
    (later.scope id).delegate = (store.scope id).delegate

theorem Hosts.kept (h : store.Hosts id) (hk : store.KeepsDelegates later) : later.Hosts id := by
  obtain ⟨hi, hd⟩ := hk id h.inside
  exact ⟨hi, hd.trans h.plain⟩

theorem HostsAll.kept (h : store.HostsAll ids) (hk : store.KeepsDelegates later) :
    later.HostsAll ids :=
  fun id hid => (h id hid).kept hk

theorem keepsDelegates_addScope (scope : Scope) :
    store.KeepsDelegates (store.addScope scope).2 := by
  intro id hid
  rw [size_addScope, scope_addScope_of_lt hid]
  exact ⟨Nat.lt_succ_of_lt hid, rfl⟩

theorem keepsDelegates_modifyScope {change : Scope → Scope}
    (hd : (change (store.scope id)).delegate = (store.scope id).delegate) :
    store.KeepsDelegates (store.modifyScope id change) := by
  intro other ho
  rw [size_modifyScope, scope_modifyScope]
  refine ⟨ho, ?_⟩
  split
  · next heq => rw [heq.1, hd]
  · rfl

theorem Evolves.keepsDelegates (h : store.Evolves later) : store.KeepsDelegates later :=
  fun _ hid => ⟨Nat.lt_of_lt_of_le hid h.size, (h.scopes hid).delegate⟩

/-- A new scope without a delegate. -/
theorem hosts_addScope {scope : Scope} (h : scope.delegate = none) :
    (store.addScope scope).2.Hosts ⟨store.scopes.size⟩ := by
  refine ⟨by simp, ?_⟩
  rw [scope_addScope, if_pos rfl, h]

end HostsAll

/-! ## Scopes in their places -/

/-- The scope is the shared scope of a class. -/
def IsShared (store : Store) (id : ScopeId) : Prop :=
  ∃ declared : ClassId, declared.index < store.classes.size ∧
    (store.classAt declared).sharedScope = id

/-- Every scope has its place in a chain, and what the store refers to are scopes of it. -/
structure Rooted (root : ScopeId) (store : Store) : Prop where
  orphan : ∀ {id : ScopeId}, id.index < store.scopes.size → (store.scope id).parent = none →
    id = root
  parents : ∀ {id : ScopeId} {link : ParentLink}, (store.scope id).parent = some link →
    link.target.index < id.index ∨ store.IsShared id
  delegates : ∀ {id shared : ScopeId}, (store.scope id).delegate = some shared →
    store.IsShared shared
  wrappers : ∀ {id shared : ScopeId}, (store.scope id).delegate = some shared →
    (store.scope id).IsWrapper
  host : store.Hosts root
  shared : ∀ {id : ScopeId}, store.IsShared id → store.Hosts id
  classes : ∀ {id : ScopeId}, id ≠ root → (store.scope id).classes = []
  declared : ∀ id : ScopeId, store.HostsAll (store.scope id).declaredScopes
  functions : ∀ id : ClassId, store.HostsAll (store.classAt id).functionScopes
  behaviours : ∀ (id : ScopeId), ∀ entry ∈ (store.scope id).behaviours,
    store.HostsAll entry.2.members.scopes
  objects : ∀ object : ObjectRef, store.HostsAll (store.object object).scopes

variable {store later : Store} {root id parent : ScopeId}

/-- A place with something in it is in the store. -/
theorem inside_of_ne_default (h : store.scope id ≠ default) : id.index < store.scopes.size := by
  by_contra ho
  exact h (scope_of_size_le (Nat.le_of_not_lt ho))

theorem inside_of_parent {link : ParentLink} (h : (store.scope id).parent = some link) :
    id.index < store.scopes.size := by
  refine inside_of_ne_default fun heq => ?_
  rw [heq] at h
  cases h

/-! ## The way up -/

/-- The scope is the parent of the other one, whether the link keeps it alive or not. -/
def IsParent (store : Store) (parent id : ScopeId) : Prop :=
  ∃ link, (store.scope id).parent = some link ∧ link.target = parent

theorem isParent_of_parentOf {held : Held} (h : store.parentOf held id = some parent) :
    store.IsParent parent id := by
  unfold parentOf at h
  split at h
  · next found hl => exact ⟨_, hl, Option.some.inj h⟩
  · next found hl =>
    split at h
    · exact ⟨_, hl, Option.some.inj h⟩
    · cases h
  · cases h

/-- Only a link to something that is no longer alive ends a chain before its root. -/
theorem parentOf_eq_none_iff {held : Held} :
    store.parentOf held id = none ↔ (store.scope id).parent = none ∨
      ∃ parent, (store.scope id).parent = some (.weak parent) ∧
        store.alive held (.scope parent) = false := by
  unfold parentOf
  split
  · next found hl => simp [hl]
  · next found hl => simp [hl]
  · next hl => simp [hl]

namespace Registered

variable (h : store.Registered root)

include h

theorem exists_lineage {declared : ClassId} (hd : declared.index < store.classes.size) :
    ∃ chain, store.Lineage declared chain :=
  (((registry_sound_iff h.grounded h.linked.parents).mp h.sound).1 hd).1

theorem acc_root : Acc store.IsParent root := by
  refine ⟨root, fun parent ⟨link, hl, _⟩ => ?_⟩
  cases hl.symm.trans h.grounded.isRoot.parent

theorem acc_home {home : ScopeId} (hh : store.IsHome root home) : Acc store.IsParent home := by
  obtain ⟨name, hn⟩ := hh
  refine ⟨home, fun parent ⟨link, hl, ht⟩ => ?_⟩
  obtain rfl := Option.some.inj (hl.symm.trans (h.grounded.files hn).2.parent)
  exact ht ▸ h.acc_root

/-- The way up from a shared scope follows the lineage of its class, and ends with the file of the
last ancestor. -/
theorem acc_shared (hid : store.IsShared id) : Acc store.IsParent id := by
  obtain ⟨declared, hd, rfl⟩ := hid
  obtain ⟨chain, hc⟩ := h.exists_lineage hd
  induction hc with
  | @last declared hn =>
    refine ⟨_, fun parent ⟨link, hl, ht⟩ => ?_⟩
    obtain rfl := Option.some.inj (hl.symm.trans (h.linked.shared hd))
    rw [← ht]
    simp only [ParentLink.target, sharedParent, hn]
    exact h.acc_home (h.grounded.placed hd).home
  | @under declared above chain hln _ ih =>
    refine ⟨_, fun parent ⟨link, hl, ht⟩ => ?_⟩
    obtain rfl := Option.some.inj (hl.symm.trans (h.linked.shared hd))
    rw [← ht]
    simp only [ParentLink.target, sharedParent, hln]
    exact ih ((kinship h.grounded h.linked.parents).parents hd hln)

/-- The scope above a shared scope is a scope of the store. -/
theorem sharedParent_inside {declared : ClassId} (hd : declared.index < store.classes.size) :
    (store.sharedParent (store.classAt declared)).index < store.scopes.size := by
  unfold sharedParent
  split
  · next above hl =>
    have hab := (kinship h.grounded h.linked.parents).parents hd hl
    exact (h.grounded.placed hab).inside
  · obtain ⟨name, hn⟩ := (h.grounded.placed hd).home
    exact (h.grounded.files hn).1

end Registered

namespace Rooted

/-- The way from scopes to their parents is well founded. -/
theorem wellFounded (h : store.Rooted root) (hr : store.Registered root) :
    WellFounded store.IsParent := by
  have hacc (bound : Nat) : ∀ id : ScopeId, id.index < bound → Acc store.IsParent id := by
    induction bound with
    | zero => exact fun _ hid => absurd hid (Nat.not_lt_zero _)
    | succ bound ih =>
      intro id hid
      by_cases hs : store.IsShared id
      · exact hr.acc_shared hs
      · refine ⟨id, fun parent ⟨link, hln, ht⟩ => ih parent ?_⟩
        have hl := (h.parents hln).resolve_right hs
        rw [ht] at hl
        omega
  exact ⟨fun id => hacc (id.index + 1) id (Nat.lt_succ_self _)⟩

theorem parent_inside (h : store.Rooted root) (hr : store.Registered root)
    (hp : store.IsParent parent id) : parent.index < store.scopes.size := by
  obtain ⟨link, hl, rfl⟩ := hp
  have hi := inside_of_parent hl
  rcases h.parents hl with hls | ⟨declared, hd, rfl⟩
  · exact Nat.lt_trans hls hi
  · obtain rfl := Option.some.inj (hl.symm.trans (hr.linked.shared hd))
    exact hr.sharedParent_inside hd

end Rooted

/-! ## Chains -/

/-- The scopes from a scope to the end of its chain. -/
inductive Ascent (store : Store) (held : Held) : ScopeId → List ScopeId → Prop where
  | last {id : ScopeId} (parent : store.parentOf held id = none) : Ascent store held id [id]
  | under {id parent : ScopeId} {path : List ScopeId}
      (linked : store.parentOf held id = some parent) (above : Ascent store held parent path) :
      Ascent store held id (id :: path)

/-- The scopes that a lookup visits: those of the chain, each followed by its delegate.  A lookup
of members goes no further than the first scope of a file or of the whole program. -/
def visits (store : Store) (membersOnly : Bool) : List ScopeId → List ScopeId
  | [] => []
  | id :: path =>
    if membersOnly && store.isFileLevel id then []
    else id :: ((store.scope id).delegate.toList ++ store.visits membersOnly path)

theorem findSome?_toList {α β : Type} (visit : α → Option β) (item : Option α) :
    item.toList.findSome? visit = item.bind visit := by
  cases item with
  | none => rfl
  | some item => cases hv : visit item <;> simp [hv]

namespace Ascent

variable {held : Held} {path other : List ScopeId} {place : ScopeId}

variable (h : store.Ascent held id path)

include h

theorem unique (ho : store.Ascent held id other) : path = other := by
  induction h generalizing other with
  | last hn =>
    cases ho with
    | last _ => rfl
    | under hl _ => cases hn.symm.trans hl
  | under hl _ ih =>
    cases ho with
    | last hn => cases hn.symm.trans hl
    | under hl' hab =>
      obtain rfl := Option.some.inj (hl.symm.trans hl')
      rw [ih hab]

theorem of_mem (hp : place ∈ path) : ∃ rest, store.Ascent held place rest ∧ rest <:+ path := by
  induction h with
  | @last id hn =>
    obtain rfl := List.mem_singleton.mp hp
    exact ⟨[place], .last hn, List.suffix_refl _⟩
  | @under id parent path hl hab ih =>
    rcases List.mem_cons.mp hp with rfl | hmem
    · exact ⟨_, .under hl hab, List.suffix_refl _⟩
    · obtain ⟨rest, hr, hs⟩ := ih hmem
      exact ⟨rest, hr, hs.trans (List.suffix_cons _ _)⟩

/-- No scope comes twice. -/
theorem nodup : path.Nodup := by
  induction h with
  | last _ => exact List.nodup_singleton _
  | @under id parent path hln hab ih =>
    refine List.nodup_cons.mpr ⟨fun hmem => ?_, ih⟩
    -- A scope above itself would have two chains of different lengths.
    obtain ⟨rest, hr, hsf⟩ := hab.of_mem hmem
    have hs := hr.unique (.under hln hab)
    have hl := hsf.length_le
    rw [hs, List.length_cons] at hl
    exact absurd hl (Nat.not_succ_le_self _)

/-- A chain is no longer than there are scopes. -/
theorem length_le (hin : store.Contains path) : path.length ≤ store.scopes.size := by
  have hn : (path.map (·.index)).Nodup := by
    refine (List.nodup_map_iff_inj_on h.nodup).mpr fun place _ other _ hs => ?_
    cases place
    cases other
    exact congrArg ScopeId.mk hs
  have hsb : path.map (·.index) ⊆ List.range store.scopes.size := by
    intro index hi
    obtain ⟨place, hp, rfl⟩ := List.mem_map.mp hi
    exact List.mem_range.mpr (hin place hp)
  have hl := (hn.subperm hsb).length_le
  rwa [List.length_map, List.length_range] at hl

/-- The last scope has no parent to go to. -/
theorem exists_last : ∃ last, path.getLast? = some last ∧ store.parentOf held last = none := by
  induction h with
  | last hn => exact ⟨_, rfl, hn⟩
  | @under id parent path hln hab ih =>
    obtain ⟨last, hl, hn⟩ := ih
    refine ⟨last, ?_, hn⟩
    rw [List.getLast?_cons, hl]
    rfl

/-- A walk answers with the first answer to a visit. -/
theorem walkFrom_eq_findSome? {α : Type} {bound : Nat} (hb : path.length ≤ bound)
    (membersOnly : Bool) (visit : ScopeId → Scope → Option α) :
    store.walkFrom held membersOnly visit bound id
      = (store.visits membersOnly path).findSome? fun id => visit id (store.scope id) := by
  induction h generalizing bound with
  | @last id hn =>
    obtain ⟨bound, rfl⟩ := Nat.exists_eq_succ_of_ne_zero (Nat.ne_of_gt hb)
    rw [walkFrom, visits, hn]
    split
    · rfl
    · rw [List.findSome?_cons, List.findSome?_append, findSome?_toList]
      cases visit id (store.scope id) <;>
        cases (store.scope id).delegate.bind fun other => visit other (store.scope other) <;> rfl
  | @under id parent path hl _ ih =>
    obtain ⟨bound, rfl⟩ := Nat.exists_eq_succ_of_ne_zero (Nat.ne_zero_of_lt hb)
    rw [walkFrom, visits, hl]
    split
    · rfl
    · rw [List.findSome?_cons, List.findSome?_append, findSome?_toList,
        ← ih (Nat.le_of_succ_le_succ hb)]
      cases visit id (store.scope id) <;>
        cases (store.scope id).delegate.bind fun other => visit other (store.scope other) <;> rfl

/-! Every walk gets through a chain, so a larger bound makes no difference. -/

theorem walkFrom_eq {α : Type} {bound bound' : Nat} (hb : path.length ≤ bound)
    (hb' : path.length ≤ bound') (membersOnly : Bool) (visit : ScopeId → Scope → Option α) :
    store.walkFrom held membersOnly visit bound id
      = store.walkFrom held membersOnly visit bound' id := by
  rw [h.walkFrom_eq_findSome? hb, h.walkFrom_eq_findSome? hb']

theorem nearestFrom_eq {bound bound' : Nat} (hb : path.length ≤ bound)
    (hb' : path.length ≤ bound') (kind : ScopeKind) :
    store.nearestFrom held kind bound id = store.nearestFrom held kind bound' id := by
  induction h generalizing bound bound' with
  | last hn =>
    obtain ⟨bound, rfl⟩ := Nat.exists_eq_succ_of_ne_zero (Nat.ne_of_gt hb)
    obtain ⟨bound', rfl⟩ := Nat.exists_eq_succ_of_ne_zero (Nat.ne_of_gt hb')
    simp only [nearestFrom, hn]
  | under hl _ ih =>
    obtain ⟨bound, rfl⟩ := Nat.exists_eq_succ_of_ne_zero (Nat.ne_zero_of_lt hb)
    obtain ⟨bound', rfl⟩ := Nat.exists_eq_succ_of_ne_zero (Nat.ne_zero_of_lt hb')
    simp only [nearestFrom, hl, ih (Nat.le_of_succ_le_succ hb) (Nat.le_of_succ_le_succ hb')]

theorem rootFrom_eq {bound : Nat} (hb : path.length ≤ bound) :
    path.getLast? = some (store.rootFrom held bound id) := by
  induction h generalizing bound with
  | last hn =>
    obtain ⟨bound, rfl⟩ := Nat.exists_eq_succ_of_ne_zero (Nat.ne_of_gt hb)
    simp only [rootFrom, hn, List.getLast?_singleton]
  | under hl _ ih =>
    obtain ⟨bound, rfl⟩ := Nat.exists_eq_succ_of_ne_zero (Nat.ne_zero_of_lt hb)
    rw [List.getLast?_cons, ih (Nat.le_of_succ_le_succ hb)]
    simp only [rootFrom, hl, Option.getD_some]

theorem contains (hp : ∀ {id parent : ScopeId}, store.IsParent parent id →
    parent.index < store.scopes.size) (hid : id.index < store.scopes.size) :
    store.Contains path := by
  induction h with
  | last _ => exact List.forall_mem_singleton.mpr hid
  | under hl _ ih => exact List.forall_mem_cons.mpr ⟨hid, ih (hp (isParent_of_parentOf hl))⟩

end Ascent

theorem exists_ascent (hw : WellFounded store.IsParent) (held : Held) (id : ScopeId) :
    ∃ path, store.Ascent held id path := by
  induction id using hw.induction with
  | _ id ih =>
    cases hp : store.parentOf held id with
    | none => exact ⟨_, .last hp⟩
    | some parent =>
      obtain ⟨path, hpt⟩ := ih parent (isParent_of_parentOf hp)
      exact ⟨_, .under hp hpt⟩

/-! Values and update targets refer to objects only, so what counts are the files. -/

theorem sees_of_value (value : Constant) : ∀ ref ∈ value.refs, store.Sees ref := by
  intro ref href
  cases value <;> simp_all [Constant.refs, Sees]

theorem sees_of_state {state : GlobalState} (hfl : store.HostsAll state.files.entries) :
    ∀ ref ∈ state.refs, store.Sees ref := by
  intro ref href
  rcases List.mem_append.mp href with hu | hf
  · obtain ⟨updated, -, hh⟩ := List.mem_flatMap.mp hu
    cases updated <;> simp_all [UpdateTarget.refs, Sees]
  · obtain ⟨file, hmem, rfl⟩ := List.mem_map.mp hf
    exact (hfl file hmem).inside

namespace Rooted

variable {held : Held} {path : List ScopeId}

theorem length_le (h : store.Rooted root) (hr : store.Registered root)
    (hp : store.Ascent held id path) (hid : id.index < store.scopes.size) :
    path.length ≤ store.scopes.size :=
  hp.length_le (hp.contains (h.parent_inside hr) hid)

/-- The store refers to no scopes but its own. -/
theorem enclosed (h : store.Rooted root) (hr : store.Registered root) : store.Enclosed := by
  refine ⟨fun {ref other} ho => ?_, fun ref href => ?_⟩
  · cases ref with
    | scope id =>
      have hd := h.declared id
      simp only [refsOf, Scope.refs, List.mem_append, List.mem_map, List.mem_flatMap] at ho
      rcases ho with ((((hp | ⟨shared, hdl, rfl⟩) | ⟨value, -, hh⟩) |
        ⟨function, hfn, hh⟩) | ⟨object, -, rfl⟩) | hs
      · split at hp
        · next parent hl =>
          obtain rfl := List.mem_singleton.mp hp
          exact h.parent_inside hr ⟨_, hl, rfl⟩
        · cases hp
      · exact (h.shared (h.delegates (by simpa using hdl))).inside
      · exact sees_of_value value other hh
      · obtain ⟨home, hhm, rfl⟩ := List.mem_map.mp hh
        refine (hd home (List.mem_append_left _ ?_)).inside
        exact List.mem_flatMap.mpr ⟨function, hfn, hhm⟩
      · trivial
      · split at hs
        · next state hsm =>
          have hf := (hostsAll_append.mp hd).2
          rw [hsm, Option.toList_some, List.flatMap_singleton] at hf
          exact sees_of_state hf other hs
        · cases hs
    | object object =>
      simp only [refsOf, Object.refs, List.mem_append, List.mem_map] at ho
      rcases ho with ⟨id, hid, rfl⟩ | ⟨behaviour, -, rfl⟩
      · exact (h.objects object id hid).inside
      · trivial
  · obtain ⟨declared, hd, href⟩ := List.mem_flatMap.mp href
    obtain ⟨index, hi, rfl⟩ := List.getElem_of_mem hd
    have hpl : store.PlacedClass root (store.classAt ⟨index⟩) := hr.grounded.placed hi
    have hc : store.classAt ⟨index⟩ = store.classes.toList[index] := by
      have hin : index < store.classes.size := hi
      simp [classAt, hin]
    rw [hc] at hpl
    obtain ⟨name, hn⟩ := hpl.home
    rcases List.mem_cons.mp href with rfl | href
    · exact hpl.inside
    · obtain rfl := List.mem_singleton.mp href
      exact (hr.grounded.files hn).1

end Rooted

end Store

end StepScript
