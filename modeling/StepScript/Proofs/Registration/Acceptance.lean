import StepScript.Proofs.Registration.Atomicity
import StepScript.Proofs.Registration.Completing
import StepScript.Proofs.Registration.Publishing
set_option autoImplicit false

/-!
# Which units are accepted

Over a Global scope whose classes are linked and fit together (`Store.Registered`) a unit is
accepted exactly if its declarations can be declared one after the other and everything that is
then known by name fits together; the classes are linked in the one possible way, and the Global
scope is again in order (`Store.addUnit_ok_iff`).
-/

namespace StepScript

variable {id : ClassId}

namespace Store

/-- The books are in order, the classes are linked, and all of them fit together. -/
structure Registered (root : ScopeId) (store : Store) : Prop where
  grounded : store.Grounded root
  linked : store.Linked root
  sound : (store.registry root).Sound

variable {root : ScopeId} {store later : Store}

theorem nodup_allClasses (store : Store) : store.allClasses.Nodup := by
  refine List.Nodup.map ?_ List.nodup_range
  intro index other heq
  exact congrArg ClassId.index heq

/-! ## Linking only changes links -/

theorem relinked_linkParents (store : Store) (lookup : String → Option ClassId)
    (ids : List ClassId) : store.Relinked (store.linkParents lookup ids) where
  objects := linkParents_rest.1
  released := linkParents_rest.2
  size := by rw [linkParents_scopes]
  classesSize := size_linkParents
  classes id := by
    rw [classAt_linkParents]
    split <;> rfl
  scopes id := by
    unfold scope
    rw [linkParents_scopes]
  kept {id} _ := by
    unfold scope
    rw [linkParents_scopes]

theorem relinked_setParents {links : List (ScopeId × ScopeId)}
    (h : ∀ link ∈ links, ∃ id : ClassId, id.index < store.classes.size ∧
      (store.classAt id).sharedScope = link.1) : store.Relinked (store.setParents links) where
  objects := setParents_rest.1
  released := setParents_rest.2.1
  size := setParents_rest.2.2
  classesSize := by rw [setParents_classes]
  classes id := by rw [classAt_congr setParents_classes]
  scopes id := scope_setParents id
  kept {id} hid := by
    refine setParents_kept fun link hl => ?_
    obtain ⟨declared, hd, hs⟩ := h link hl
    rw [← hs]
    exact hid hd

/-! ## Names that have been known before -/

theorem Grows.within (h : store.Grows root later) (hg : store.Grounded root) :
    (store.registry root).Within (later.registry root) where
  class? {name heading} hk := by
    obtain ⟨id, hget, rfl⟩ := Option.map_eq_some_iff.mp hk
    obtain ⟨hid, -⟩ := hg.get?_class_iff.mp hget
    refine Option.map_eq_some_iff.mpr ⟨id, h.get?_class hget, ?_⟩
    rw [h.classes hid]
  behaviour? hk := h.get?_behaviour hk

theorem ParentLinked.grows {declared : Class} (h : store.ParentLinked root declared)
    (hg : store.Grows root later) : later.ParentLinked root declared := by
  have hk (name : String) (hn : name ∈ declared.parentName) :
      ∃ id, (store.scope root).classes.get? name = some id :=
    Option.isSome_iff_exists.mp (h.known name hn)
  refine ⟨?_, fun name hn => ?_⟩
  · rw [h.parent]
    cases hn : declared.parentName with
    | none => rfl
    | some name =>
      obtain ⟨id, hid⟩ := hk name hn
      rw [Option.bind_some, Option.bind_some, hid, hg.get?_class hid]
  · obtain ⟨id, hid⟩ := hk name hn
    exact Option.isSome_iff_exists.mpr ⟨id, hg.get?_class hid⟩

end Store

namespace Draft

variable {root : ScopeId} {base : Store} {draft later : Draft}

/-- The declarations of a unit have been gathered over a Global scope that is in order. -/
structure Gathers (root : ScopeId) (base : Store) (draft : Draft) : Prop where
  registered : base.Registered root
  pending : draft.Pending root
  scope : draft.store.scope root = base.scope root
  grows : base.Grows root draft.shown

/-- Links change nothing of what a draft declares. -/
theorem Pending.relinked (h : draft.Pending root) {store : Store}
    (hr : draft.store.Relinked store)
    (hs : store.scope root = draft.store.scope root) :
    Draft.Pending root { draft with store } ∧
      draft.shown.Relinked (shown { draft with store }) := by
  have he : entries { draft with store } = draft.entries := by
    unfold entries
    simp only [hr.name]
  have hsh : draft.shown.Relinked (shown { draft with store }) := by
    unfold shown
    rw [he]
    obtain rfl := h.target
    exact hr.declare hs _
  exact ⟨h.later rfl rfl hs (hsh.grounded h.grounded), hsh⟩

namespace Gathers

section

variable (h : draft.Gathers root base)

include h

/-- The classes of the unit come behind all others. -/
theorem allClasses_eq : draft.shown.allClasses = base.allClasses ++ draft.classes := by
  obtain ⟨state, hs, hc, -⟩ := h.registered.grounded.state
  obtain ⟨state', hs', hc', -⟩ := h.pending.grounded.state
  rw [h.pending.scope_root, h.scope, Scope.declaring, hs] at hs'
  obtain rfl := Option.some.inj hs'
  rw [← hc', ← hc]
  simp [Scope.declaringState, entries, Function.comp_def]

theorem nodup_classes : draft.classes.Nodup := by
  have hn := draft.shown.nodup_allClasses
  rw [h.allClasses_eq] at hn
  exact (List.nodup_append.mp hn).2.1

theorem mem_classes_iff :
    id ∈ draft.classes ↔ base.classes.size ≤ id.index ∧ id.index < draft.store.classes.size := by
  have hmem : id ∈ draft.shown.allClasses ↔ id ∈ base.allClasses ∨ id ∈ draft.classes := by
    rw [h.allClasses_eq, List.mem_append]
  have hn := draft.shown.nodup_allClasses
  rw [h.allClasses_eq] at hn
  rw [Store.mem_allClasses, Store.mem_allClasses] at hmem
  constructor
  · intro hid
    refine ⟨Nat.le_of_not_lt fun hold => ?_, hmem.mpr (.inr hid)⟩
    exact (List.nodup_append.mp hn).2.2 id (Store.mem_allClasses.mpr hold) id hid rfl
  · rintro ⟨hnew, hi⟩
    exact (hmem.mp hi).resolve_left (Nat.not_lt_of_le hnew)

/-- A class whose declaration names no parent has none. -/
theorem parent_eq_none (id : ClassId) (hn : (draft.store.classAt id).parentName = none) :
    (draft.store.classAt id).parent = none := by
  by_cases hi : id.index < draft.store.classes.size
  · by_cases hold : id.index < base.classes.size
    · have hc : draft.store.classAt id = base.classAt id := h.grows.classes hold
      rw [hc] at hn ⊢
      exact (h.registered.linked.parents hold).parent_eq_none_iff.mpr hn
    · exact (h.grows.fresh (Nat.le_of_not_lt hold) hi).2.parent
  · rw [Store.classAt_of_size_le (Nat.le_of_not_lt hi)]
    rfl

end

/-! ## Parents -/

/-- The draft with links to the parents of its classes. -/
abbrev linked (draft : Draft) : Draft := draft.withParents draft.classes

theorem linked_scope (draft : Draft) (id : ScopeId) :
    (linked draft).store.scope id = draft.store.scope id := by
  have hs : (linked draft).store.scopes = draft.store.scopes := Store.linkParents_scopes
  unfold Store.scope
  rw [hs]

section

variable (h : draft.Gathers root base)

include h

theorem linked_pending :
    (linked draft).Pending root ∧ draft.shown.Relinked (linked draft).shown := by
  exact h.pending.relinked (Store.relinked_linkParents _ _ _) (linked_scope draft root)

/-- All classes have the parents that their declarations name. -/
theorem linked_parents
    (hk : ∀ id ∈ draft.classes, ∀ name ∈ (draft.store.classAt id).parentName,
      (draft.class? name).isSome = true) (hid : id.index < (linked draft).shown.classes.size) :
    (linked draft).shown.ParentLinked root ((linked draft).shown.classAt id) := by
  have hr := h.linked_pending.2
  have hl : ((linked draft).shown.scope root).classes.get? = draft.class? := by
    funext name
    rw [h.pending.class?_eq, hr.scope_root h.pending.grounded]
  have hi : id.index < draft.store.classes.size := hr.classesSize ▸ hid
  have hc : (linked draft).shown.classAt id
      = if id ∈ draft.classes ∧ id.index < draft.store.classes.size then
          (draft.store.classAt id).linkedBy draft.class?
        else draft.store.classAt id := Store.classAt_linkParents id
  by_cases hold : id.index < base.classes.size
  · have ho : id ∉ draft.classes := fun hmem =>
      Nat.not_lt_of_le (h.mem_classes_iff.mp hmem).1 hold
    have hs : draft.store.classAt id = base.classAt id := h.grows.classes hold
    rw [hc, if_neg fun hb => ho hb.1, hs]
    obtain ⟨hp, hn⟩ := (h.registered.linked.parents hold).grows h.grows
    rw [← hr.scope_root h.pending.grounded] at hp hn
    exact ⟨hp, hn⟩
  · have hmem := h.mem_classes_iff.mpr ⟨Nat.le_of_not_lt hold, hi⟩
    rw [hc, if_pos ⟨hmem, hi⟩]
    refine ⟨?_, ?_⟩
    · rw [hl]
      rfl
    · rw [hl]
      exact hk id hmem

/-! ## Shared scopes -/

theorem inside_linked (hid : id ∈ draft.classes) :
    id.index < (linked draft).store.classes.size := by
  have hi : id.index < draft.shown.classes.size := (h.mem_classes_iff.mp hid).2
  rwa [← h.linked_pending.2.classesSize] at hi

theorem shared_ne_root (hid : id ∈ draft.classes) :
    ((linked draft).store.classAt id).sharedScope ≠ root :=
  h.linked_pending.1.grounded.shared_ne_root (h.inside_linked hid)

theorem nodup_shared :
    (draft.classes.map fun id => ((linked draft).store.classAt id).sharedScope).Nodup := by
  refine (List.nodup_map_iff_inj_on h.nodup_classes).mpr fun id hid other ho heq => ?_
  exact h.linked_pending.1.grounded.apart (h.inside_linked hid) (h.inside_linked ho) heq

/-- The shared scope of a class without a parent is under the scope of its file from the start. -/
theorem shared_home (hid : id ∈ draft.classes) :
    ((linked draft).store.scope ((linked draft).store.classAt id).sharedScope).parent
      = some (.strong ((linked draft).store.classAt id).home) := by
  obtain ⟨hnew, hi⟩ := h.mem_classes_iff.mp hid
  have hu := (h.grows.fresh hnew hi).2.shared
  have hr : draft.store.Relinked (linked draft).store := Store.relinked_linkParents _ _ _
  have hne : (draft.store.classAt id).sharedScope ≠ root := h.pending.grounded.shared_ne_root hi
  have hs := linked_scope draft (draft.store.classAt id).sharedScope
  rw [hr.sharedScope, hr.home, hs, ← h.pending.scope_of_ne hne]
  exact hu

end

/-- The draft with all links. -/
abbrev completed (draft : Draft) : Draft := (linked draft).withSharedParents draft.classes

theorem run_linkShareds (h : draft.Gathers root base) :
    (draft.classes.forM linkShared).run.run (linked draft) = (.ok (), completed draft) :=
  Draft.run_linkShareds h.nodup_shared fun _ hid _ => h.shared_home hid

theorem completed_pending (h : draft.Gathers root base) :
    (completed draft).Pending root ∧ (linked draft).shown.Relinked (completed draft).shown := by
  refine h.linked_pending.1.relinked (Store.relinked_setParents fun link hl => ?_) ?_
  · obtain ⟨id, hid, rfl⟩ := List.mem_map.mp hl
    exact ⟨id, h.inside_linked hid, rfl⟩
  · refine Store.setParents_kept fun link hl => ?_
    obtain ⟨id, hid, rfl⟩ := List.mem_map.mp hl
    exact h.shared_ne_root hid

theorem completed_classes (draft : Draft) :
    (completed draft).store.classes = (linked draft).store.classes :=
  Store.setParents_classes

theorem completed_classAt (draft : Draft) (id : ClassId) :
    (completed draft).store.classAt id = (linked draft).store.classAt id :=
  Store.classAt_congr (completed_classes draft) id

section

variable (h : draft.Gathers root base)

include h

/-- The shared scope of a class of the unit has been put where it belongs. -/
theorem completed_shared_new (hid : id ∈ draft.classes) :
    (completed draft).shown.SharedLinked ((completed draft).shown.classAt id) := by
  have hpl := h.linked_pending.1.grounded.placed (h.inside_linked hid)
  have hi : ((linked draft).store.classAt id).sharedScope.index
      < (linked draft).store.scopes.size :=
    Nat.lt_of_lt_of_eq hpl.inside (Store.size_declare _ _ _)
  have hc (other : ClassId) : (completed draft).shown.classAt other
      = (linked draft).store.classAt other := completed_classAt draft other
  have hp := @Store.setParents_parent (linked draft).store
    ((linked draft).store.sharedLinks draft.classes)
    (by simpa [Store.sharedLinks, Function.comp_def] using h.nodup_shared) _
    (List.mem_map.mpr ⟨id, hid, rfl⟩) hi
  unfold Store.SharedLinked Store.sharedParent
  simp only [hc]
  rw [h.completed_pending.1.scope_of_ne (h.shared_ne_root hid)]
  exact hp

/-- The shared scope of an earlier class stays where it is. -/
theorem completed_shared_old (hold : id.index < base.classes.size) :
    (completed draft).shown.SharedLinked ((completed draft).shown.classAt id) := by
  have hg := h.registered.grounded
  have hr := h.linked_pending.2.trans h.completed_pending.2
  have hl := h.registered.linked.shared hold
  have hpl := hg.placed hold
  have hne := hg.shared_ne_root hold
  have hc : (completed draft).shown.classAt id = base.classAt id := by
    have ho : id ∉ draft.classes := fun hmem => Nat.not_lt_of_le (h.mem_classes_iff.mp hmem).1 hold
    refine (completed_classAt draft id).trans ?_
    refine (Store.classAt_linkParents id).trans ?_
    rw [if_neg fun hbt => ho hbt.1]
    exact h.grows.classes hold
  -- The scope is none of those that are put under parents.
  have hsc : (completed draft).shown.scope (base.classAt id).sharedScope
      = base.scope (base.classAt id).sharedScope := by
    rw [h.completed_pending.1.scope_of_ne hne]
    refine (Store.setParents_kept fun link hln heq => ?_).trans ?_
    · obtain ⟨other, ho, rfl⟩ := List.mem_map.mp hln
      obtain ⟨hnew, hi⟩ := h.mem_classes_iff.mp ho
      have hb := (h.grows.fresh hnew hi).1
      rw [← h.linked_pending.2.sharedScope] at hb
      have hs : ((linked draft).shown.classAt other).sharedScope
          = (base.classAt id).sharedScope := heq
      exact Nat.not_lt_of_le hb (hs ▸ hpl.inside)
    · rw [linked_scope, ← h.pending.scope_of_ne hne]
      exact h.grows.scopes hpl.inside hne
  have hp : (completed draft).shown.sharedParent (base.classAt id)
      = base.sharedParent (base.classAt id) := by
    unfold Store.sharedParent
    cases hp : (base.classAt id).parent with
    | none => rfl
    | some parent =>
      obtain ⟨hi, -⟩ := ((h.registered.linked.parents hold).parent_eq_some_iff hg).mp hp
      dsimp only
      rw [hr.sharedScope, h.grows.classes hi]
  unfold Store.SharedLinked at hl ⊢
  rw [hc, hsc, hl, hp]

/-- All classes of the completed draft are linked. -/
theorem completed_linked
    (hk : ∀ id ∈ draft.classes, ∀ name ∈ (draft.store.classAt id).parentName,
      (draft.class? name).isSome = true) : (completed draft).shown.Linked root where
  parents {id} hid := by
    have hr := h.completed_pending.2
    obtain ⟨hp, hn⟩ := h.linked_parents hk (hr.classesSize ▸ hid)
    rw [← hr.scope_root h.linked_pending.1.grounded] at hp hn
    rw [show (completed draft).shown.classAt id = (linked draft).shown.classAt id from
      completed_classAt draft id]
    exact ⟨hp, hn⟩
  shared {id} hid := by
    by_cases hold : id.index < base.classes.size
    · exact h.completed_shared_old hold
    · refine h.completed_shared_new (h.mem_classes_iff.mpr ⟨Nat.le_of_not_lt hold, ?_⟩)
      rw [h.completed_pending.2.classesSize, h.linked_pending.2.classesSize] at hid
      exact hid

/-! ## Checks -/

theorem checkCycle_ok
    (hkn : ∀ id ∈ draft.classes, ∀ name ∈ (draft.store.classAt id).parentName,
      (draft.class? name).isSome = true) (hid : id ∈ draft.classes) :
    (linked draft).checkCycle id = .ok () ↔ ∃ chain, (completed draft).shown.Lineage id chain := by
  have hk := Store.kinship h.linked_pending.1.grounded (h.linked_parents hkn)
  have hs : (linked draft).store.Kinship := ⟨hk.parents, hk.names⟩
  have hcl : (completed draft).shown.classes = (linked draft).store.classes :=
    completed_classes draft
  have hl : (∃ chain, (linked draft).store.Lineage id chain) ↔
      ∃ chain, (completed draft).shown.Lineage id chain :=
    ⟨fun ⟨chain, hc⟩ => ⟨chain, hc.of_classes_eq hcl⟩,
      fun ⟨chain, hc⟩ => ⟨chain, hc.of_classes_eq hcl.symm⟩⟩
  rw [← hl, ← hs.cyclesFrom_eq_false_iff (h.inside_linked hid)]
  unfold checkCycle
  dsimp only
  split
  · next hcy => simp [hcy]
  · next hcy => simpa using hcy

theorem checkContracts_ok (behaviour : Behaviour) :
    (completed draft).checkContracts behaviour = .ok () ↔
      ((completed draft).shown.registry root).Coherent behaviour :=
  Registry.checkContracts_ok (fun name => h.completed_pending.1.behaviour?_eq name) behaviour

theorem checkAttachments_ok (id : ClassId) :
    (completed draft).checkAttachments id = .ok () ↔
      ((completed draft).shown.registry root).Compatible
        ((completed draft).shown.allBehaviours id) := by
  have hc : (completed draft).shown.classes = (completed draft).store.classes := rfl
  rw [Store.allBehaviours_of_classes_eq hc]
  exact Registry.checkAttachments_ok (fun name => h.completed_pending.1.behaviour?_eq name) id

end

/-- What the draft has to pass after its declarations have been gathered. -/
structure Passes (draft : Draft) : Prop where
  parents : ∀ id ∈ draft.classes, ∀ name ∈ (draft.store.classAt id).parentName,
    (draft.class? name).isSome = true
  cycles : ∀ id ∈ draft.classes, (linked draft).checkCycle id = .ok ()
  contracts : ∀ behaviour ∈ draft.behaviours, (completed draft).checkContracts behaviour = .ok ()
  attachments : ∀ id ∈ draft.classes, (completed draft).checkAttachments id = .ok ()

variable (h : draft.Gathers root base)

include h

theorem registry_completed : (completed draft).shown.registry root = draft.shown.registry root :=
  (h.linked_pending.2.trans h.completed_pending.2).registry_eq h.pending.grounded

/-- Earlier classes still fit together. -/
theorem earlier_class (hl : (completed draft).shown.Linked root)
    (hold : id.index < base.classes.size) :
    (∃ chain, (completed draft).shown.Lineage id chain) ∧
      ((completed draft).shown.registry root).Compatible
        ((completed draft).shown.allBehaviours id) := by
  have hg := h.completed_pending.1.grounded
  have hw := h.registry_completed ▸ h.grows.within h.registered.grounded
  have hr := h.linked_pending.2.trans h.completed_pending.2
  have hi : id.index < (completed draft).shown.classes.size := by
    rw [hr.classesSize]
    exact Nat.lt_of_lt_of_le hold h.grows.classesSize
  have hn : ((completed draft).shown.classAt id).name = (base.classAt id).name := by
    rw [hr.name, h.grows.classes hold]
  obtain ⟨headings, hln, hcm⟩ :=
    h.registered.sound.classes (h.registered.grounded.registry_class hold)
  obtain ⟨chain, hc, rfl⟩ := Store.exists_lineage_of_registry hg hl.parents
    (hw.lineage hln) hi hn
  refine ⟨⟨chain, hc⟩, ?_⟩
  rw [Store.allBehaviours_eq hg hl.parents hi hc]
  exact hw.compatible hcm

theorem sound_of_passes (hp : Passes draft) : (draft.shown.registry root).Sound := by
  have hg := h.completed_pending.1.grounded
  have hl := h.completed_linked hp.parents
  have hr := h.linked_pending.2.trans h.completed_pending.2
  rw [← h.registry_completed, Store.registry_sound_iff hg hl.parents]
  refine ⟨fun {id} hid => ?_, fun entry he => ?_⟩
  · by_cases hold : id.index < base.classes.size
    · exact h.earlier_class hl hold
    · rw [hr.classesSize] at hid
      have hmem := h.mem_classes_iff.mpr ⟨Nat.le_of_not_lt hold, hid⟩
      exact ⟨(h.checkCycle_ok hp.parents hmem).mp (hp.cycles id hmem),
        (h.checkAttachments_ok id).mp (hp.attachments id hmem)⟩
  · rw [hr.scope_root h.pending.grounded, h.pending.scope_root, h.scope] at he
    rcases List.mem_append.mp he with hold | hnew
    · have hget := Table.get?_of_mem h.registered.grounded.behaviourNames hold
      have hw := h.registry_completed ▸ h.grows.within h.registered.grounded
      exact hw.coherent (h.registered.sound.behaviours hget)
    · obtain ⟨behaviour, hb, rfl⟩ := List.mem_map.mp hnew
      exact (h.checkContracts_ok behaviour).mp (hp.contracts behaviour hb)

/-- In a sound registry the parent of a class is known. -/
theorem parents_of_sound (hs : (draft.shown.registry root).Sound) :
    ∀ id ∈ draft.classes, ∀ name ∈ (draft.store.classAt id).parentName,
      (draft.class? name).isSome = true := by
  intro id hid name hn
  obtain ⟨-, hi⟩ := h.mem_classes_iff.mp hid
  have hc := h.pending.grounded.registry_class hi
  obtain ⟨chain, hl, -⟩ := hs.classes hc
  have hh : (draft.shown.classAt id).heading.parentName = some name := hn
  have hp : ∃ heading, (draft.shown.registry root).class? name = some heading := by
    cases hl with
    | last hk hf =>
      obtain rfl := Option.some.inj (hc.symm.trans hk)
      cases hh.symm.trans hf
    | under hk he hab =>
      obtain rfl := Option.some.inj (hc.symm.trans hk)
      obtain rfl := Option.some.inj (hh.symm.trans he)
      cases hab with
      | last hp _ => exact ⟨_, hp⟩
      | under hp _ _ => exact ⟨_, hp⟩
  obtain ⟨heading, hk⟩ := hp
  obtain ⟨parent, hget, -⟩ := Option.map_eq_some_iff.mp hk
  rw [h.pending.class?_eq]
  exact Option.isSome_iff_exists.mpr ⟨parent, hget⟩

theorem passes_of_sound (hs : (draft.shown.registry root).Sound) : Passes draft := by
  have hp := h.parents_of_sound hs
  have hg := h.completed_pending.1.grounded
  have hl := h.completed_linked hp
  rw [← h.registry_completed, Store.registry_sound_iff hg hl.parents] at hs
  obtain ⟨hc, hbh⟩ := hs
  have hr := h.linked_pending.2.trans h.completed_pending.2
  have hi {id : ClassId} (hid : id ∈ draft.classes) :
      id.index < (completed draft).shown.classes.size := by
    rw [hr.classesSize]
    exact (h.mem_classes_iff.mp hid).2
  refine ⟨hp, fun id hid => ?_, fun behaviour hb => ?_, fun id hid => ?_⟩
  · exact (h.checkCycle_ok hp hid).mpr (hc (hi hid)).1
  · refine (h.checkContracts_ok behaviour).mpr (hbh (behaviour.name, behaviour) ?_)
    rw [hr.scope_root h.pending.grounded, h.pending.scope_root]
    exact List.mem_append_right _ (List.mem_map.mpr ⟨behaviour, hb, rfl⟩)
  · exact (h.checkAttachments_ok id).mpr (hc (hi hid)).2

/-- What follows the declarations passes if everything that is known fits together, and then sets
all links. -/
theorem completes_iff :
    (∃ linked, (draft.classes.forM link).run.run draft = (.ok (), linked) ∧
      (∀ id ∈ linked.classes, linked.checkCycle id = .ok ()) ∧
      (linked.classes.forM linkShared).run.run linked = (.ok (), later) ∧
      (∀ behaviour ∈ later.behaviours, later.checkContracts behaviour = .ok ()) ∧
      ∀ id ∈ later.classes, later.checkAttachments id = .ok ()) ↔
    (draft.shown.registry root).Sound ∧ later = completed draft := by
  constructor
  · rintro ⟨between, hl, hcy, hs, hc, hac⟩
    obtain ⟨hp, rfl⟩ := (run_links_ok h.parent_eq_none).mp hl
    have hcm : later = completed draft := (Prod.mk.inj (hs.symm.trans h.run_linkShareds)).2
    subst hcm
    exact ⟨h.sound_of_passes ⟨hp, hcy, hc, hac⟩, rfl⟩
  · rintro ⟨hsn, rfl⟩
    obtain ⟨hp, hcy, hc, hac⟩ := h.passes_of_sound hsn
    exact ⟨linked draft, (run_links_ok h.parent_eq_none).mpr ⟨hp, rfl⟩, hcy,
      h.run_linkShareds, hc, hac⟩

end Gathers

/-! ## Whole units -/

section Units

variable {store : Store} {files : List Node} {gathered last : Draft}

theorem shown_start (store : Store) (root : ScopeId) : shown { store, target := root } = store :=
  Store.modifyScope_eq_self (Scope.declaring_empty _)

theorem pending_start (h : store.Grounded root) : Pending root { store, target := root } where
  target := rfl
  grounded := (shown_start store root).symm ▸ h
  fileNames := List.nodup_nil
  newFiles := by simp

/-- The files of a unit are gathered as they are declared one after the other. -/
theorem agrees_start (h : store.Grounded root) (files : List Node) :
    Agrees root (fun _ => True) { store, target := root }
      ((files.forM addFile).run.run { store, target := root })
      (store.declareUnit root files) := by
  have hag := simulates_files files _ (pending_start h) trivial
  rwa [shown_start] at hag

theorem run_files_ok (h : store.Registered root)
    (hrun : (files.forM addFile).run.run { store, target := root } = (.ok (), gathered)) :
    gathered.Gathers root store ∧ store.declareUnit root files = some gathered.shown := by
  have hag := agrees_start h.grounded files
  rw [hrun] at hag
  generalize hd : store.declareUnit root files = declared at hag
  cases hag with
  | accepted hp hs hsh _ =>
    subst hsh
    exact ⟨⟨h, hp, hs, h.grounded.grows_unit hd⟩, rfl⟩

theorem exists_run_files (h : store.Grounded root) {declared : Store}
    (hd : store.declareUnit root files = some declared) :
    ∃ gathered, (files.forM addFile).run.run { store, target := root } = (.ok (), gathered) ∧
      gathered.shown = declared := by
  have hag := agrees_start h files
  rw [hd] at hag
  generalize (files.forM addFile).run.run { store, target := root } = ended at hag
  cases hag with
  | accepted _ _ hs _ => exact ⟨_, rfl, hs⟩

theorem gather_ok_iff (h : store.Registered root) :
    (gather files).run.run { store, target := root } = (.ok (), last) ↔
      ∃ gathered, (files.forM addFile).run.run { store, target := root } = (.ok (), gathered) ∧
        (gathered.shown.registry root).Sound ∧ last = Gathers.completed gathered := by
  rw [gather_iff]
  constructor
  · rintro ⟨gathered, linked, hf, hr⟩
    obtain ⟨hg, -⟩ := run_files_ok h hf
    exact ⟨gathered, hf, hg.completes_iff.mp ⟨linked, hr⟩⟩
  · rintro ⟨gathered, hf, hs⟩
    obtain ⟨hg, -⟩ := run_files_ok h hf
    obtain ⟨linked, hr⟩ := hg.completes_iff.mpr hs
    exact ⟨gathered, linked, hf, hr⟩

/-- The completed draft leaves a Global scope that is in order. -/
theorem Gathers.registered_completed (h : gathered.Gathers root store)
    (hs : (gathered.shown.registry root).Sound) :
    (completed gathered).shown.Registered root where
  grounded := h.completed_pending.1.grounded
  linked := h.completed_linked (h.parents_of_sound hs)
  sound := by rwa [h.registry_completed]

end Units

end Draft

namespace Store

variable {root : ScopeId} {store after : Store} {files : List Node} {classes : List ClassId}

theorem addUnit_ok_iff_gather :
    store.addUnit root files = (.ok classes, after) ↔
      ∃ last, (Draft.gather files).run.run { store, target := root } = (.ok (), last) ∧
        classes = last.classes ∧ after = last.publish := by
  unfold addUnit
  generalize (Draft.gather files).run.run { store, target := root } = ended
  obtain ⟨_ | _, last⟩ := ended <;> grind

/-- The unit is registered exactly if its declarations can be declared one after the other and
leave a Global scope that is in order once it is linked. -/
theorem addUnit_ok_iff (h : store.Registered root) :
    store.addUnit root files = (.ok classes, after) ↔
      ∃ declared, store.declareUnit root files = some declared ∧ declared.Relinked after ∧
        after.Registered root ∧ after.allClasses = store.allClasses ++ classes := by
  rw [addUnit_ok_iff_gather]
  constructor
  · rintro ⟨last, hrun, rfl, rfl⟩
    obtain ⟨gathered, hf, hs, rfl⟩ := (Draft.gather_ok_iff h).mp hrun
    obtain ⟨hg, hd⟩ := Draft.run_files_ok h hf
    have hr := hg.linked_pending.2.trans hg.completed_pending.2
    rw [hg.completed_pending.1.publishes.2]
    refine ⟨_, hd, hr, hg.registered_completed hs, ?_⟩
    exact hr.allClasses_eq.trans hg.allClasses_eq
  · rintro ⟨declared, hd, hr, hrg, hc⟩
    obtain ⟨gathered, hf, rfl⟩ := Draft.exists_run_files h.grounded hd
    obtain ⟨hg, -⟩ := Draft.run_files_ok h hf
    have hs : (gathered.shown.registry root).Sound := hr.registry_eq hg.pending.grounded ▸ hrg.sound
    have hcm := hg.registered_completed hs
    have hsm := hg.linked_pending.2.trans hg.completed_pending.2
    refine ⟨_, (Draft.gather_ok_iff h).mpr ⟨gathered, hf, hs, rfl⟩, ?_, ?_⟩
    · rw [hr.allClasses_eq, hg.allClasses_eq] at hc
      exact (List.append_cancel_left hc).symm
    · rw [hg.completed_pending.1.publishes.2]
      exact (hsm.symm.trans hr).eq_of_linked hcm.grounded hcm.linked
        hrg.linked

/-- A unit that can be declared is accepted if everything that is then known fits together. -/
theorem exists_addUnit (h : store.Registered root) {declared : Store}
    (hd : store.declareUnit root files = some declared)
    (hs : (declared.registry root).Sound) :
    ∃ classes after, store.addUnit root files = (.ok classes, after) := by
  obtain ⟨gathered, hf, rfl⟩ := Draft.exists_run_files h.grounded hd
  have hrun := (Draft.gather_ok_iff h).mpr ⟨gathered, hf, hs, rfl⟩
  exact ⟨_, _, addUnit_ok_iff_gather.mpr ⟨_, hrun, rfl, rfl⟩⟩

/-- The Global scope stays in order whether a unit is accepted or refused. -/
theorem Registered.addUnit (h : store.Registered root) (files : List Node) :
    (store.addUnit root files).2.Registered root := by
  generalize hu : store.addUnit root files = answer
  obtain ⟨error | classes, after⟩ := answer
  · rw [addUnit_error hu]
    exact h
  · obtain ⟨_, -, -, hr, -⟩ := (addUnit_ok_iff h).mp hu
    exact hr

end Store

end StepScript
