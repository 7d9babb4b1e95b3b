import StepScript.Proofs.Registration.Relinking
import StepScript.Proofs.Registration.Shown
set_option autoImplicit false

/-!
# Completing a draft

Once the declarations of a unit have been gathered, the classes of the draft are linked and
checked.  `Draft.gather_iff` says what the draft has to pass and what becomes of it.
-/

namespace StepScript

/-- The class with the parent that its declaration names. -/
def Class.linkedBy (lookup : String → Option ClassId) (declared : Class) : Class :=
  { declared with parent := declared.parentName.bind lookup }

theorem Class.linkedBy_eq_self {lookup : String → Option ClassId} {declared : Class}
    (h : declared.parentName.bind lookup = declared.parent) :
    declared.linkedBy lookup = declared := by
  unfold Class.linkedBy
  rw [h]

namespace Store

variable {store : Store} {lookup : String → Option ClassId} {ids : List ClassId}

/-- Link classes to their parents. -/
def linkParents (store : Store) (lookup : String → Option ClassId) (ids : List ClassId) : Store :=
  ids.foldl (fun store id => store.modifyClass id (·.linkedBy lookup)) store

/-- Put scopes under parents. -/
def setParents (store : Store) (links : List (ScopeId × ScopeId)) : Store :=
  links.foldl (fun store link => store.setParent link.1 link.2) store

/-- The places where the shared scopes of classes belong. -/
def sharedLinks (store : Store) (ids : List ClassId) : List (ScopeId × ScopeId) :=
  ids.map fun id => ((store.classAt id).sharedScope, store.sharedParent (store.classAt id))

theorem size_linkParents : (store.linkParents lookup ids).classes.size = store.classes.size := by
  unfold linkParents
  induction ids generalizing store with
  | nil => rfl
  | cons id rest ih =>
    rw [List.foldl_cons, ih]
    simp [modifyClass]

theorem linkParents_scopes : (store.linkParents lookup ids).scopes = store.scopes := by
  unfold linkParents
  induction ids generalizing store with
  | nil => rfl
  | cons id rest ih =>
    rw [List.foldl_cons, ih]
    rfl

theorem linkParents_rest : (store.linkParents lookup ids).objects = store.objects ∧
    (store.linkParents lookup ids).released = store.released := by
  unfold linkParents
  induction ids generalizing store with
  | nil => exact ⟨rfl, rfl⟩
  | cons id rest ih =>
    rw [List.foldl_cons]
    exact ih

theorem classAt_linkParents (id : ClassId) :
    (store.linkParents lookup ids).classAt id
      = if id ∈ ids ∧ id.index < store.classes.size then (store.classAt id).linkedBy lookup
        else store.classAt id := by
  unfold linkParents
  induction ids generalizing store with
  | nil => simp
  | cons first rest ih =>
    rw [List.foldl_cons, ih, classAt_modifyClass]
    have hs : (store.modifyClass first (·.linkedBy lookup)).classes.size
        = store.classes.size := by simp [modifyClass]
    rw [hs]
    by_cases hi : id.index < store.classes.size
    · by_cases hf : id = first
      · subst hf
        by_cases hr : id ∈ rest
        · simp [hi, hr, Class.linkedBy]
        · simp [hi, hr]
      · simp [hi, hf]
    · have hnot : ¬ (id = first ∧ first.index < store.classes.size) := by
        rintro ⟨rfl, hf⟩
        exact hi hf
      simp [hi, hnot]

variable {links : List (ScopeId × ScopeId)}

theorem setParents_classes : (store.setParents links).classes = store.classes := by
  unfold setParents
  induction links generalizing store with
  | nil => rfl
  | cons link rest ih =>
    rw [List.foldl_cons, ih]
    rfl

theorem setParents_rest : (store.setParents links).objects = store.objects ∧
    (store.setParents links).released = store.released ∧
    (store.setParents links).scopes.size = store.scopes.size := by
  unfold setParents
  induction links generalizing store with
  | nil => exact ⟨rfl, rfl, rfl⟩
  | cons link rest ih =>
    rw [List.foldl_cons]
    obtain ⟨ho, hr, hs⟩ := @ih (store.setParent link.1 link.2)
    exact ⟨ho, hr, hs.trans (size_modifyScope _ _ _)⟩

/-- Nothing but the parent of a scope changes. -/
theorem scope_setParents (id : ScopeId) :
    (store.setParents links).scope id
      = { store.scope id with parent := ((store.setParents links).scope id).parent } := by
  unfold setParents
  induction links generalizing store with
  | nil => rfl
  | cons link rest ih =>
    rw [List.foldl_cons, ih]
    unfold setParent
    rw [scope_modifyScope]
    split
    · next heq => rw [heq.1]
    · rfl

theorem setParents_kept {id : ScopeId} (h : ∀ link ∈ links, link.1 ≠ id) :
    (store.setParents links).scope id = store.scope id := by
  unfold setParents
  induction links generalizing store with
  | nil => rfl
  | cons link rest ih =>
    obtain ⟨hl, hr⟩ := List.forall_mem_cons.mp h
    rw [List.foldl_cons, ih hr]
    exact scope_modifyScope_of_ne hl.symm _

/-- A scope is under the parent that it has been put under. -/
theorem setParents_parent (hn : (links.map (·.1)).Nodup) {link : ScopeId × ScopeId}
    (hl : link ∈ links) (hi : link.1.index < store.scopes.size) :
    ((store.setParents links).scope link.1).parent = some (.strong link.2) := by
  induction links generalizing store with
  | nil => cases hl
  | cons first rest ih =>
    obtain ⟨hf, hr⟩ := List.nodup_cons.mp hn
    change (((store.setParent first.1 first.2).setParents rest).scope link.1).parent = _
    rcases List.mem_cons.mp hl with rfl | hmem
    · rw [setParents_kept, setParent, scope_modifyScope_self hi]
      intro other ho heq
      exact hf (List.mem_map.mpr ⟨other, ho, heq⟩)
    · refine ih hr hmem ?_
      rw [setParent, size_modifyScope]
      exact hi

end Store

namespace Draft

variable {draft later : Draft}

/-! ## Linking one class after the other -/

/-- The draft with links to the parents of its classes. -/
def withParents (draft : Draft) (ids : List ClassId) : Draft :=
  { draft with store := draft.store.linkParents draft.class? ids }

/-- The draft with the shared scopes of its classes where they belong. -/
def withSharedParents (draft : Draft) (ids : List ClassId) : Draft :=
  { draft with store := draft.store.setParents (draft.store.sharedLinks ids) }

/-- Links do not change names. -/
theorem class?_linked (draft : Draft) (lookup : String → Option ClassId) (ids : List ClassId) :
    Draft.class? { draft with store := draft.store.linkParents lookup ids } = draft.class? := by
  have hn (id : ClassId) : ((draft.store.linkParents lookup ids).classAt id).name
      = (draft.store.classAt id).name := by
    rw [Store.classAt_linkParents]
    split <;> rfl
  have hs : (draft.store.linkParents lookup ids).scope draft.target
      = draft.store.scope draft.target := by
    unfold Store.scope
    rw [Store.linkParents_scopes]
  funext name
  unfold class?
  simp only [hn, hs]

/-- Work that goes on with what the draft holds. -/
theorem run_get_bind {α : Type} (next : Draft → Drafting α) :
    (get >>= next).run.run draft = (next draft).run.run draft := rfl

/-- A class is linked to the parent that its declaration names, which has to be known. -/
theorem run_link_ok {id : ClassId}
    (hnn : (draft.store.classAt id).parentName = none → (draft.store.classAt id).parent = none) :
    (link id).run.run draft = (.ok (), later) ↔
      (∀ name ∈ (draft.store.classAt id).parentName, (draft.class? name).isSome = true) ∧
        later = draft.withParents [id] := by
  have hl : draft.withParents [id]
      = { draft with store := draft.store.modifyClass id (·.linkedBy draft.class?) } := rfl
  unfold link
  rw [run_get_bind, hl]
  dsimp only
  cases hn : (draft.store.classAt id).parentName with
  | none =>
    have hs : draft.store.modifyClass id (·.linkedBy draft.class?) = draft.store := by
      refine Store.modifyClass_eq_self (Class.linkedBy_eq_self ?_)
      rw [hn, hnn hn]
      rfl
    rw [hs]
    constructor
    · intro hrun
      exact ⟨by simp, (Prod.mk.inj hrun).2.symm⟩
    · rintro ⟨-, rfl⟩
      rfl
  | some name =>
    dsimp only
    cases hp : draft.class? name with
    | none =>
      have hu : ¬ ∀ other ∈ some name, (draft.class? other).isSome = true := by
        simp [hp]
      dsimp only
      constructor
      · intro hrun
        split at hrun <;> cases hrun
      · exact fun hk => absurd hk.1 hu
    | some parent =>
      have hs : draft.withParent id parent
          = { draft with store := draft.store.modifyClass id (·.linkedBy draft.class?) } := by
        unfold withParent
        refine congrArg (fun store => { draft with store }) (Store.modifyClass_congr ?_)
        unfold Class.linkedBy
        rw [hn, Option.bind_some, hp]
      rw [← hs]
      constructor
      · intro hrun
        exact ⟨by simp [hp], (Prod.mk.inj hrun).2.symm⟩
      · rintro ⟨-, rfl⟩
        rfl

theorem run_links_ok {ids : List ClassId}
    (hn : ∀ id, (draft.store.classAt id).parentName = none →
      (draft.store.classAt id).parent = none) :
    (ids.forM link).run.run draft = (.ok (), later) ↔
      (∀ id ∈ ids, ∀ name ∈ (draft.store.classAt id).parentName,
        (draft.class? name).isSome = true) ∧ later = draft.withParents ids := by
  induction ids generalizing draft with
  | nil =>
    constructor
    · intro hrun
      exact ⟨by simp, (Prod.mk.inj hrun).2.symm⟩
    · rintro ⟨-, rfl⟩
      rfl
  | cons id rest ih =>
    have hca (other : ClassId) := @Store.classAt_linkParents draft.store draft.class? [id] other
    have hnm (other : ClassId) : ((draft.withParents [id]).store.classAt other).parentName
        = (draft.store.classAt other).parentName := by
      refine (congrArg Class.parentName (hca other)).trans ?_
      split <;> rfl
    have hn' (other : ClassId)
        (h : ((draft.withParents [id]).store.classAt other).parentName = none) :
        ((draft.withParents [id]).store.classAt other).parent = none := by
      rw [hnm] at h
      refine (congrArg Class.parent (hca other)).trans ?_
      split
      · unfold Class.linkedBy
        rw [h]
        rfl
      · exact hn other h
    have hc : (draft.withParents [id]).class? = draft.class? := class?_linked draft _ _
    have hw : (draft.withParents [id]).withParents rest = draft.withParents (id :: rest) := by
      unfold withParents at hc ⊢
      rw [hc]
      rfl
    rw [run_cons_forM_ok, List.forall_mem_cons]
    constructor
    · rintro ⟨between, hf, hr⟩
      obtain ⟨hk, rfl⟩ := (run_link_ok (hn id)).mp hf
      obtain ⟨ho, rfl⟩ := (ih hn').mp hr
      simp only [hnm, hc] at ho
      exact ⟨⟨hk, ho⟩, hw⟩
    · rintro ⟨⟨hk, ho⟩, rfl⟩
      refine ⟨_, (run_link_ok (hn id)).mpr ⟨hk, rfl⟩, (ih hn').mpr ⟨?_, hw.symm⟩⟩
      simpa only [hnm, hc] using ho

theorem run_linkShared {id : ClassId}
    (hh : (draft.store.classAt id).parent = none →
      (draft.store.scope (draft.store.classAt id).sharedScope).parent
        = some (.strong (draft.store.classAt id).home)) :
    (linkShared id).run.run draft = (.ok (), draft.withSharedParents [id]) := by
  have hl : draft.withSharedParents [id] = { draft with
          store := draft.store.setParent (draft.store.classAt id).sharedScope
            (draft.store.sharedParent (draft.store.classAt id)) } := rfl
  unfold linkShared
  rw [run_get_bind, hl]
  unfold Store.sharedParent
  cases hp : (draft.store.classAt id).parent with
  | some parent => rfl
  | none =>
    have hs : draft.store.setParent (draft.store.classAt id).sharedScope
        (draft.store.classAt id).home = draft.store :=
      Store.modifyScope_eq_self (by rw [← hh hp])
    dsimp only
    rw [hs]
    rfl

theorem run_linkShareds {ids : List ClassId}
    (hn : (ids.map fun id => (draft.store.classAt id).sharedScope).Nodup)
    (hh : ∀ id ∈ ids, (draft.store.classAt id).parent = none →
      (draft.store.scope (draft.store.classAt id).sharedScope).parent
        = some (.strong (draft.store.classAt id).home)) :
    (ids.forM linkShared).run.run draft = (.ok (), draft.withSharedParents ids) := by
  induction ids generalizing draft with
  | nil => rfl
  | cons id rest ih =>
    obtain ⟨hf, hr⟩ := List.forall_mem_cons.mp hh
    obtain ⟨hnew, hap⟩ := List.nodup_cons.mp hn
    have hca (other : ClassId) :
        (draft.withSharedParents [id]).store.classAt other = draft.store.classAt other := rfl
    refine run_cons_forM_ok.mpr
      ⟨_, run_linkShared hf, ih hap fun other ho hp => ?_⟩
    -- The shared scope of another class has not been touched.
    have hne : (draft.store.classAt other).sharedScope
        ≠ (draft.store.classAt id).sharedScope := by
      intro heq
      exact hnew (List.mem_map.mpr ⟨other, ho, heq⟩)
    refine Eq.trans ?_ (hr other ho hp)
    exact congrArg Scope.parent (Store.scope_modifyScope_of_ne hne _)

/-! ## Checks -/

theorem run_checks_ok {α : Type} {items : List α} {check : α → Except Error Unit} :
    (items.forM fun item => liftExcept (check item)).run.run draft = (.ok (), later) ↔
      (∀ item ∈ items, check item = .ok ()) ∧ later = draft := by
  induction items with
  | nil =>
    constructor
    · intro hrun
      exact ⟨by simp, (Prod.mk.inj hrun).2.symm⟩
    · rintro ⟨-, rfl⟩
      rfl
  | cons item rest ih =>
    rw [run_cons_forM_ok, List.forall_mem_cons]
    constructor
    · rintro ⟨between, hf, hr⟩
      obtain ⟨hi, rfl⟩ := run_liftExcept_ok.mp hf
      obtain ⟨ho, rfl⟩ := ih.mp hr
      exact ⟨⟨hi, ho⟩, rfl⟩
    · rintro ⟨⟨hi, ho⟩, rfl⟩
      exact ⟨_, run_liftExcept_ok.mpr ⟨hi, rfl⟩, ih.mpr ⟨ho, rfl⟩⟩

/-- A unit is gathered in stages: its declarations, the links of its classes, a check for cycles,
the links of shared scopes, and the checks of contracts and attachments. -/
theorem gather_iff {files : List Node} {last : Draft} :
    (gather files).run.run draft = (.ok (), last) ↔
      ∃ gathered linked, (files.forM addFile).run.run draft = (.ok (), gathered) ∧
        (gathered.classes.forM link).run.run gathered = (.ok (), linked) ∧
        (∀ id ∈ linked.classes, linked.checkCycle id = .ok ()) ∧
        (linked.classes.forM linkShared).run.run linked = (.ok (), last) ∧
        (∀ behaviour ∈ last.behaviours, last.checkContracts behaviour = .ok ()) ∧
        ∀ id ∈ last.classes, last.checkAttachments id = .ok () := by
  unfold gather
  constructor
  · intro hrun
    obtain ⟨_, gathered, hg, hrun⟩ := run_bind_ok.mp hrun
    rw [run_get_bind] at hrun
    obtain ⟨_, linked, hl, hrun⟩ := run_bind_ok.mp hrun
    rw [run_get_bind] at hrun
    obtain ⟨_, between, hcy, hrun⟩ := run_bind_ok.mp hrun
    obtain ⟨hcy, rfl⟩ := run_checks_ok.mp hcy
    obtain ⟨_, shared, hs, hrun⟩ := run_bind_ok.mp hrun
    rw [run_get_bind] at hrun
    obtain ⟨_, between, hc, hrun⟩ := run_bind_ok.mp hrun
    obtain ⟨hc, rfl⟩ := run_checks_ok.mp hc
    obtain ⟨hac, rfl⟩ := run_checks_ok.mp hrun
    exact ⟨gathered, _, hg, hl, hcy, hs, hc, hac⟩
  · rintro ⟨gathered, linked, hg, hl, hcy, hs, hc, hac⟩
    refine run_bind_ok.mpr ⟨(), gathered, hg, ?_⟩
    rw [run_get_bind]
    refine run_bind_ok.mpr ⟨(), linked, hl, ?_⟩
    rw [run_get_bind]
    refine run_bind_ok.mpr ⟨(), linked, run_checks_ok.mpr ⟨hcy, rfl⟩, ?_⟩
    refine run_bind_ok.mpr ⟨(), last, hs, ?_⟩
    rw [run_get_bind]
    refine run_bind_ok.mpr ⟨(), last, run_checks_ok.mpr ⟨hc, rfl⟩, ?_⟩
    exact run_checks_ok.mpr ⟨hac, rfl⟩

end Draft

end StepScript
