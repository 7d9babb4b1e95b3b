import StepScript.Proofs.Registration.Growth
import StepScript.Proofs.Registration.Registry
set_option autoImplicit false

/-!
# Links

A linked class has the class that its declaration names as its parent, and its shared scope is
under that of the parent, or under the scope of its file (`Store.Linked`).  Links add nothing to
what the books say by name: stores that differ in links only have the same registry, and if both
are linked they are the same (`Store.Relinked`).
-/

namespace StepScript.Store

variable {root : ScopeId} {store later : Store}

/-! ## Classes by name -/

/-- What registration knows of the classes and behaviours of a Global scope. -/
def registry (store : Store) (root : ScopeId) : Registry where
  class? name := ((store.scope root).classes.get? name).map fun id => (store.classAt id).heading
  behaviour? := (store.scope root).behaviours.get?

theorem Grounded.get?_class_iff (h : store.Grounded root) {name : String} {id : ClassId} :
    (store.scope root).classes.get? name = some id ↔
      id.index < store.classes.size ∧ (store.classAt id).name = name := by
  constructor
  · intro hget
    have hmem := Table.mem_of_get? hget
    rw [h.classes] at hmem
    obtain ⟨other, ho, heq⟩ := List.mem_map.mp hmem
    obtain ⟨hn, rfl⟩ := Prod.mk.inj heq
    exact ⟨mem_allClasses.mp ho, hn⟩
  · rintro ⟨hid, rfl⟩
    refine Table.get?_of_mem h.classNames ?_
    rw [h.classes]
    exact List.mem_map.mpr ⟨id, mem_allClasses.mpr hid, rfl⟩

theorem Grounded.registry_class (h : store.Grounded root) {id : ClassId}
    (hid : id.index < store.classes.size) :
    (store.registry root).class? (store.classAt id).name = some (store.classAt id).heading := by
  have hget := h.get?_class_iff.mpr ⟨hid, rfl⟩
  simp [registry, hget]

/-! ## Linked classes -/

/-- The class has the class that its declaration names as its parent. -/
structure ParentLinked (root : ScopeId) (store : Store) (declared : Class) : Prop where
  parent : declared.parent = declared.parentName.bind (store.scope root).classes.get?
  known : ∀ name ∈ declared.parentName, ((store.scope root).classes.get? name).isSome = true

/-- The scope that the shared scope of a class belongs under. -/
def sharedParent (store : Store) (declared : Class) : ScopeId :=
  match declared.parent with
  | some parent => (store.classAt parent).sharedScope
  | none => declared.home

/-- The shared scope of the class is where it belongs. -/
def SharedLinked (store : Store) (declared : Class) : Prop :=
  (store.scope declared.sharedScope).parent = some (.strong (store.sharedParent declared))

/-- All classes are linked. -/
structure Linked (root : ScopeId) (store : Store) : Prop where
  parents : ∀ {id : ClassId}, id.index < store.classes.size →
    store.ParentLinked root (store.classAt id)
  shared : ∀ {id : ClassId}, id.index < store.classes.size → store.SharedLinked (store.classAt id)

namespace ParentLinked

variable {declared : Class}

theorem parent_eq_none_iff (h : store.ParentLinked root declared) :
    declared.parent = none ↔ declared.parentName = none := by
  rw [h.parent]
  cases hn : declared.parentName with
  | none => simp
  | some name =>
    have hk := h.known name hn
    rw [Option.isSome_iff_ne_none] at hk
    simp [hk]

theorem parent_eq_some_iff (h : store.ParentLinked root declared)
    (hg : store.Grounded root) {parent : ClassId} :
    declared.parent = some parent ↔ parent.index < store.classes.size ∧
      declared.parentName = some (store.classAt parent).name := by
  rw [h.parent]
  constructor
  · intro hpr
    obtain ⟨name, hn, hget⟩ := Option.bind_eq_some_iff.mp hpr
    obtain ⟨hi, rfl⟩ := hg.get?_class_iff.mp hget
    exact ⟨hi, hn⟩
  · rintro ⟨hi, hn⟩
    rw [hn, Option.bind_some, hg.get?_class_iff]
    exact ⟨hi, rfl⟩

end ParentLinked

/-! ## Lineages by name -/

section Lineages

variable (hg : store.Grounded root)
  (hp : ∀ {id : ClassId}, id.index < store.classes.size →
    store.ParentLinked root (store.classAt id))

include hg hp

theorem kinship : store.Kinship where
  parents hid hpr := (((hp hid).parent_eq_some_iff hg).mp hpr).1
  names hid ho hn := by
    have hl := hg.get?_class_iff.mpr ⟨hid, rfl⟩
    have hr := hg.get?_class_iff.mpr ⟨ho, rfl⟩
    rw [hn] at hl
    exact Option.some.inj (hl.symm.trans hr)

/-- The lineage of a class is known by name. -/
theorem registry_lineage {id : ClassId} {chain : List ClassId}
    (hid : id.index < store.classes.size) (hc : store.Lineage id chain) :
    (store.registry root).Lineage (store.classAt id).name
      (chain.map fun level => (store.classAt level).heading) := by
  induction hc with
  | last hnn =>
    have hf := (hp hid).parent_eq_none_iff.mp hnn
    exact .last (hg.registry_class hid) hf
  | under hl _ ih =>
    obtain ⟨hi, hn⟩ := ((hp hid).parent_eq_some_iff hg).mp hl
    exact .under (hg.registry_class hid) hn (ih hi)

/-- A lineage that is known by name is that of the class. -/
theorem exists_lineage_of_registry {name : String} {headings : List Heading}
    (hl : (store.registry root).Lineage name headings) {id : ClassId}
    (hid : id.index < store.classes.size) (hn : (store.classAt id).name = name) :
    ∃ chain, store.Lineage id chain ∧
      headings = chain.map fun level => (store.classAt level).heading := by
  induction hl generalizing id with
  | last hk hf =>
    subst hn
    obtain rfl := Option.some.inj ((hg.registry_class hid).symm.trans hk)
    exact ⟨[id], .last ((hp hid).parent_eq_none_iff.mpr hf), rfl⟩
  | under hk he _ ih =>
    subst hn
    obtain rfl := Option.some.inj ((hg.registry_class hid).symm.trans hk)
    obtain ⟨parent, hget⟩ := Option.isSome_iff_exists.mp ((hp hid).known _ he)
    obtain ⟨hi, rfl⟩ := hg.get?_class_iff.mp hget
    obtain ⟨chain, hc, rfl⟩ := ih hi rfl
    have hpr := ((hp hid).parent_eq_some_iff hg).mpr ⟨hi, he⟩
    exact ⟨id :: chain, .under hpr hc, rfl⟩

theorem allBehaviours_eq {id : ClassId} {chain : List ClassId}
    (hid : id.index < store.classes.size) (hc : store.Lineage id chain) :
    store.allBehaviours id
      = (chain.map fun level => (store.classAt level).heading).flatMap (·.attached) := by
  unfold allBehaviours
  rw [(kinship hg hp).hierarchy_eq hc hid, List.flatMap_map]
  rfl

/-- Classes and behaviours fit together exactly if every class has a lineage along which the
behaviours go together, and the contracts of every behaviour are coherent. -/
theorem registry_sound_iff :
    (store.registry root).Sound ↔
      (∀ {id : ClassId}, id.index < store.classes.size →
        (∃ chain, store.Lineage id chain) ∧
          (store.registry root).Compatible (store.allBehaviours id)) ∧
      ∀ entry ∈ (store.scope root).behaviours, (store.registry root).Coherent entry.2 := by
  constructor
  · intro hs
    refine ⟨fun {id} hid => ?_, fun entry he => ?_⟩
    · obtain ⟨headings, hl, hcm⟩ := hs.classes (hg.registry_class hid)
      obtain ⟨chain, hc, rfl⟩ := exists_lineage_of_registry hg hp hl hid rfl
      refine ⟨⟨chain, hc⟩, ?_⟩
      rw [allBehaviours_eq hg hp hid hc]
      exact hcm
    · exact hs.behaviours (Table.get?_of_mem hg.behaviourNames he)
  · rintro ⟨hcl, hb⟩
    refine ⟨fun {name heading} hk => ?_, fun hk => ?_⟩
    · obtain ⟨id, hget, rfl⟩ := Option.map_eq_some_iff.mp hk
      obtain ⟨hid, rfl⟩ := hg.get?_class_iff.mp hget
      obtain ⟨⟨chain, hc⟩, hcm⟩ := hcl hid
      rw [allBehaviours_eq hg hp hid hc] at hcm
      exact ⟨_, registry_lineage hg hp hid hc, hcm⟩
    · exact hb _ (Table.mem_of_get? hk)

end Lineages

end StepScript.Store
