import Mathlib.Data.List.Nodup
import Mathlib.Data.List.Perm.Subperm
import StepScript.Proofs.Store.Access
import StepScript.Registration.Draft
set_option autoImplicit false

/-!
# Lineages

The lineage of a class is the class followed by its ancestors, up to one that has no parent
(`Store.Lineage`).  A class has at most one, and no class comes twice in it.  If classes of
different places have different names (`Store.Kinship`), the bound and the names seen never cut
a lineage short: the hierarchy of a class is its lineage (`Store.Kinship.hierarchy_eq`), and the
search for cycles finds none exactly if there is a lineage
(`Store.Kinship.cyclesFrom_eq_false_iff`).
-/

namespace StepScript.Store

/-- A class followed by its ancestors, up to the last one. -/
inductive Lineage (store : Store) : ClassId → List ClassId → Prop where
  | last {id : ClassId} (parent : (store.classAt id).parent = none) : Lineage store id [id]
  | under {id parent : ClassId} {chain : List ClassId}
      (linked : (store.classAt id).parent = some parent) (above : Lineage store parent chain) :
      Lineage store id (id :: chain)

variable {store : Store}

namespace Lineage

variable {id other : ClassId} {chain : List ClassId}

section

variable (h : store.Lineage id chain)

include h

theorem eq_cons : ∃ above, chain = id :: above := by
  cases h with
  | last _ => exact ⟨[], rfl⟩
  | under _ _ => exact ⟨_, rfl⟩

theorem unique {chain' : List ClassId} (h' : store.Lineage id chain') : chain = chain' := by
  induction h generalizing chain' with
  | last hn =>
    cases h' with
    | last _ => rfl
    | under hl _ => cases hn.symm.trans hl
  | under hl _ ih =>
    cases h' with
    | last hn => cases hn.symm.trans hl
    | under hl' hab =>
      obtain rfl := Option.some.inj (hl.symm.trans hl')
      rw [ih hab]

/-- The lineage of an ancestor is the rest of the way. -/
theorem of_mem (ho : other ∈ chain) : ∃ rest, store.Lineage other rest ∧ rest <:+ chain := by
  induction h with
  | @last id hn =>
    obtain rfl := List.mem_singleton.mp ho
    exact ⟨[other], .last hn, List.suffix_refl _⟩
  | @under id parent chain hl hab ih =>
    rcases List.mem_cons.mp ho with rfl | hmem
    · exact ⟨_, .under hl hab, List.suffix_refl _⟩
    · obtain ⟨rest, hr, hs⟩ := ih hmem
      exact ⟨rest, hr, hs.trans (List.suffix_cons _ _)⟩

/-- No class comes twice. -/
theorem nodup : chain.Nodup := by
  induction h with
  | last _ => exact List.nodup_singleton _
  | @under id parent chain hln hab ih =>
    refine List.nodup_cons.mpr ⟨fun hmem => ?_, ih⟩
    -- A class above itself would have two lineages of different lengths.
    obtain ⟨rest, hr, hsf⟩ := hab.of_mem hmem
    have hs := hr.unique (.under hln hab)
    have hl := hsf.length_le
    rw [hs, List.length_cons] at hl
    exact absurd hl (Nat.not_succ_le_self _)

/-- The way up that is bounded, and stops at names that it has seen, goes all the way if it is
long enough and meets new names only. -/
theorem ancestorsFrom_eq {bound : Nat} {seen : List String} (hb : chain.length ≤ bound + 1)
    (hs : ∀ level ∈ chain.tail, (store.classAt level).name ∉ seen)
    (hn : (chain.tail.map fun level => (store.classAt level).name).Nodup) :
    store.ancestorsFrom bound seen id = chain := by
  induction h generalizing bound seen with
  | last hnn =>
    cases bound with
    | zero => rfl
    | succ bound => simp [ancestorsFrom, hnn]
  | @under id parent chain hln hab ih =>
    obtain ⟨above, rfl⟩ := hab.eq_cons
    cases bound with
    | zero => simp at hb
    | succ bound =>
      obtain ⟨hp, hab⟩ := List.nodup_cons.mp hn
      have hnew : (store.classAt parent).name ∉ seen := hs parent List.mem_cons_self
      unfold ancestorsFrom
      simp only [hln]
      rw [if_neg (by simpa using hnew), ih (Nat.le_of_succ_le_succ hb) ?_ hab]
      intro level hl
      refine List.not_mem_cons_of_ne_of_not_mem (fun heq => hp ?_) ?_
      · exact List.mem_map.mpr ⟨level, hl, heq⟩
      · exact hs level (List.mem_cons_of_mem _ hl)

theorem cyclesFrom_eq_false {start : ClassId} {bound : Nat} {seen : List String}
    (hb : chain.length ≤ bound) (hst : start ∉ chain)
    (hs : ∀ level ∈ chain, (store.classAt level).name ∉ seen)
    (hn : (chain.map fun level => (store.classAt level).name).Nodup) :
    Draft.cyclesFrom store start bound seen (some id) = false := by
  induction h generalizing bound seen with
  | @last id hnn =>
    cases bound with
    | zero => simp at hb
    | succ bound =>
      have hne : id ≠ start := fun heq => hst (by simp [heq])
      have hnew := hs id (by simp)
      unfold Draft.cyclesFrom
      simp [hne, hnew, hnn, Draft.cyclesFrom]
  | @under id parent chain hln hab ih =>
    cases bound with
    | zero => simp at hb
    | succ bound =>
      obtain ⟨hid, hab⟩ := List.nodup_cons.mp hn
      have hne : id ≠ start := fun heq => hst (by simp [heq])
      have hnew := hs id List.mem_cons_self
      unfold Draft.cyclesFrom
      simp only [hne, hnew, hln, decide_false, List.contains_eq_mem, Bool.or_self,
        Bool.false_eq_true, if_false]
      refine ih (Nat.le_of_succ_le_succ hb)
        (fun hmem => hst (List.mem_cons_of_mem _ hmem)) (fun level hl => ?_) hab
      refine List.not_mem_cons_of_ne_of_not_mem (fun heq => hid ?_) ?_
      · exact List.mem_map.mpr ⟨level, hl, heq⟩
      · exact hs level (List.mem_cons_of_mem _ hl)

end

theorem of_classes_eq {later : Store} (hc : later.classes = store.classes)
    (h : store.Lineage id chain) : later.Lineage id chain := by
  induction h with
  | last hn => exact .last (by rw [classAt_congr hc, hn])
  | under hl _ ih => exact .under (by rw [classAt_congr hc, hl]) ih

end Lineage

/-- Only classes matter for hierarchies. -/
theorem hierarchy_congr {later : Store} (hc : later.classes = store.classes) (id : ClassId) :
    later.hierarchy id = store.hierarchy id := by
  have han (bound : Nat) (seen : List String) (id : ClassId) :
      later.ancestorsFrom bound seen id = store.ancestorsFrom bound seen id := by
    induction bound generalizing seen id with
    | zero => rfl
    | succ bound ih =>
      unfold ancestorsFrom
      simp only [classAt_congr hc, ih]
  unfold hierarchy
  rw [classAt_congr hc, han, hc]

theorem allBehaviours_of_classes_eq {later : Store} (hc : later.classes = store.classes)
    (id : ClassId) : later.allBehaviours id = store.allBehaviours id := by
  unfold allBehaviours
  simp only [classAt_congr hc, hierarchy_congr hc]

/-- A search that finds no cycle has come to an end. -/
theorem exists_lineage_of_cyclesFrom {start id : ClassId} {bound : Nat} {seen : List String}
    (h : Draft.cyclesFrom store start bound seen (some id) = false) :
    ∃ chain, store.Lineage id chain := by
  induction bound generalizing seen id with
  | zero => cases h
  | succ bound ih =>
    unfold Draft.cyclesFrom at h
    dsimp only at h
    split at h
    · cases h
    · cases hp : (store.classAt id).parent with
      | none => exact ⟨_, .last hp⟩
      | some parent =>
        rw [hp] at h
        obtain ⟨chain, hc⟩ := ih h
        exact ⟨_, .under hp hc⟩

/-! ## Classes with names of their own -/

/-- Parents are classes of the store, and classes of different places have different names. -/
structure Kinship (store : Store) : Prop where
  parents : ∀ {id parent : ClassId}, id.index < store.classes.size →
    (store.classAt id).parent = some parent → parent.index < store.classes.size
  names : ∀ {id other : ClassId}, id.index < store.classes.size →
    other.index < store.classes.size → (store.classAt id).name = (store.classAt other).name →
    id = other

namespace Kinship

variable {id : ClassId} {chain : List ClassId}

theorem inside (h : store.Kinship) (hc : store.Lineage id chain)
    (hid : id.index < store.classes.size) :
    ∀ level ∈ chain, level.index < store.classes.size := by
  induction hc with
  | last _ => simpa using hid
  | under hl _ ih => exact List.forall_mem_cons.mpr ⟨hid, ih (h.parents hid hl)⟩

theorem nodup_names (h : store.Kinship) (hc : store.Lineage id chain)
    (hid : id.index < store.classes.size) :
    (chain.map fun level => (store.classAt level).name).Nodup := by
  have hi := h.inside hc hid
  refine (List.nodup_map_iff_inj_on hc.nodup).mpr fun level hl other ho hs => ?_
  exact h.names (hi level hl) (hi other ho) hs

theorem length_le (h : store.Kinship) (hc : store.Lineage id chain)
    (hid : id.index < store.classes.size) : chain.length ≤ store.classes.size := by
  have hin := h.inside hc hid
  have hn : (chain.map (·.index)).Nodup := by
    refine (List.nodup_map_iff_inj_on hc.nodup).mpr fun level _ other _ hs => ?_
    cases level
    cases other
    exact congrArg ClassId.mk hs
  have hsb : chain.map (·.index) ⊆ List.range store.classes.size := by
    intro index hi
    obtain ⟨level, hlv, rfl⟩ := List.mem_map.mp hi
    exact List.mem_range.mpr (hin level hlv)
  have hl := (hn.subperm hsb).length_le
  rwa [List.length_map, List.length_range] at hl

/-- The hierarchy of a class is its whole lineage. -/
theorem hierarchy_eq (h : store.Kinship) (hc : store.Lineage id chain)
    (hid : id.index < store.classes.size) : store.hierarchy id = chain := by
  have hn := h.nodup_names hc hid
  have hl := h.length_le hc hid
  obtain ⟨above, rfl⟩ := hc.eq_cons
  obtain ⟨hs, hab⟩ := List.nodup_cons.mp hn
  refine hc.ancestorsFrom_eq (Nat.le_succ_of_le hl) (fun level hlv => ?_) hab
  rw [List.mem_singleton]
  exact fun heq => hs (List.mem_map.mpr ⟨level, hlv, heq⟩)

/-- There is no cycle above a class exactly if the class has a lineage. -/
theorem cyclesFrom_eq_false_iff (h : store.Kinship) (hid : id.index < store.classes.size) :
    Draft.cyclesFrom store id store.classes.size [] (store.classAt id).parent = false ↔
      ∃ chain, store.Lineage id chain := by
  constructor
  · intro hcy
    cases hp : (store.classAt id).parent with
    | none => exact ⟨_, .last hp⟩
    | some parent =>
      rw [hp] at hcy
      obtain ⟨chain, hc⟩ := exists_lineage_of_cyclesFrom hcy
      exact ⟨_, .under hp hc⟩
  · rintro ⟨chain, hc⟩
    have hn := hc.nodup
    cases hc with
    | last hnn =>
      rw [hnn]
      unfold Draft.cyclesFrom
      rfl
    | under hl hab =>
      have hp := h.parents hid hl
      rw [hl]
      refine hab.cyclesFrom_eq_false (h.length_le hab hp)
        (List.nodup_cons.mp hn).1 (by simp) (h.nodup_names hab hp)

end Kinship

end StepScript.Store
