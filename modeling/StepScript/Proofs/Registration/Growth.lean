import StepScript.Proofs.Registration.Grounded
set_option autoImplicit false

/-!
# What declaring a unit adds

Declaring the files of a unit leaves every class and every scope but the Global one as it was.
The Global scope gets entries behind those that it had, and the new classes are not linked yet
(`Store.Grows`).
-/

namespace StepScript.Store

variable {root : ScopeId} {store later last : Store}

/-- A store with more files, behaviours, functions and classes. -/
structure Grows (root : ScopeId) (store later : Store) : Prop where
  objects : later.objects = store.objects
  released : later.released = store.released
  size : store.scopes.size ≤ later.scopes.size
  classesSize : store.classes.size ≤ later.classes.size
  entries : ∃ entries, later.scope root = (store.scope root).declaring entries
  scopes : ∀ {id : ScopeId}, id.index < store.scopes.size → id ≠ root →
    later.scope id = store.scope id
  classes : ∀ {id : ClassId}, id.index < store.classes.size → later.classAt id = store.classAt id
  fresh : ∀ {id : ClassId}, store.classes.size ≤ id.index → id.index < later.classes.size →
    store.scopes.size ≤ (later.classAt id).sharedScope.index ∧
      later.UnlinkedClass (later.classAt id)

namespace Grows

theorem refl (root : ScopeId) (store : Store) : store.Grows root store where
  objects := rfl
  released := rfl
  size := Nat.le_refl _
  classesSize := Nat.le_refl _
  entries := ⟨{}, (Scope.declaring_empty _).symm⟩
  scopes _ _ := rfl
  classes _ := rfl
  fresh hnew hid := absurd hid (Nat.not_lt_of_le hnew)

variable (h : store.Grows root later)

include h

/-- The classes that are new in between stay unlinked, because their shared scopes are not
touched again. -/
theorem trans (hg : later.Grounded root) (hn : later.Grows root last) : store.Grows root last where
  objects := hn.objects.trans h.objects
  released := hn.released.trans h.released
  size := Nat.le_trans h.size hn.size
  classesSize := Nat.le_trans h.classesSize hn.classesSize
  entries := by
    obtain ⟨entries, he⟩ := h.entries
    obtain ⟨more, hm⟩ := hn.entries
    exact ⟨entries.append more, by rw [hm, he, Scope.declaring_declaring]⟩
  scopes hid hne := (hn.scopes (Nat.lt_of_lt_of_le hid h.size) hne).trans (h.scopes hid hne)
  classes hid := (hn.classes (Nat.lt_of_lt_of_le hid h.classesSize)).trans (h.classes hid)
  fresh {id} hnew hid := by
    by_cases hl : id.index < later.classes.size
    · obtain ⟨hs, hu⟩ := h.fresh hnew hl
      have hp := hg.placed hl
      rw [hn.classes hl]
      refine ⟨hs, hu.parent, ?_⟩
      rw [hn.scopes hp.inside (hg.shared_ne_root hl)]
      exact hu.shared
    · obtain ⟨hs, hu⟩ := hn.fresh (Nat.le_of_not_lt hl) hid
      exact ⟨Nat.le_trans h.size hs, hu⟩

/-! What is known stays known. -/

theorem get?_class {name : String} {id : ClassId}
    (hget : (store.scope root).classes.get? name = some id) :
    (later.scope root).classes.get? name = some id := by
  obtain ⟨entries, he⟩ := h.entries
  rw [he]
  refine (Table.get?_append _ _ _).trans ?_
  rw [hget]
  rfl

theorem get?_behaviour {name : String} {behaviour : Behaviour}
    (hget : (store.scope root).behaviours.get? name = some behaviour) :
    (later.scope root).behaviours.get? name = some behaviour := by
  obtain ⟨entries, he⟩ := h.entries
  rw [he]
  refine (Table.get?_append _ _ _).trans ?_
  rw [hget]
  rfl

theorem get?_function {name : String} {function : Function}
    (hget : (store.scope root).functions.get? name = some function) :
    (later.scope root).functions.get? name = some function := by
  obtain ⟨entries, he⟩ := h.entries
  rw [he]
  refine (Table.get?_append _ _ _).trans ?_
  rw [hget]
  rfl

theorem fileOf?_eq {name : String} {file : ScopeId} (hf : store.fileOf? root name = some file) :
    later.fileOf? root name = some file := by
  obtain ⟨entries, he⟩ := h.entries
  unfold fileOf? at hf ⊢
  rw [he]
  obtain ⟨state, hs, hf⟩ := Option.bind_eq_some_iff.mp hf
  rw [Scope.declaring, hs]
  refine (Table.get?_append _ _ _).trans ?_
  rw [hf]
  rfl

end Grows

/-! ## Single declarations -/

theorem Prepares.grows {made : Store} {entries : Entries} (h : store.Prepares root made entries)
    (hg : store.Grounded root) : store.Grows root (made.declare root entries) where
  objects := h.objects
  released := h.released
  size := by
    rw [size_declare]
    exact h.size
  classesSize := by
    have hl := congrArg List.length h.listed
    simp only [allClasses, List.length_append, List.length_map, List.length_range] at hl
    change store.classes.size ≤ made.classes.size
    rw [hl]
    exact Nat.le_add_right _ _
  entries := ⟨entries, h.root_declare hg.isRoot⟩
  scopes hid hne := h.scope_declare hne hid
  classes hid := h.classes hid
  fresh {id} hnew hid := by
    obtain ⟨entry, he, rfl⟩ := (h.mem_classes hid).resolve_left (Nat.not_lt_of_le hnew)
    obtain ⟨hs, -, -⟩ := h.shared entry he
    obtain ⟨hp, hh⟩ := h.unlinked entry he
    refine ⟨hs, hp, ?_⟩
    refine (congrArg Scope.parent (scope_declare_of_ne ?_ entries)).trans hh
    rintro heq
    exact Nat.not_lt_of_le hs (heq ▸ hg.isRoot.inside)

namespace Grounded

theorem grows_openFile (h : store.Grounded root) (name : String) :
    store.Grows root (store.openFile root name).2 := by
  unfold Store.openFile
  split
  · exact .refl root store
  · have hr : (store.newScope .file root).2.IsRoot root := h.isRoot.addScope _
    refine
      { objects := rfl
        released := rfl
        size := ?_
        classesSize := Nat.le_refl _
        entries := ⟨{ files := [(name, ⟨store.scopes.size⟩)] }, ?_⟩
        scopes := fun hid hne => ?_
        classes := fun _ => rfl
        fresh := fun hnew hid => absurd hid (Nat.not_lt_of_le hnew) }
    · exact Nat.le_trans (Nat.le_succ _) (Nat.le_of_eq (by simp [newScope]))
    · exact (scope_declare_self hr _).trans
        (congrArg (Scope.declaring _) (scope_addScope_of_lt h.isRoot.inside))
    · exact (scope_declare_of_ne hne _).trans (scope_addScope_of_lt hid)

/-- Work that only adds to a store with its books in order. -/
theorem grows_fold {α : Type} {step : Store → α → Option Store} {items : List α}
    (keeps : Store → Prop)
    (hs : ∀ item ∈ items, ∀ {before after}, before.Grounded root → keeps before →
      step before item = some after →
      (after.Grounded root ∧ keeps after) ∧ before.Grows root after)
    (h : store.Grounded root) (hk : keeps store)
    (hf : items.foldlM step store = some later) : store.Grows root later := by
  refine (foldlM_keeps (P := fun between =>
    (between.Grounded root ∧ keeps between) ∧ store.Grows root between) ?_
    ⟨⟨h, hk⟩, .refl root store⟩ hf).2
  rintro item hi before after ⟨⟨hb, hkp⟩, hg⟩ haf
  obtain ⟨hl, hm⟩ := hs item hi hb hkp haf
  exact ⟨hl, hg.trans hb hm⟩

theorem grows_statement (h : store.Grounded root) {file : ScopeId}
    (hf : store.IsHome root file) {statement : Node}
    (hd : store.declareStatement root file statement = some later) :
    store.Grows root later := by
  obtain ⟨item, hi, hd⟩ := Option.bind_eq_some_iff.mp hd
  obtain ⟨made, entries, hp, rfl⟩ := h.prepares_item hf (Item.ofStatement?_admissible hi) hd
  exact hp.grows h

theorem grows_file (h : store.Grounded root) {file : Node}
    (hd : store.declareFile root file = some later) : store.Grows root later := by
  unfold Store.declareFile at hd
  split at hd
  · next name body hk =>
    obtain ⟨ho, hf⟩ := h.openFile name
    refine (h.grows_openFile name).trans ho ?_
    refine grows_fold (·.IsHome root (store.openFile root name).1) ?_ ho ⟨name, hf⟩ hd
    intro statement _ before after hb hh haf
    exact ⟨hb.declareStatement hh haf, hb.grows_statement hh haf⟩
  · cases hd

/-- Declaring a unit only adds to the store. -/
theorem grows_unit (h : store.Grounded root) {files : List Node}
    (hd : store.declareUnit root files = some later) : store.Grows root later := by
  refine grows_fold (fun _ => True) ?_ h trivial hd
  intro file _ before after hb _ haf
  exact ⟨⟨hb.declareFile haf, trivial⟩, hb.grows_file haf⟩

end Grounded

end StepScript.Store
