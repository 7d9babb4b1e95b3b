import StepScript.Host.Standard
import StepScript.Proofs.Registration.Items
import StepScript.Proofs.System.Growing
set_option autoImplicit false

/-!
# Hierarchies of registered classes

Every class of a Global scope comes from a declaration in a file of an accepted unit
(`System.Grown.declared`).  It has the class that the declaration names as its parent, and the way
up from it ends and is its hierarchy (`System.Grown.hierarchies_sound`).
-/

namespace StepScript

/-! ## Where classes come from -/

/-- A class comes from the declaration of a class. -/
theorem Item.ofStatement?_class {statement : Node} {name : String} {parentName : Option String}
    {collected : Collected} {token : Token}
    (h : Item.ofStatement? statement = some (.ofClass name parentName collected token)) :
    ∃ body, statement.kind = .classDecl name parentName body := by
  unfold Item.ofStatement? at h
  dsimp only at h
  split at h
  case h_1 found parent body hk =>
    obtain ⟨_, -, heq⟩ := Option.map_eq_some_iff.mp h
    obtain ⟨rfl, rfl, -, -⟩ := Item.ofClass.inj heq
    exact ⟨body, hk⟩
  case h_2 =>
    obtain ⟨_, -, heq⟩ := Option.map_eq_some_iff.mp h
    cases heq
  case h_3 =>
    split at h
    · cases h
    · obtain ⟨_, -, heq⟩ := Option.map_eq_some_iff.mp h
      cases heq
  case h_9 =>
    obtain ⟨_, -, heq⟩ := Option.map_eq_some_iff.mp h
    cases heq
  all_goals cases h

namespace Store

variable {root : ScopeId} {store later after : Store} {files : List Node} {id : ClassId}

/-- A statement of one of the files declares the class, whose home is the scope of the file. -/
def DeclaredBy (root : ScopeId) (store : Store) (files : List Node) (id : ClassId) : Prop :=
  ∃ file ∈ files, ∃ name statements, file.kind = .file name statements ∧
    store.fileOf? root name = some (store.classAt id).home ∧
    ∃ statement ∈ statements, ∃ body, statement.kind
      = .classDecl (store.classAt id).name (store.classAt id).parentName body

/-- What the declaration of a class is about stays the same. -/
theorem DeclaredBy.of_class_eq (h : store.DeclaredBy root files id)
    (hn : (later.classAt id).name = (store.classAt id).name)
    (hpn : (later.classAt id).parentName = (store.classAt id).parentName)
    (hh : (later.classAt id).home = (store.classAt id).home)
    (hfl : ∀ {name file}, store.fileOf? root name = some file →
      later.fileOf? root name = some file) : later.DeclaredBy root files id := by
  obtain ⟨file, hf, name, statements, hk, hs, hst⟩ := h
  refine ⟨file, hf, name, statements, hk, ?_, ?_⟩
  · rw [hh]
    exact hfl hs
  · rw [hn, hpn]
    exact hst

theorem DeclaredBy.evolved (h : store.DeclaredBy root files id) (hg : store.Grounded root)
    (he : store.Evolves later) : later.DeclaredBy root files id := by
  have hc := he.classAt id
  refine h.of_class_eq (by rw [hc]) (by rw [hc]) (by rw [hc])
    fun {name file} hf => ?_
  rcases he.files hg.isRoot.inside hg.state_isSome name with hs | ⟨_, hnew⟩
  · rw [hs, hf]
  · cases hf.symm.trans hnew.unknown

/-- A class that is new comes from one of the declarations. -/
theorem Declared.exists_class {declarations : List Declaration}
    (h : store.Declared root declarations later) (hg : store.Grounded root)
    (hnew : store.classes.size ≤ id.index) (hid : id.index < later.classes.size) :
    ∃ declaration ∈ declarations, ∃ parentName collected token,
      declaration.item = .ofClass (later.classAt id).name parentName collected token ∧
      (later.classAt id).parentName = parentName ∧
      later.fileOf? root declaration.file = some (later.classAt id).home := by
  have hget := h.grounded.get?_class_iff.mpr ⟨hid, rfl⟩
  have hk : (later.scope root).knows (.ofClass (later.classAt id).name) = true := by
    simp [Scope.knows, Table.binds, hget]
  have hu : ¬ (store.scope root).knows (.ofClass (later.classAt id).name) = true := by
    intro hold
    obtain ⟨former, hf⟩ := Option.isSome_iff_exists.mp hold
    obtain rfl := Option.some.inj (hget.symm.trans (h.grows.get?_class hf))
    exact Nat.not_lt_of_le hnew (hg.get?_class_iff.mp hf).1
  obtain ⟨declaration, hmem, hkey⟩ := mem_keys.mp (((h.knows _).mp hk).resolve_left hu)
  obtain ⟨home, hh, hhas⟩ := h.has declaration hmem
  refine ⟨declaration, hmem, ?_⟩
  generalize declaration.item = item at hkey hhas
  cases item with
  | ofClass name parentName collected token =>
    obtain rfl := Key.ofClass.inj (Option.some.inj hkey)
    obtain ⟨other, ho, hc, -⟩ := hhas
    obtain rfl := Option.some.inj (hget.symm.trans ho)
    refine ⟨parentName, collected, token, rfl, ?_, ?_⟩
    · rw [hc]
      rfl
    · rw [hh, hc]
      rfl
  | ofBehaviour behaviour => cases hkey
  | ofFunction function => cases hkey
  | nothing => cases hkey

/-- The classes of an accepted unit come from its files, and the others stay what they are. -/
theorem addUnit_declaredBy (h : store.Registered root) {classes : List ClassId}
    (hu : store.addUnit root files = (.ok classes, after))
    (hid : id.index < after.classes.size) :
    after.DeclaredBy root files id ∨
      id.index < store.classes.size ∧ ∀ unit, store.DeclaredBy root unit id →
        after.DeclaredBy root unit id := by
  obtain ⟨declared, hdl, hr, -, -⟩ := (addUnit_ok_iff h).mp hu
  obtain ⟨declarations, hrd, hall⟩ := (declareUnit_iff h.grounded).mp hdl
  have hd := declared_all h.grounded (unitDeclarations_admissible hrd) hall
  have hfl (name : String) := hr.fileOf?_eq hd.grounded name
  by_cases hold : id.index < store.classes.size
  · refine .inr ⟨hold, fun unit hdc => ?_⟩
    have hc := hd.grows.classes hold
    refine hdc.of_class_eq ?_ ?_ ?_ fun {name file} hf => ?_
    · rw [hr.name, hc]
    · rw [hr.parentName, hc]
    · rw [hr.home, hc]
    · rw [hfl]
      exact hd.grows.fileOf?_eq hf
  · left
    rw [hr.classesSize] at hid
    obtain ⟨declaration, hmem, parentName, collected, token, hi, hpn, hh⟩ :=
      hd.exists_class h.grounded (Nat.le_of_not_lt hold) hid
    obtain ⟨file, hf, statements, hk, hs⟩ := mem_unitDeclarations hrd hmem
    rcases hs with hn | ⟨statement, hst, hrd⟩
    · cases hi.symm.trans hn
    · rw [hi] at hrd
      obtain ⟨body, hc⟩ := Item.ofStatement?_class hrd
      refine ⟨file, hf, declaration.file, statements, hk, ?_, statement, hst, body, ?_⟩
      · rw [hfl, hr.home]
        exact hh
      · rw [hr.name, hr.parentName, hpn]
        exact hc

end Store

variable {σ τ : Type} {host : Host σ τ}

namespace System

variable {system next : System σ τ}

/-- Every class comes from a file of an accepted unit. -/
def Traced (system : System σ τ) : Prop :=
  ∀ id : ClassId, id.index < system.store.classes.size →
    ∃ unit ∈ system.units, system.store.DeclaredBy system.program.root unit.files id

/-- The classes of an accepted unit join those that there are. -/
theorem Traced.withUnit (ht : system.Traced)
    (h : system.store.Registered system.program.root) (files : List Node) :
    (system.withUnit files).Traced := by
  intro id hid
  unfold System.withUnit at hid ⊢
  dsimp only [System.store] at hid ⊢
  generalize hu : system.store.addUnit system.program.root files = answer at hid ⊢
  obtain ⟨error | classes, after⟩ := answer
  · obtain rfl := Store.addUnit_error hu
    simpa [Except.toOption] using ht id hid
  · rcases Store.addUnit_declaredBy h hu hid with hnew | ⟨hold, hk⟩
    · exact ⟨⟨files, classes⟩, by simp [Except.toOption], hnew⟩
    · obtain ⟨unit, hmem, hd⟩ := ht id hold
      exact ⟨unit, List.mem_append_left _ hmem, hk unit.files hd⟩

theorem Traced.evolved (ht : system.Traced)
    (h : system.store.Registered system.program.root) {later : Store}
    (he : system.store.Evolves later) {id : ClassId} (hid : id.index < later.classes.size) :
    ∃ unit ∈ system.units, later.DeclaredBy system.program.root unit.files id := by
  rw [he.classes] at hid
  obtain ⟨unit, hmem, hd⟩ := ht id hid
  exact ⟨unit, hmem, hd.evolved h.grounded he⟩

theorem Step.traced (hs : Step host system next) (h : system.InOrder)
    (ht : system.Traced) : next.Traced := by
  cases hs with
  | register sources =>
    rcases Program.register_cases system.store system.program.root sources with
      ⟨error, hr⟩ | ⟨files, hu⟩
    · rw [hr]
      simpa [Traced, Except.toOption] using ht
    · rw [hu]
      have hw := ht.withUnit h.registered files
      unfold System.withUnit at hw
      generalize (system.store.addUnit system.program.root files) = answer at hw ⊢
      obtain ⟨_ | _, after⟩ := answer <;> exact hw
  | begin accepted => exact ht
  | call declared known => exact ht
  | turn running covers stepped =>
    have hm := h.machines _ (running ▸ List.mem_append_right _ List.mem_cons_self)
    have he := (Machine.step_evolves stepped hm.starts
      h.registered.grounded.isRoot).1
    exact fun id hid => ht.evolved h.registered he hid
  | drop fewer forgotten => exact ht
  | endFrame =>
    exact fun id hid => ht.evolved h.registered
      (system.program.endFrame_evolves system.store) hid
  | surroundings context => exact ht

theorem Grown.traced (h : Grown host system) : system.Traced := by
  induction h with
  | empty code context => exact fun id hid => absurd hid (Nat.not_lt_zero _)
  | unit before files ih => exact ih.withUnit before.inOrder.registered files
  | step before hs ih => exact hs.traced before.inOrder ih

end System

/-! ## Hierarchies -/

namespace Store

/-- The class has the parent that its declaration names, the way up from it ends, and its shared
scope is where it belongs. -/
structure SoundClass (store : Store) (classes : List ClassId) (id : ClassId) : Prop where
  parent_isSome : (store.classAt id).parent.isSome = (store.classAt id).parentName.isSome
  parent : ∀ parent ∈ (store.classAt id).parent, parent ∈ classes ∧
    (store.classAt id).parentName = some (store.classAt parent).name
  hierarchy : store.Lineage id (store.hierarchy id)
  nodup : (store.hierarchy id).Nodup
  shared : (store.scope (store.classAt id).sharedScope).parent
    = some (.strong (match (store.classAt id).parent with
      | some parent => (store.classAt parent).sharedScope
      | none => (store.classAt id).home))

theorem Registered.soundClass {root : ScopeId} {store : Store} (h : store.Registered root)
    {id : ClassId} (hid : id.index < store.classes.size) :
    store.SoundClass store.allClasses id := by
  have hl := h.linked.parents hid
  have hk := kinship h.grounded h.linked.parents
  obtain ⟨⟨chain, hc⟩, -⟩ := ((registry_sound_iff h.grounded h.linked.parents).mp h.sound).1 hid
  have hh := hk.hierarchy_eq hc hid
  refine ⟨?_, fun parent hp => ?_, ?_, ?_, h.linked.shared hid⟩
  · have hnn := hl.parent_eq_none_iff
    cases hp : (store.classAt id).parent <;> cases hn : (store.classAt id).parentName <;> simp_all
  · obtain ⟨hi, hn⟩ := (hl.parent_eq_some_iff h.grounded).mp hp
    exact ⟨mem_allClasses.mpr hi, hn⟩
  · rw [hh]
    exact hc
  · rw [hh]
    exact hc.nodup

end Store

/-- Every registered class has a sound finite hierarchy.  Whatever units have been accepted and
refused, and whatever has run between them: the class table and the list of declarations hold the
same classes, under names that differ; each comes from a declaration in a file of an accepted
unit, in whose scope it is at home; and each has the parent, the hierarchy and the shared scope
that belong to it. -/
theorem System.Grown.hierarchies_sound {system : System σ τ} (h : Grown host system) :
    ∃ state, (system.store.scope system.program.root).state = some state ∧
      (system.store.scope system.program.root).classes
        = state.classes.map (fun id => ((system.store.classAt id).name, id)) ∧
      (state.classes.map fun id => (system.store.classAt id).name).Nodup ∧
      ∀ id ∈ state.classes, system.store.SoundClass state.classes id ∧
        ∃ unit ∈ system.units, system.store.DeclaredBy system.program.root unit.files id := by
  have hregistered := h.inOrder.registered
  obtain ⟨state, hstate, hclasses, -⟩ := hregistered.grounded.state
  have hnames := hregistered.grounded.classNames
  rw [hregistered.grounded.classes, List.map_map] at hnames
  refine ⟨state, hstate, ?_⟩
  rw [hclasses]
  refine ⟨hregistered.grounded.classes, hnames, fun id hid => ?_⟩
  have hinside := Store.mem_allClasses.mp hid
  exact ⟨hregistered.soundClass hinside, h.traced id hinside⟩

/-- The declaration of a class without members. -/
def classNode (name : String) (parent : Option String) : Node :=
  ⟨.classDecl name parent ⟨.block [], default⟩, default⟩

/-- A class `B` extends a class `A` of an earlier unit; between the two, a unit with a cycle has
been refused. -/
def heirSystem : System Unit Standard.Sleep :=
  (((System.empty default { state := () }).withUnit
    [⟨.file "base" [classNode "A" none], default⟩]).withUnit
    [⟨.file "cycle" [classNode "X" (some "Y"), classNode "Y" (some "X")], default⟩]).withUnit
    [⟨.file "heirs" [classNode "B" (some "A")], default⟩]

set_option maxRecDepth 20000 in
/-- The hierarchy of `B` is `B` and `A`. -/
theorem System.Grown.hierarchies_sound_heir :
    Grown Standard.host heirSystem ∧ heirSystem.units.length = 2 ∧
      heirSystem.store.hierarchy ⟨1⟩ = [⟨1⟩, ⟨0⟩] ∧ heirSystem.store.SoundClass [⟨0⟩, ⟨1⟩] ⟨1⟩ ∧
      ∃ unit ∈ heirSystem.units,
        heirSystem.store.DeclaredBy heirSystem.program.root unit.files ⟨1⟩ := by
  have hgrown : Grown Standard.host heirSystem := by
    unfold heirSystem
    exact .unit (.unit (.unit (.empty _ _) _) _) _
  have hunits : heirSystem.units.length = 2 := by cbv
  have hhierarchy : heirSystem.store.hierarchy ⟨1⟩ = [⟨1⟩, ⟨0⟩] := by cbv
  have hclasses : (heirSystem.store.scope heirSystem.program.root).state.map (·.classes)
      = some [⟨0⟩, ⟨1⟩] := by cbv
  obtain ⟨state, hstate, -, -, hsound⟩ := hgrown.hierarchies_sound
  rw [hstate, Option.map_some, Option.some.injEq] at hclasses
  rw [hclasses] at hsound
  exact ⟨hgrown, hunits, hhierarchy, hsound ⟨1⟩ (by simp)⟩

end StepScript
