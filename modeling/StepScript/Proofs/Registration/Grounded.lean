import StepScript.Proofs.Registration.Declaring
import StepScript.Proofs.Store.Evolution
set_option autoImplicit false

/-!
# The books of a Global scope

Names are declared in the Global scope only.  It lists every class of the store, in the order of
their places; a name is declared once; every class and every function of the program has the
scope of a file as its home (`Store.Grounded`).  Declaring things keeps the books in order, and so
does running code.
-/

namespace StepScript

variable {owner name : String} {token : Token} {statement : Node} {id : ClassId} {file : ScopeId}

/-! ## Behaviours that are constructed without arguments -/

/-- Every parameter of the constructor has an expression for its value. -/
def Members.Constructible (members : Members) : Prop :=
  ∀ constructor ∈ members.constructor, ∀ param ∈ constructor.params, param.initial.isSome = true

namespace Collected

theorem addConstructor_constructible {collected later : Collected} {params : List Parameter}
    {body : Node} {shared : Bool} (h : collected.members.Constructible)
    (hadd : collected.addConstructor owner .ofBehaviour params body shared token = .ok later) :
    later.members.Constructible := by
  unfold addConstructor at hadd
  cases shared with
  | true =>
    simp only [Bool.true_and, reduceIte] at hadd
    split at hadd
    · cases hadd
    · split at hadd
      · cases hadd
      · split at hadd
        · cases hadd
        · split at hadd
          · cases hadd
          · obtain rfl := Except.ok.inj hadd
            exact h
  | false =>
    simp only [Bool.false_and, Bool.false_eq_true, reduceIte] at hadd
    split at hadd
    · cases hadd
    · split at hadd
      · cases hadd
      · next hdf =>
        split at hadd
        · cases hadd
        · obtain rfl := Except.ok.inj hadd
          intro constructor hc param hp
          obtain rfl := Option.some.inj hc
          have hd := List.find?_eq_none.mp hdf param hp
          simpa [Option.isSome_iff_ne_none] using hd

theorem addFunction_constructible {owner name : String} {collected later : Collected}
    {params : List Parameter} {body : Option Node} {shared : Bool}
    (h : collected.members.Constructible)
    (hadd : collected.addFunction owner name params body shared token = .ok later) :
    later.members.Constructible := by
  unfold addFunction at hadd
  cases shared with
  | true =>
    simp only [reduceIte] at hadd
    split at hadd
    · cases hadd
    · split at hadd
      · cases hadd
      · obtain rfl := Except.ok.inj hadd
        exact h
  | false =>
    simp only [Bool.false_eq_true, reduceIte] at hadd
    split at hadd
    · cases hadd
    · split at hadd
      · cases hadd
      · obtain rfl := Except.ok.inj hadd
        exact h

/-- No other declaration of a body touches the constructor. -/
theorem add_constructible {collected later : Collected} (h : collected.members.Constructible)
    (hadd : collected.add owner .ofBehaviour statement = .ok later) :
    later.members.Constructible := by
  unfold add at hadd
  dsimp only at hadd
  split at hadd
  · cases hadd
  · split at hadd
    · unfold addProperty at hadd
      dsimp only at hadd
      split at hadd
      · cases hadd
      · split at hadd <;> obtain rfl := Except.ok.inj hadd <;> exact h
    · exact addFunction_constructible h hadd
    · exact addConstructor_constructible h hadd
    · contradiction
    · contradiction
    · unfold addContract at hadd
      split at hadd
      · cases hadd
      · split at hadd <;> obtain rfl := Except.ok.inj hadd <;> exact h
    · split at hadd <;> cases hadd

theorem ofBody_constructible {body : Node} {collected : Collected}
    (h : Collected.ofBody owner .ofBehaviour body = .ok collected) :
    collected.members.Constructible := by
  have hf (statements : List Node) (start : Collected) (hs : start.members.Constructible)
      (hrun : statements.foldlM (add owner .ofBehaviour) start = .ok collected) :
      collected.members.Constructible := by
    induction statements generalizing start with
    | nil =>
      obtain rfl := Except.ok.inj hrun
      exact hs
    | cons statement rest ih =>
      rw [List.foldlM_cons] at hrun
      cases hadd : start.add owner .ofBehaviour statement with
      | error error =>
        rw [hadd] at hrun
        cases hrun
      | ok next =>
        rw [hadd] at hrun
        exact ih next (add_constructible hs hadd) hrun
  exact hf body.statements {} (by simp [Members.Constructible]) h

end Collected

/-- A behaviour among the items of a file is constructed without arguments. -/
def Item.Admissible : Item → Prop
  | .ofBehaviour behaviour => behaviour.members.Constructible
  | _ => True

theorem Item.ofStatement?_admissible {item : Item} (h : Item.ofStatement? statement = some item) :
    item.Admissible := by
  unfold Item.ofStatement? at h
  dsimp only at h
  split at h
  case h_1 =>
    obtain ⟨collected, -, rfl⟩ := Option.map_eq_some_iff.mp h
    trivial
  case h_2 name body hk =>
    obtain ⟨collected, hc, rfl⟩ := Option.map_eq_some_iff.mp h
    exact Collected.ofBody_constructible (eq_ok_of_toOption hc)
  case h_3 =>
    split at h
    · cases h
    · obtain ⟨-, -, rfl⟩ := Option.map_eq_some_iff.mp h
      trivial
  case h_9 =>
    obtain ⟨-, -, rfl⟩ := Option.map_eq_some_iff.mp h
    trivial
  all_goals cases h

namespace Store

/-! ## Reading -/

section Reading

variable {store : Store} {root : ScopeId}

@[simp] theorem size_declare (store : Store) (root : ScopeId) (entries : Entries) :
    (store.declare root entries).scopes.size = store.scopes.size := size_modifyScope ..

theorem scope_declare_of_ne {id : ScopeId} (h : id ≠ root) (entries : Entries) :
    (store.declare root entries).scope id = store.scope id := scope_modifyScope_of_ne h _

theorem scope_declare_self (h : store.IsRoot root) (entries : Entries) :
    (store.declare root entries).scope root = (store.scope root).declaring entries :=
  scope_modifyScope_self h.inside _

theorem IsRoot.declare (h : store.IsRoot root) (entries : Entries) :
    (store.declare root entries).IsRoot root where
  inside := by
    rw [size_declare]
    exact h.inside
  parent := by
    rw [scope_declare_self h]
    exact h.parent

theorem IsRoot.addScope (h : store.IsRoot root) (scope : Scope) :
    (store.addScope scope).2.IsRoot root where
  inside := by
    rw [size_addScope]
    exact Nat.lt_succ_of_lt h.inside
  parent := by
    rw [scope_addScope_of_lt h.inside]
    exact h.parent

theorem fileOf?_declare (h : store.IsRoot root) {state : GlobalState}
    (hs : (store.scope root).state = some state) (entries : Entries) (name : String) :
    (store.declare root entries).fileOf? root name
      = (store.fileOf? root name).or (entries.files.get? name) := by
  unfold fileOf?
  rw [scope_declare_self h, Scope.declaring, hs]
  exact Table.get?_append _ _ _

/-- A file that is new is declared behind the others. -/
theorem declare_file_eq {state : GlobalState} (hs : (store.scope root).state = some state)
    (hun : store.fileOf? root name = none) (file : ScopeId) :
    store.declare root { files := [(name, file)] }
      = store.modifyScope root (·.addFile name file) := by
  have hu : state.files.get? name = none := by simpa [fileOf?, hs] using hun
  refine modifyScope_congr ?_
  rw [Scope.declaring, Scope.addFile, hs, Option.getD_some, Table.insert_of_unbound _ hu]
  simp [Scope.declaringState]

theorem scope_makeClass_of_lt {parentName : Option String} {collected : Collected} {id : ScopeId}
    (h : id.index < store.scopes.size) :
    (store.makeClass file name parentName collected token).2.scope id = store.scope id :=
  scope_addScope_of_lt h

theorem scope_makeClass (store : Store) (file : ScopeId) (name : String)
    (parentName : Option String) (collected : Collected) (token : Token) (id : ScopeId) :
    (store.makeClass file name parentName collected token).2.scope id
      = if id.index = store.scopes.size then collected.toShared file else store.scope id :=
  scope_addScope _ _ _

theorem classAt_makeClass (store : Store) (file : ScopeId) (name : String)
    (parentName : Option String) (collected : Collected) (token : Token) (id : ClassId) :
    (store.makeClass file name parentName collected token).2.classAt id
      = if id.index = store.classes.size then
          collected.toClass name parentName token ⟨store.scopes.size⟩ file
        else store.classAt id :=
  classAt_addClass _ _ _

theorem size_makeClass (store : Store) (file : ScopeId) (name : String)
    (parentName : Option String) (collected : Collected) (token : Token) :
    (store.makeClass file name parentName collected token).2.scopes.size
      = store.scopes.size + 1 := size_addScope _ _

theorem classes_makeClass (store : Store) (file : ScopeId) (name : String)
    (parentName : Option String) (collected : Collected) (token : Token) :
    (store.makeClass file name parentName collected token).2.classes = store.classes.push
        (collected.toClass name parentName token ⟨store.scopes.size⟩ file) := rfl

end Reading

/-! ## Books in order -/

/-- The classes of the store in the order of their places. -/
def allClasses (store : Store) : List ClassId := (List.range store.classes.size).map ClassId.mk

theorem mem_allClasses {store : Store} : id ∈ store.allClasses ↔ id.index < store.classes.size := by
  obtain ⟨index⟩ := id
  simp [allClasses]

/-- The scope is that of a registered file. -/
def IsHome (root : ScopeId) (store : Store) (home : ScopeId) : Prop :=
  ∃ name, store.fileOf? root name = some home

/-- A class has a shared scope of its own, and a home. -/
structure PlacedClass (root : ScopeId) (store : Store) (declared : Class) : Prop where
  inside : declared.sharedScope.index < store.scopes.size
  kind : (store.scope declared.sharedScope).kind = .classLevel
  home : store.IsHome root declared.home

/-- A class that has not been linked to a parent, and whose shared scope is still under that of
its file. -/
structure UnlinkedClass (store : Store) (declared : Class) : Prop where
  parent : declared.parent = none
  shared : (store.scope declared.sharedScope).parent = some (.strong declared.home)

/-- The books of a Global scope are in order. -/
structure Grounded (root : ScopeId) (store : Store) : Prop where
  isRoot : store.IsRoot root
  kind : (store.scope root).kind = .global
  files : ∀ {name file}, store.fileOf? root name = some file →
    file.index < store.scopes.size ∧ (store.scope file).IsFile root
  state : ∃ state, (store.scope root).state = some state ∧ state.classes = store.allClasses ∧
    (store.scope root).behaviours
      = state.behaviours.map fun behaviour => (behaviour.name, behaviour)
  classes : (store.scope root).classes
    = store.allClasses.map fun id => ((store.classAt id).name, id)
  classNames : ((store.scope root).classes.map (·.1)).Nodup
  behaviourNames : ((store.scope root).behaviours.map (·.1)).Nodup
  functionNames : ((store.scope root).functions.map (·.1)).Nodup
  functions : ∀ entry ∈ (store.scope root).functions,
    entry.1 = entry.2.name ∧ ∃ home, entry.2.home = some home ∧ store.IsHome root home
  placed : ∀ {id : ClassId}, id.index < store.classes.size →
    store.PlacedClass root (store.classAt id)
  apart : ∀ {id other : ClassId}, id.index < store.classes.size →
    other.index < store.classes.size →
    (store.classAt id).sharedScope = (store.classAt other).sharedScope → id = other
  elsewhere : ∀ {id}, id ≠ root → (store.scope id).behaviours = []
  constructible : ∀ entry ∈ (store.scope root).behaviours, entry.2.members.Constructible

variable {store later : Store} {root : ScopeId}

/-! ## Running code -/

theorem IsHome.evolved {home : ScopeId} (h : store.IsHome root home)
    (hr : store.IsRoot root) (hst : (store.scope root).state.isSome = true)
    (he : store.Evolves later) : later.IsHome root home := by
  obtain ⟨name, hn⟩ := h
  rcases he.files hr.inside hst name with hs | ⟨file, hf⟩
  · exact ⟨name, hs.trans hn⟩
  · cases hn.symm.trans hf.unknown

namespace Grounded

variable (h : store.Grounded root)

include h

theorem state_isSome : (store.scope root).state.isSome = true := by
  obtain ⟨state, hs, -⟩ := h.state
  exact Option.isSome_iff_exists.mpr ⟨state, hs⟩

/-- Running code keeps the books in order. -/
theorem evolved (he : store.Evolves later) : later.Grounded root := by
  have hk := he.scopes h.isRoot.inside
  have hca := he.classAt
  have hall : later.allClasses = store.allClasses := by
    unfold allClasses
    rw [he.classes]
  have hh {home : ScopeId} (hst : store.IsHome root home) : later.IsHome root home :=
    hst.evolved h.isRoot h.state_isSome he
  refine
    { isRoot := h.isRoot.evolved he
      kind := hk.kind.trans h.kind
      files := ?_
      state := ?_
      classes := ?_
      classNames := hk.classes ▸ h.classNames
      behaviourNames := hk.behaviours ▸ h.behaviourNames
      functionNames := hk.functions ▸ h.functionNames
      functions := ?_
      placed := ?_
      apart := ?_
      elsewhere := ?_
      constructible := hk.behaviours ▸ h.constructible }
  · intro name file hf
    rcases he.files h.isRoot.inside h.state_isSome name with hsm | ⟨new, hnew⟩
    · obtain ⟨hi, hif⟩ := h.files (hsm.symm.trans hf)
      exact ⟨Nat.lt_of_lt_of_le hi he.size, hif.kept (he.scopes hi)⟩
    · obtain rfl := Option.some.inj (hnew.known.symm.trans hf)
      exact ⟨hnew.inside, hnew.isFile⟩
  · obtain ⟨state, hs, hc, hb⟩ := h.state
    obtain ⟨state', hs', hc', hb'⟩ := hk.state hs
    exact ⟨state', hs', by rw [hc', hc, hall], by rw [hk.behaviours, hb, hb']⟩
  · rw [hk.classes, h.classes, hall]
    simp only [hca]
  · intro entry hen
    obtain ⟨hn, home, hh', hp⟩ := h.functions entry (hk.functions ▸ hen)
    exact ⟨hn, home, hh', hh hp⟩
  · intro id hid
    rw [hca]
    obtain ⟨hi, hkn, hp⟩ := h.placed (he.classes ▸ hid)
    exact ⟨Nat.lt_of_lt_of_le hi he.size, (he.scopes hi).kind.trans hkn, hh hp⟩
  · intro id other hid ho hsh
    rw [hca, hca] at hsh
    exact h.apart (he.classes ▸ hid) (he.classes ▸ ho) hsh
  · intro id hid
    by_cases hi : id.index < store.scopes.size
    · rw [(he.scopes hi).behaviours]
      exact h.elsewhere hid
    · exact he.fresh (Nat.le_of_not_lt hi)

/-! ## Declarations -/

theorem openFile (name : String) :
    (store.openFile root name).2.Grounded root ∧
      (store.openFile root name).2.fileOf? root name = some (store.openFile root name).1 := by
  unfold Store.openFile
  split
  · next file hf => exact ⟨h, hf⟩
  · next hu =>
    obtain ⟨state, hst, -⟩ := h.state
    have hr : (store.newScope .file root).2.IsRoot root := h.isRoot.addScope _
    have hsc : (store.newScope .file root).2.scope root = store.scope root :=
      scope_addScope_of_lt h.isRoot.inside
    have hu' : (store.newScope .file root).2.fileOf? root name = none := by
      unfold fileOf?
      rw [hsc]
      exact hu
    -- Declaring the file is what running code would do.
    have hs := declare_file_eq (hsc ▸ hst) hu' ⟨store.scopes.size⟩
    refine ⟨?_, ?_⟩
    · change ((store.newScope .file root).2.declare root _).Grounded root
      exact hs ▸ h.evolved (.addFile h.isRoot hu)
    · change ((store.newScope .file root).2.declare root _).fileOf? root name = _
      exact hs ▸ fileOf?_addFile_self hr _ _

theorem file_ne_root (hf : store.fileOf? root name = some file) : file ≠ root := by
  rintro rfl
  cases (h.files hf).2.parent.symm.trans h.isRoot.parent

theorem shared_ne_root (hid : id.index < store.classes.size) :
    (store.classAt id).sharedScope ≠ root := by
  intro heq
  have hk := (h.placed hid).kind
  rw [heq, h.kind] at hk
  cases hk

end Grounded

/-- A store with scopes and classes that are about to be declared by the entries. -/
structure Prepares (root : ScopeId) (store made : Store) (entries : Entries) : Prop where
  objects : made.objects = store.objects
  released : made.released = store.released
  size : store.scopes.size ≤ made.scopes.size
  scopes : ∀ {id : ScopeId}, id.index < store.scopes.size → made.scope id = store.scope id
  fresh : ∀ {id : ScopeId}, store.scopes.size ≤ id.index → (made.scope id).behaviours = []
  classes : ∀ {id : ClassId}, id.index < store.classes.size → made.classAt id = store.classAt id
  files : entries.files = []
  listed : made.allClasses = store.allClasses ++ entries.classes.map (·.2)
  named : ∀ entry ∈ entries.classes, entry.1 = (made.classAt entry.2).name
  shared : ∀ entry ∈ entries.classes,
    store.scopes.size ≤ (made.classAt entry.2).sharedScope.index ∧
      (made.classAt entry.2).sharedScope.index < made.scopes.size ∧
      (made.scope (made.classAt entry.2).sharedScope).kind = .classLevel
  unlinked : ∀ entry ∈ entries.classes, made.UnlinkedClass (made.classAt entry.2)
  homes : ∀ entry ∈ entries.classes, store.IsHome root (made.classAt entry.2).home
  apart : ∀ entry ∈ entries.classes, ∀ other ∈ entries.classes,
    (made.classAt entry.2).sharedScope = (made.classAt other.2).sharedScope → entry.2 = other.2
  functions : ∀ function ∈ entries.functions,
    ∃ home, function.home = some home ∧ store.IsHome root home
  constructible : ∀ behaviour ∈ entries.behaviours, behaviour.members.Constructible
  classNames : (((store.scope root).classes ++ entries.classes).map (·.1)).Nodup
  behaviourNames : (((store.scope root).declaring entries).behaviours.map (·.1)).Nodup
  functionNames : (((store.scope root).declaring entries).functions.map (·.1)).Nodup

namespace Prepares

variable {made : Store} {entries : Entries}

variable (h : store.Prepares root made entries)

include h

theorem isRoot (hr : store.IsRoot root) : made.IsRoot root :=
  ⟨Nat.lt_of_lt_of_le hr.inside h.size, by rw [h.scopes hr.inside, hr.parent]⟩

theorem scope_declare {id : ScopeId} (hne : id ≠ root) (hid : id.index < store.scopes.size) :
    (made.declare root entries).scope id = store.scope id :=
  (scope_declare_of_ne hne _).trans (h.scopes hid)

theorem root_declare (hr : store.IsRoot root) :
    (made.declare root entries).scope root = (store.scope root).declaring entries := by
  rw [scope_declare_self (h.isRoot hr), h.scopes hr.inside]

theorem fileOf?_declare (hg : store.Grounded root) (name : String) :
    (made.declare root entries).fileOf? root name = store.fileOf? root name := by
  obtain ⟨state, hs, -⟩ := hg.state
  have hm : made.scope root = store.scope root := h.scopes hg.isRoot.inside
  rw [Store.fileOf?_declare (h.isRoot hg.isRoot) (hm ▸ hs), h.files]
  refine Option.or_none.trans ?_
  unfold fileOf?
  rw [hm]

/-- A class is an earlier one, or one of the entries. -/
theorem mem_classes (hid : id.index < made.classes.size) :
    id.index < store.classes.size ∨ ∃ entry ∈ entries.classes, entry.2 = id := by
  have hmem := mem_allClasses.mpr hid
  rw [h.listed, List.mem_append, mem_allClasses, List.mem_map] at hmem
  exact hmem

variable (hg : store.Grounded root)

include hg

theorem isHome {home : ScopeId} (hh : store.IsHome root home) :
    (made.declare root entries).IsHome root home := by
  obtain ⟨name, hn⟩ := hh
  exact ⟨name, (h.fileOf?_declare hg name).trans hn⟩

theorem placed (hid : id.index < made.classes.size) :
    (made.declare root entries).PlacedClass root (made.classAt id) := by
  rcases h.mem_classes hid with hold | ⟨entry, he, rfl⟩
  · have hp := hg.placed hold
    rw [h.classes hold]
    refine ⟨?_, ?_, h.isHome hg hp.home⟩
    · rw [size_declare]
      exact Nat.lt_of_lt_of_le hp.inside h.size
    · rw [h.scope_declare (hg.shared_ne_root hold) hp.inside]
      exact hp.kind
  · obtain ⟨hnew, hi, hk⟩ := h.shared entry he
    refine ⟨?_, ?_, h.isHome hg (h.homes entry he)⟩
    · rw [size_declare]
      exact hi
    · rw [scope_declare_of_ne, hk]
      rintro heq
      exact Nat.not_lt_of_le hnew (heq ▸ hg.isRoot.inside)

theorem sharedApart {id other : ClassId} (hid : id.index < made.classes.size)
    (ho : other.index < made.classes.size)
    (heq : (made.classAt id).sharedScope = (made.classAt other).sharedScope) : id = other := by
  -- The shared scope of a new class lies behind those of all earlier classes.
  have hd {old : ClassId} (hold : old.index < store.classes.size)
      {entry : String × ClassId} (he : entry ∈ entries.classes) :
      (made.classAt old).sharedScope ≠ (made.classAt entry.2).sharedScope := by
    intro hs
    have hi := (hg.placed hold).inside
    rw [← h.classes hold, hs] at hi
    exact Nat.not_lt_of_le (h.shared entry he).1 hi
  rcases h.mem_classes hid with hold | ⟨entry, he, rfl⟩
  · rcases h.mem_classes ho with hoo | ⟨entry, he, rfl⟩
    · rw [h.classes hold, h.classes hoo] at heq
      exact hg.apart hold hoo heq
    · exact absurd heq (hd hold he)
  · rcases h.mem_classes ho with hoo | ⟨entry', he', rfl⟩
    · exact absurd heq.symm (hd hoo he)
    · exact h.apart entry he entry' he' heq

theorem table :
    (store.scope root).classes ++ entries.classes
      = made.allClasses.map fun id => ((made.classAt id).name, id) := by
  rw [h.listed, List.map_append, hg.classes, List.map_map]
  refine congrArg₂ _ (List.map_congr_left fun id hid => ?_) ?_
  · rw [h.classes (mem_allClasses.mp hid)]
  · refine (List.map_id' _).symm.trans (List.map_congr_left fun entry he => ?_)
    exact Prod.ext (h.named entry he) rfl

/-- Declaring what has been prepared keeps the books in order. -/
theorem grounded : (made.declare root entries).Grounded root := by
  have hs := h.root_declare hg.isRoot
  refine
    { isRoot := (h.isRoot hg.isRoot).declare entries
      kind := ?_
      files := ?_
      state := ?_
      classes := ?_
      classNames := ?_
      behaviourNames := ?_
      functionNames := ?_
      functions := ?_
      placed := fun hid => h.placed hg hid
      apart := fun hid ho => h.sharedApart hg hid ho
      elsewhere := ?_
      constructible := ?_ }
  · rw [hs]
    exact hg.kind
  · intro name file hf
    rw [h.fileOf?_declare hg] at hf
    obtain ⟨hi, hif⟩ := hg.files hf
    rw [size_declare, h.scope_declare (hg.file_ne_root hf) hi]
    exact ⟨Nat.lt_of_lt_of_le hi h.size, hif⟩
  · obtain ⟨state, hst, hc, hbh⟩ := hg.state
    refine ⟨Scope.declaringState entries state, ?_, ?_, ?_⟩
    · rw [hs, Scope.declaring, hst]
      rfl
    · change state.classes ++ entries.classes.map (·.2) = made.allClasses
      rw [hc, h.listed]
    · rw [hs, Scope.declaring, hbh, Scope.declaringState, List.map_append]
  · rw [hs]
    exact h.table hg
  · rw [hs]
    exact h.classNames
  · rw [hs]
    exact h.behaviourNames
  · rw [hs]
    exact h.functionNames
  · rw [hs]
    intro entry he
    rcases List.mem_append.mp he with hold | hnew
    · obtain ⟨hn, home, hh, hp⟩ := hg.functions entry hold
      exact ⟨hn, home, hh, h.isHome hg hp⟩
    · obtain ⟨function, hfn, rfl⟩ := List.mem_map.mp hnew
      obtain ⟨home, hh, hp⟩ := h.functions function hfn
      exact ⟨rfl, home, hh, h.isHome hg hp⟩
  · intro id hid
    rw [scope_declare_of_ne hid]
    by_cases hi : id.index < store.scopes.size
    · rw [h.scopes hi]
      exact hg.elsewhere hid
    · exact h.fresh (Nat.le_of_not_lt hi)
  · rw [hs]
    intro entry he
    rcases List.mem_append.mp he with hold | hnew
    · exact hg.constructible entry hold
    · obtain ⟨behaviour, hb, rfl⟩ := List.mem_map.mp hnew
      exact h.constructible behaviour hb

end Prepares

/-! ## Declaring the items of a unit -/

theorem nodup_names_append {α : Type} {table : Table α} (h : (table.map (·.1)).Nodup)
    (hn : table.binds name = false) (entry : α) :
    ((table ++ [(name, entry)]).map (·.1)).Nodup := by
  have hu : table.get? name = none := by simpa [Table.binds] using hn
  rw [List.map_append]
  refine List.nodup_append.mpr ⟨h, by simp, ?_⟩
  intro other ho last hl heq
  obtain rfl := List.mem_singleton.mp hl
  exact Table.not_mem_of_unbound.mp hu (heq ▸ ho)

namespace Grounded

variable (h : store.Grounded root)

include h

theorem prepares_class (parentName : Option String) (collected : Collected) (token : Token)
    (hf : store.IsHome root file) (hn : (store.scope root).classes.binds name = false) :
    store.Prepares root (store.makeClass file name parentName collected token).2
      { classes := [(name, ⟨store.classes.size⟩)] } := by
  have hnew := classAt_makeClass store file name parentName collected token ⟨store.classes.size⟩
  rw [if_pos rfl] at hnew
  have hs := scope_makeClass store file name parentName collected token ⟨store.scopes.size⟩
  rw [if_pos rfl] at hs
  refine
    { objects := rfl
      released := rfl
      size := ?_
      scopes := fun hid => scope_makeClass_of_lt hid
      fresh := ?_
      classes := ?_
      files := rfl
      listed := ?_
      named := ?_
      shared := ?_
      unlinked := ?_
      homes := ?_
      apart := ?_
      functions := fun _ hfn => nomatch hfn
      constructible := fun _ hb => nomatch hb
      classNames := nodup_names_append h.classNames hn _
      behaviourNames := ?_
      functionNames := ?_ }
  · rw [size_makeClass]
    exact Nat.le_succ _
  · intro id hid
    rw [scope_makeClass]
    split
    · rfl
    · rw [scope_of_size_le hid]
      rfl
  · intro id hid
    rw [classAt_makeClass, if_neg (Nat.ne_of_lt hid)]
  · unfold allClasses
    rw [classes_makeClass, Array.size_push, List.range_succ, List.map_append]
    rfl
  · simp [hnew, Collected.toClass]
  · have hsh : (collected.toClass name parentName token ⟨store.scopes.size⟩ file).sharedScope
        = ⟨store.scopes.size⟩ := rfl
    simp [hnew, hsh, hs, size_makeClass, Collected.toShared]
  · intro entry he
    obtain rfl := List.mem_singleton.mp he
    rw [hnew]
    exact ⟨rfl, congrArg Scope.parent hs⟩
  · simpa [hnew, Collected.toClass] using hf
  · simp
  · simpa [Scope.declaring] using h.behaviourNames
  · simpa [Scope.declaring] using h.functionNames

/-- Behaviours and functions are declared without anything made for them. -/
theorem prepares_names {entries : Entries} (hf : entries.files = [])
    (hc : entries.classes = [])
    (hfc : ∀ function ∈ entries.functions,
      ∃ home, function.home = some home ∧ store.IsHome root home)
    (hb : ∀ behaviour ∈ entries.behaviours, behaviour.members.Constructible)
    (hbn : (((store.scope root).declaring entries).behaviours.map (·.1)).Nodup)
    (hfn : (((store.scope root).declaring entries).functions.map (·.1)).Nodup) :
    store.Prepares root store entries where
  objects := rfl
  released := rfl
  size := Nat.le_refl _
  scopes _ := rfl
  fresh hid := by
    rw [scope_of_size_le hid]
    rfl
  classes _ := rfl
  files := hf
  listed := by simp [hc]
  named := by simp [hc]
  shared := by simp [hc]
  unlinked := by simp [hc]
  homes := by simp [hc]
  apart := by simp [hc]
  functions := hfc
  constructible := hb
  classNames := by simpa [hc] using h.classNames
  behaviourNames := hbn
  functionNames := hfn

/-- What is declared has been prepared, and its books are in order. -/
theorem prepares_item (hfl : store.IsHome root file) {item : Item} (hi : item.Admissible)
    (hd : store.declareItem root file item = some later) :
    ∃ made entries, store.Prepares root made entries ∧ later = made.declare root entries := by
  cases item with
  | ofClass name parentName collected token =>
    dsimp only [Store.declareItem] at hd
    split at hd
    · cases hd
    · next hn =>
      obtain rfl := Option.some.inj hd
      have hp := h.prepares_class parentName collected token hfl (by simpa using hn)
      exact ⟨_, _, hp, rfl⟩
  | ofBehaviour behaviour =>
    dsimp only [Store.declareItem] at hd
    split at hd
    · cases hd
    · next hn =>
      obtain rfl := Option.some.inj hd
      refine ⟨_, _, h.prepares_names rfl rfl ?_ ?_ ?_ ?_, rfl⟩
      · intro function hf
        cases hf
      · have hc : behaviour.members.Constructible := hi
        simpa using hc
      · exact nodup_names_append h.behaviourNames (by simpa using hn) _
      · simpa [Scope.declaring] using h.functionNames
  | ofFunction function =>
    dsimp only [Store.declareItem] at hd
    split at hd
    · cases hd
    · next hn =>
      obtain rfl := Option.some.inj hd
      refine ⟨_, _, h.prepares_names rfl rfl ?_ ?_ ?_ ?_, rfl⟩
      · simpa using hfl
      · intro behaviour hb
        cases hb
      · simpa [Scope.declaring] using h.behaviourNames
      · exact nodup_names_append h.functionNames (by simpa using hn) _
  | nothing =>
    obtain rfl := Option.some.inj hd
    refine ⟨store, {}, h.prepares_names rfl rfl ?_ ?_ ?_ ?_, ?_⟩
    · intro function hf
      cases hf
    · intro behaviour hb
      cases hb
    · simpa [Scope.declaring] using h.behaviourNames
    · simpa [Scope.declaring] using h.functionNames
    · exact (modifyScope_eq_self (Scope.declaring_empty _)).symm

theorem declareStatement (hf : store.IsHome root file)
    (hd : store.declareStatement root file statement = some later) :
    later.Grounded root ∧ later.IsHome root file := by
  obtain ⟨item, hi, hd⟩ := Option.bind_eq_some_iff.mp hd
  obtain ⟨made, entries, hp, rfl⟩ := h.prepares_item hf (Item.ofStatement?_admissible hi) hd
  exact ⟨hp.grounded h, hp.isHome h hf⟩

theorem declareFile {file : Node} (hd : store.declareFile root file = some later) :
    later.Grounded root := by
  unfold Store.declareFile at hd
  split at hd
  · next name body hk =>
    obtain ⟨ho, hf⟩ := h.openFile name
    refine (foldlM_keeps (P := fun between => between.Grounded root ∧
      between.IsHome root (store.openFile root name).1) ?_ ⟨ho, name, hf⟩ hd).1
    intro statement _ before after hb haf
    exact hb.1.declareStatement hb.2 haf
  · cases hd

/-- Declaring a unit keeps the books in order. -/
theorem declareUnit {files : List Node} (hd : store.declareUnit root files = some later) :
    later.Grounded root :=
  foldlM_keeps (fun _ _ _ _ hb haf => hb.declareFile haf) h hd

end Grounded

/-! ## A new Global scope -/

theorem grounded_newGlobal : (newGlobal {}).2.Grounded (newGlobal {}).1 := by
  have hs (id : ScopeId) : (newGlobal {}).2.scope id
      = if id.index = 0 then { kind := .global, state := some {} } else default := by
    unfold newGlobal
    rw [scope_addScope]
    rfl
  have hr : (newGlobal {}).2.scope (newGlobal {}).1 = { kind := .global, state := some {} } := rfl
  refine
    { isRoot := ⟨Nat.zero_lt_one, rfl⟩
      kind := rfl
      files := fun hf => nomatch hf
      state := ⟨{}, rfl, rfl, rfl⟩
      classes := rfl
      classNames := List.nodup_nil
      behaviourNames := List.nodup_nil
      functionNames := List.nodup_nil
      functions := fun _ hfn => nomatch hfn
      placed := fun hid => nomatch hid
      apart := fun hid => nomatch hid
      elsewhere := ?_
      constructible := fun _ hb => nomatch hb }
  intro id _
  rw [hs]
  split <;> rfl

end Store

end StepScript
