import StepScript.Proofs.Registration.Relinking
import Mathlib.Data.List.Forall2
import Mathlib.Data.List.Perm.Basic
set_option autoImplicit false

/-!
# Units as lists of declarations

A unit is a list of items, each in a file (`unitDeclarations?`).  Declaring the unit declares them
one by one (`Store.declareUnit_iff`).  That is possible exactly if their names differ and are new
(`Store.exists_declareAll_iff`), and then the Global scope knows what it has known and what they
declare (`Store.Declared`).
-/

namespace StepScript

variable {files : List Node} {item : Item} {name : String} {file : ScopeId}

/-! ## Reading a unit -/

section Reading

variable {α β : Type}

theorem mapM_eq_some_iff {read : α → Option β} {items : List α} {answers : List β} :
    items.mapM read = some answers ↔
      List.Forall₂ (fun item answer => read item = some answer) items answers := by
  induction items generalizing answers with
  | nil =>
    rw [List.mapM_nil, List.forall₂_nil_left_iff]
    exact ⟨fun h => (Option.some.inj h).symm, fun h => h ▸ rfl⟩
  | cons item rest ih =>
    rw [List.mapM_cons, List.forall₂_cons_left_iff]
    constructor
    · intro h
      obtain ⟨answer, han, h⟩ := Option.bind_eq_some_iff.mp h
      obtain ⟨others, ho, h⟩ := Option.bind_eq_some_iff.mp h
      exact ⟨answer, others, han, ih.mp ho, (Option.some.inj h).symm⟩
    · rintro ⟨answer, others, han, ho, rfl⟩
      rw [han, ih.mpr ho]
      rfl

/-- Every answer has been read from an item. -/
theorem mem_of_forall₂ {read : α → Option β} {items : List α} {answers : List β}
    (h : List.Forall₂ (fun item answer => read item = some answer) items answers) {answer : β}
    (han : answer ∈ answers) : ∃ item ∈ items, read item = some answer := by
  induction h with
  | nil => cases han
  | cons hr _ ih =>
    rcases List.mem_cons.mp han with rfl | hmem
    · exact ⟨_, List.mem_cons_self, hr⟩
    · obtain ⟨item, hi, hr⟩ := ih hmem
      exact ⟨item, List.mem_cons_of_mem _ hi, hr⟩

/-- A fold that reads each item first can read all items first. -/
theorem foldlM_read {read : α → Option β} {γ : Type} {step : γ → β → Option γ} {items : List α}
    {start last : γ} :
    items.foldlM (fun state item => (read item).bind (step state)) start = some last ↔
      ∃ answers, items.mapM read = some answers ∧ answers.foldlM step start = some last := by
  induction items generalizing start with
  | nil => simp
  | cons item rest ih =>
    rw [List.foldlM_cons]
    constructor
    · intro h
      obtain ⟨next, hn, hr⟩ := Option.bind_eq_some_iff.mp h
      obtain ⟨answer, has, hs⟩ := Option.bind_eq_some_iff.mp hn
      obtain ⟨answers, han, hf⟩ := ih.mp hr
      refine ⟨answer :: answers, ?_, ?_⟩
      · rw [List.mapM_cons, has, han]
        rfl
      · rw [List.foldlM_cons, hs]
        exact hf
    · rintro ⟨answers, han, hf⟩
      rw [mapM_eq_some_iff, List.forall₂_cons_left_iff] at han
      obtain ⟨answer, others, has, ho, rfl⟩ := han
      rw [List.foldlM_cons] at hf
      obtain ⟨next, hs, hf⟩ := Option.bind_eq_some_iff.mp hf
      refine Option.bind_eq_some_iff.mpr ⟨next, ?_, ih.mpr ⟨others, ?_, hf⟩⟩
      · rw [has]
        exact hs
      · exact mapM_eq_some_iff.mpr ho

end Reading

/-- An item in a file. -/
structure Declaration where
  file : String
  item : Item

/-- What a file declares, if its statements may stand in a file.  The first item opens it. -/
def fileDeclarations? (file : Node) : Option (List Declaration) :=
  match file.kind with
  | .file name body =>
    (body.mapM Item.ofStatement?).map fun items => (Item.nothing :: items).map (⟨name, ·⟩)
  | _ => none

/-- What the files of a unit declare. -/
def unitDeclarations? (files : List Node) : Option (List Declaration) :=
  (files.mapM fileDeclarations?).map List.flatten

/-- A declaration opens its file, or a statement of the file makes it. -/
theorem mem_unitDeclarations {declarations : List Declaration}
    (h : unitDeclarations? files = some declarations) {declaration : Declaration}
    (hmem : declaration ∈ declarations) :
    ∃ file ∈ files, ∃ body, file.kind = .file declaration.file body ∧
      (declaration.item = .nothing ∨
        ∃ statement ∈ body, Item.ofStatement? statement = some declaration.item) := by
  obtain ⟨lists, hls, rfl⟩ := Option.map_eq_some_iff.mp h
  obtain ⟨list, hl, hmem⟩ := List.mem_flatten.mp hmem
  obtain ⟨file, hf, hr⟩ := mem_of_forall₂ (mapM_eq_some_iff.mp hls) hl
  refine ⟨file, hf, ?_⟩
  unfold fileDeclarations? at hr
  split at hr
  · next name body hk =>
    obtain ⟨items, hit, rfl⟩ := Option.map_eq_some_iff.mp hr
    obtain ⟨item, hi, rfl⟩ := List.mem_map.mp hmem
    refine ⟨body, hk, ?_⟩
    rcases List.mem_cons.mp hi with rfl | hi
    · exact .inl rfl
    · exact .inr (mem_of_forall₂ (mapM_eq_some_iff.mp hit) hi)
  · cases hr

theorem unitDeclarations_admissible {declarations : List Declaration}
    (h : unitDeclarations? files = some declarations) :
    ∀ declaration ∈ declarations, declaration.item.Admissible := by
  intro declaration hmem
  obtain ⟨-, -, -, -, hi | ⟨statement, -, hs⟩⟩ := mem_unitDeclarations h hmem
  · rw [hi]
    trivial
  · exact Item.ofStatement?_admissible hs

/-! ## Names -/

/-- A name that can be declared once. -/
inductive Key where
  | ofClass (name : String)
  | ofBehaviour (name : String)
  | ofFunction (name : String)
  deriving DecidableEq

/-- The name that an item declares. -/
def Item.key? : Item → Option Key
  | .ofClass name .. => some (.ofClass name)
  | .ofBehaviour behaviour => some (.ofBehaviour behaviour.name)
  | .ofFunction function => some (.ofFunction function.name)
  | .nothing => none

/-- The names that declarations declare. -/
def keys (declarations : List Declaration) : List Key := declarations.filterMap (·.item.key?)

theorem mem_keys {declarations : List Declaration} {key : Key} :
    key ∈ keys declarations ↔ ∃ declaration ∈ declarations, declaration.item.key? = some key :=
  List.mem_filterMap

theorem keys_append (declarations more : List Declaration) :
    keys (declarations ++ more) = keys declarations ++ keys more := List.filterMap_append

/-- The scope knows the name. -/
def Scope.knows (scope : Scope) : Key → Bool
  | .ofClass name => scope.classes.binds name
  | .ofBehaviour name => scope.behaviours.binds name
  | .ofFunction name => scope.functions.binds name

/-- What the Global scope gets to know of an item of a file. -/
def Item.entries (file : ScopeId) (id : ClassId) : Item → Entries
  | .ofClass name .. => { classes := [(name, id)] }
  | .ofBehaviour behaviour => { behaviours := [behaviour] }
  | .ofFunction function => { functions := [{ function with home := some file }] }
  | .nothing => {}

theorem Scope.knows_declaring_item (scope : Scope) (file : ScopeId) (id : ClassId) (item : Item)
    (key : Key) :
    (scope.declaring (item.entries file id)).knows key = true ↔
      scope.knows key = true ∨ item.key? = some key := by
  cases item <;> cases key
  case ofClass.ofClass =>
    exact (Table.binds_append_singleton ..).trans (or_congr_right (by simp [Item.key?]))
  case ofBehaviour.ofBehaviour =>
    exact (Table.binds_append_singleton ..).trans (or_congr_right (by simp [Item.key?]))
  case ofFunction.ofFunction =>
    exact (Table.binds_append_singleton ..).trans (or_congr_right (by simp [Item.key?]))
  all_goals simp [Scope.knows, Scope.declaring, Item.entries, Item.key?]

namespace Store

variable {root : ScopeId} {store later last : Store}

/-! ## What a store has -/

/-- The store has the item of a file whose scope is `home`, up to links. -/
def Has (root : ScopeId) (store : Store) (home : ScopeId) : Item → Prop
  | .ofClass name parentName collected token =>
    ∃ id, (store.scope root).classes.get? name = some id ∧
      store.classAt id
        = { collected.toClass name parentName token (store.classAt id).sharedScope home with
            parent := (store.classAt id).parent } ∧
      store.scope (store.classAt id).sharedScope = { collected.toShared home with
            parent := (store.scope (store.classAt id).sharedScope).parent }
  | .ofBehaviour behaviour => (store.scope root).behaviours.get? behaviour.name = some behaviour
  | .ofFunction function =>
    (store.scope root).functions.get? function.name = some { function with home := some home }
  | .nothing => True

/-- What a store has, it keeps when it grows. -/
theorem Has.grows {home : ScopeId} (h : store.Has root home item) (hgr : store.Grounded root)
    (hg : store.Grows root later) :
    later.Has root home item := by
  cases item with
  | ofClass name parentName collected token =>
    obtain ⟨id, hget, hc, hs⟩ := h
    obtain ⟨hid, -⟩ := hgr.get?_class_iff.mp hget
    refine ⟨id, hg.get?_class hget, ?_⟩
    rw [hg.classes hid, hg.scopes (hgr.placed hid).inside (hgr.shared_ne_root hid)]
    exact ⟨hc, hs⟩
  | ofBehaviour behaviour => exact hg.get?_behaviour h
  | ofFunction function => exact hg.get?_function h
  | nothing => trivial

/-- What a store has does not depend on links. -/
theorem Has.relinked {home : ScopeId} (h : store.Has root home item)
    (hg : store.Grounded root) (hr : store.Relinked later) :
    later.Has root home item := by
  have hrt := hr.scope_root hg
  cases item with
  | ofClass name parentName collected token =>
    obtain ⟨id, hget, hc, hs⟩ := h
    refine ⟨id, hrt ▸ hget, ?_, ?_⟩
    · rw [hr.classes, hc]
      rfl
    · rw [hr.sharedScope, hr.scopes, hs]
  | ofBehaviour behaviour =>
    unfold Has
    rw [hrt]
    exact h
  | ofFunction function =>
    unfold Has
    rw [hrt]
    exact h
  | nothing => trivial

/-! ## Declared stores -/

/-- The scope of a file that nothing has happened in. -/
def newFileScope (root : ScopeId) : Scope := { kind := .file, parent := some (.strong root) }

/-- The later store knows what the former knows and what the declarations declare. -/
structure Declared (root : ScopeId) (store : Store) (declarations : List Declaration)
    (later : Store) : Prop where
  grounded : later.Grounded root
  grows : store.Grows root later
  knows : ∀ key, (later.scope root).knows key = true ↔
    (store.scope root).knows key = true ∨ key ∈ keys declarations
  has : ∀ declaration ∈ declarations, ∃ home,
    later.fileOf? root declaration.file = some home ∧ later.Has root home declaration.item
  files : ∀ name, later.fileOf? root name = none ↔
    store.fileOf? root name = none ∧ ∀ declaration ∈ declarations, declaration.file ≠ name
  newFiles : ∀ {name file}, store.fileOf? root name = none →
    later.fileOf? root name = some file → later.scope file = newFileScope root

namespace Declared

theorem refl (h : store.Grounded root) : store.Declared root [] store where
  grounded := h
  grows := .refl root store
  knows key := by simp [keys]
  has := by simp
  files name := by simp
  newFiles hn hs := by
    rw [hn] at hs
    cases hs

theorem trans {declarations more : List Declaration} (h : store.Declared root declarations later)
    (hn : later.Declared root more last) : store.Declared root (declarations ++ more) last where
  grounded := hn.grounded
  grows := h.grows.trans h.grounded hn.grows
  knows key := by
    rw [hn.knows, h.knows, keys_append, List.mem_append, or_assoc]
  has declaration hmem := by
    rcases List.mem_append.mp hmem with hfr | hnew
    · obtain ⟨home, hh, hhas⟩ := h.has declaration hfr
      exact ⟨home, hn.grows.fileOf?_eq hh, hhas.grows h.grounded hn.grows⟩
    · exact hn.has declaration hnew
  files name := by
    rw [hn.files, h.files, List.forall_mem_append, and_assoc]
  newFiles {name file} hu hf := by
    cases hl : later.fileOf? root name with
    | none => exact hn.newFiles hl hf
    | some former =>
      have hs := hf.symm.trans (hn.grows.fileOf?_eq hl)
      obtain rfl := Option.some.inj hs
      rw [hn.grows.scopes (h.grounded.files hl).1 (h.grounded.file_ne_root hl)]
      exact h.newFiles hu hl

/-- That the file is opened goes without saying. -/
theorem of_opened (h : store.Declared root ([⟨name, .nothing⟩] ++ [⟨name, item⟩]) later) :
    store.Declared root [⟨name, item⟩] later where
  grounded := h.grounded
  grows := h.grows
  knows := h.knows
  has declaration hmem := h.has declaration (List.mem_append_right _ hmem)
  files other := by
    rw [h.files]
    simp
  newFiles := h.newFiles

end Declared

/-! ## Single declarations -/

theorem scope_openFile (h : store.IsRoot root) (name : String) :
    (store.openFile root name).2.scope root = store.scope root ∨
      (store.openFile root name).2.scope root
        = (store.scope root).declaring { files := [(name, ⟨store.scopes.size⟩)] } := by
  unfold openFile
  split
  · exact .inl rfl
  · refine .inr ((scope_declare_self (h.addScope _) _).trans ?_)
    exact congrArg (Scope.declaring _) (scope_addScope_of_lt h.inside)

theorem knows_openFile (h : store.IsRoot root) (name : String) (key : Key) :
    ((store.openFile root name).2.scope root).knows key = (store.scope root).knows key := by
  rcases scope_openFile h name with hs | hs
  · rw [hs]
  · rw [hs]
    cases key <;> simp [Scope.knows, Scope.declaring]

theorem fileOf?_openFile (h : store.Grounded root) (name other : String) :
    (store.openFile root name).2.fileOf? root other = none ↔
      store.fileOf? root other = none ∧ name ≠ other := by
  unfold openFile
  split
  · next file hf =>
    constructor
    · intro ho
      refine ⟨ho, ?_⟩
      rintro rfl
      cases hf.symm.trans ho
    · exact And.left
  · obtain ⟨state, hst, -⟩ := h.state
    have hr : (store.newScope .file root).2.IsRoot root := h.isRoot.addScope _
    have hs : (store.newScope .file root).2.scope root = store.scope root :=
      scope_addScope_of_lt h.isRoot.inside
    have hsm : (store.newScope .file root).2.fileOf? root other = store.fileOf? root other := by
      unfold fileOf?
      rw [hs]
    refine Eq.congr_left (fileOf?_declare hr (hs ▸ hst) _ other) |>.trans ?_
    rw [hsm, Option.or_eq_none_iff]
    simp [Table.get?]

theorem declared_openFile (h : store.Grounded root) (name : String) :
    store.Declared root [⟨name, .nothing⟩] (store.openFile root name).2 where
  grounded := (h.openFile name).1
  grows := h.grows_openFile name
  knows key := by
    rw [knows_openFile h.isRoot]
    simp [keys, Item.key?]
  has declaration hmem := by
    obtain rfl := List.mem_singleton.mp hmem
    exact ⟨_, (h.openFile name).2, trivial⟩
  files other := by
    rw [fileOf?_openFile h]
    simp
  newFiles {other file} hu hf := by
    obtain rfl : name = other := by
      by_contra hne
      cases hf.symm.trans ((fileOf?_openFile h name other).mpr ⟨hu, hne⟩)
    have ho := (h.openFile name).2
    obtain rfl := Option.some.inj (hf.symm.trans ho)
    unfold openFile
    rw [hu]
    have hne : (⟨store.scopes.size⟩ : ScopeId) ≠ root := by
      rintro rfl
      exact Nat.lt_irrefl _ h.isRoot.inside
    exact (scope_declare_of_ne hne _).trans ((scope_addScope _ _ _).trans (if_pos rfl))

/-- An item can be declared if its name is new. -/
theorem exists_declareItem_iff (file : ScopeId) (item : Item) :
    (∃ later, store.declareItem root file item = some later) ↔
      ∀ key ∈ item.key?, (store.scope root).knows key = false := by
  cases item <;> simp [declareItem, Item.key?, Scope.knows]

theorem scope_declareItem (h : store.IsRoot root)
    (hd : store.declareItem root file item = some later) :
    later.scope root = (store.scope root).declaring (item.entries file ⟨store.classes.size⟩) := by
  cases item with
  | ofClass name parentName collected token =>
    dsimp only [declareItem] at hd
    split at hd
    · cases hd
    · obtain rfl := Option.some.inj hd
      have hr : (store.makeClass file name parentName collected token).2.IsRoot root := by
        refine ⟨?_, ?_⟩
        · rw [size_makeClass]
          exact Nat.lt_succ_of_lt h.inside
        · rw [scope_makeClass_of_lt h.inside]
          exact h.parent
      refine (scope_declare_self hr _).trans ?_
      rw [scope_makeClass_of_lt h.inside]
      rfl
  | ofBehaviour behaviour =>
    dsimp only [declareItem] at hd
    split at hd
    · cases hd
    · obtain rfl := Option.some.inj hd
      exact scope_declare_self h _
  | ofFunction function =>
    dsimp only [declareItem] at hd
    split at hd
    · cases hd
    · obtain rfl := Option.some.inj hd
      exact scope_declare_self h _
  | nothing =>
    obtain rfl := Option.some.inj hd
    exact (Scope.declaring_empty _).symm

/-- What has been declared, the store has. -/
theorem has_declareItem (h : store.Grounded root)
    (hd : store.declareItem root file item = some later) : later.Has root file item := by
  have hs := scope_declareItem h.isRoot hd
  have hu := (exists_declareItem_iff file item).mp ⟨later, hd⟩
  cases item with
  | ofClass name parentName collected token =>
    have hn : (store.scope root).classes.binds name = false := hu _ rfl
    dsimp only [declareItem] at hd
    rw [hn] at hd
    have hl := (Option.some.inj hd).symm
    have hne : (⟨store.scopes.size⟩ : ScopeId) ≠ root := by
      rintro rfl
      exact Nat.lt_irrefl _ h.isRoot.inside
    have hc : later.classAt ⟨store.classes.size⟩
        = collected.toClass name parentName token ⟨store.scopes.size⟩ file := by
      rw [hl]
      exact (classAt_makeClass ..).trans (if_pos rfl)
    have hsh : later.scope ⟨store.scopes.size⟩ = collected.toShared file := by
      rw [hl]
      exact (scope_declare_of_ne hne _).trans ((scope_makeClass ..).trans (if_pos rfl))
    have hp : (later.classAt ⟨store.classes.size⟩).sharedScope = ⟨store.scopes.size⟩ := by
      rw [hc]
      rfl
    refine ⟨⟨store.classes.size⟩, ?_, ?_, ?_⟩
    · rw [hs]
      exact Table.get?_append_new _ hn
    · rw [hc]
      rfl
    · rw [hp, hsh]
  | ofBehaviour behaviour =>
    unfold Has
    rw [hs]
    exact Table.get?_append_new _ (hu _ rfl)
  | ofFunction function =>
    unfold Has
    rw [hs]
    exact Table.get?_append_new _ (hu _ rfl)
  | nothing => trivial

/-- An item of a file that has been opened is declared. -/
theorem declared_item (h : store.Grounded root) (hf : store.fileOf? root name = some file)
    (hi : item.Admissible) (hd : store.declareItem root file item = some later) :
    store.Declared root [⟨name, item⟩] later := by
  obtain ⟨made, entries, hp, hl⟩ := h.prepares_item ⟨name, hf⟩ hi hd
  have hgr : later.Grounded root := hl ▸ hp.grounded h
  have hg : store.Grows root later := hl ▸ hp.grows h
  have hfl (other : String) : later.fileOf? root other = store.fileOf? root other :=
    hl ▸ hp.fileOf?_declare h other
  refine ⟨hgr, hg, fun key => ?_, fun declaration hmem => ?_, fun other => ?_,
    fun {other found} hu hfn => ?_⟩
  · rw [scope_declareItem h.isRoot hd, Scope.knows_declaring_item]
    simp [mem_keys]
  · obtain rfl := List.mem_singleton.mp hmem
    exact ⟨file, hg.fileOf?_eq hf, has_declareItem h hd⟩
  · rw [hfl]
    refine ⟨fun hn => ⟨hn, ?_⟩, And.left⟩
    simp only [List.forall_mem_singleton]
    rintro rfl
    cases hf.symm.trans hn
  · rw [hfl, hu] at hfn
    cases hfn

/-- Declare an item in its file, which is opened first. -/
def declareIn (root : ScopeId) (store : Store) (declaration : Declaration) : Option Store :=
  (store.openFile root declaration.file).2.declareItem root
    (store.openFile root declaration.file).1 declaration.item

theorem exists_declareIn_iff (h : store.IsRoot root) (declaration : Declaration) :
    (∃ later, store.declareIn root declaration = some later) ↔
      ∀ key ∈ declaration.item.key?, (store.scope root).knows key = false := by
  unfold declareIn
  rw [exists_declareItem_iff]
  simp only [knows_openFile h]

theorem declared_in (h : store.Grounded root) {declaration : Declaration}
    (hi : declaration.item.Admissible)
    (hd : store.declareIn root declaration = some later) :
    store.Declared root [declaration] later := by
  obtain ⟨ho, hf⟩ := h.openFile declaration.file
  exact ((declared_openFile h declaration.file).trans
    (declared_item ho hf hi hd)).of_opened

/-! ## All declarations of a unit -/

/-- Declare items one by one. -/
def declareAll (root : ScopeId) (store : Store) (declarations : List Declaration) :
    Option Store := declarations.foldlM (declareIn root) store

theorem declared_all (h : store.Grounded root) {declarations : List Declaration}
    (hit : ∀ declaration ∈ declarations, declaration.item.Admissible)
    (hd : store.declareAll root declarations = some later) :
    store.Declared root declarations later := by
  induction declarations generalizing store with
  | nil =>
    obtain rfl := Option.some.inj hd
    exact .refl h
  | cons declaration rest ih =>
    obtain ⟨hi, hr⟩ := List.forall_mem_cons.mp hit
    obtain ⟨next, hn, hd⟩ := Option.bind_eq_some_iff.mp
      (List.foldlM_cons.symm.trans hd)
    have hf := declared_in h hi hn
    exact hf.trans (ih hf.grounded hr hd)

/-- Items can be declared if their names differ and are new. -/
theorem exists_declareAll_iff (h : store.Grounded root) {declarations : List Declaration}
    (hit : ∀ declaration ∈ declarations, declaration.item.Admissible) :
    (∃ later, store.declareAll root declarations = some later) ↔
      (keys declarations).Nodup ∧
        ∀ key ∈ keys declarations, (store.scope root).knows key = false := by
  induction declarations generalizing store with
  | nil => simp [keys, declareAll]
  | cons declaration rest ih =>
    obtain ⟨hi, hr⟩ := List.forall_mem_cons.mp hit
    have hk : keys (declaration :: rest) = keys [declaration] ++ keys rest :=
      keys_append [declaration] rest
    have hs {key : Key} : key ∈ keys [declaration] ↔ key ∈ declaration.item.key? := by
      simp [mem_keys]
    have hsn : (keys [declaration]).Nodup := by
      cases hkey : declaration.item.key? <;> simp [keys, hkey]
    rw [hk, List.nodup_append]
    constructor
    · rintro ⟨later, hd⟩
      obtain ⟨next, hn, hd⟩ := Option.bind_eq_some_iff.mp
        (List.foldlM_cons.symm.trans hd)
      have hkn := (declared_in h hi hn).knows
      have hnew := (exists_declareIn_iff h.isRoot declaration).mp ⟨next, hn⟩
      obtain ⟨hnd, ho⟩ := (ih (declared_in h hi hn).grounded hr).mp ⟨later, hd⟩
      have hap {key : Key} (hkey : key ∈ keys rest) :
          (store.scope root).knows key = false ∧ key ∉ keys [declaration] := by
        have hu := ho key hkey
        rwa [← Bool.not_eq_true, hkn, not_or, Bool.not_eq_true] at hu
      refine ⟨⟨hsn, hnd, ?_⟩, fun key hkey => ?_⟩
      · rintro key hkey other hot rfl
        exact (hap hot).2 hkey
      · rcases List.mem_append.mp hkey with hkey | hkey
        · exact hnew key (hs.mp hkey)
        · exact (hap hkey).1
    · rintro ⟨⟨-, hnd, hap⟩, hnew⟩
      obtain ⟨hf, ho⟩ := List.forall_mem_append.mp hnew
      obtain ⟨next, hn⟩ := (exists_declareIn_iff h.isRoot declaration).mpr
        fun key hkey => hf key (hs.mpr hkey)
      have hdc := declared_in h hi hn
      have hu : ∀ key ∈ keys rest, (next.scope root).knows key = false := by
        intro key hkey
        rw [← Bool.not_eq_true, hdc.knows, not_or, Bool.not_eq_true]
        exact ⟨ho key hkey, fun hsm => hap key hsm key hkey rfl⟩
      obtain ⟨later, hd⟩ := (ih hdc.grounded hr).mpr ⟨hnd, hu⟩
      refine ⟨later, List.foldlM_cons.trans ?_⟩
      rw [hn]
      exact hd

/-! ## Units -/

/-- Once its file has been opened, an item can be declared right away. -/
theorem declareItems_eq (h : store.Grounded root) (hf : store.fileOf? root name = some file)
    {items : List Item} (hit : ∀ item ∈ items, item.Admissible) :
    store.declareAll root (items.map (⟨name, ·⟩)) = items.foldlM (declareItem root file) store := by
  induction items generalizing store with
  | nil => rfl
  | cons item rest ih =>
    obtain ⟨hi, hr⟩ := List.forall_mem_cons.mp hit
    have hin : store.declareIn root ⟨name, item⟩ = store.declareItem root file item := by
      unfold declareIn openFile
      rw [hf]
    unfold declareAll at ih ⊢
    rw [List.map_cons, List.foldlM_cons, List.foldlM_cons, hin]
    cases hdc : store.declareItem root file item with
    | none => rfl
    | some next =>
      have hd := declared_item h hf hi hdc
      exact ih hd.grounded (hd.grows.fileOf?_eq hf) hr

theorem declareFile_iff (h : store.Grounded root) (file : Node) :
    store.declareFile root file = some later ↔
      ∃ declarations, fileDeclarations? file = some declarations ∧
        store.declareAll root declarations = some later := by
  unfold declareFile
  split
  · next name body hk =>
    have hf? : fileDeclarations? file = (body.mapM Item.ofStatement?).map fun items =>
            (Item.nothing :: items).map (⟨name, ·⟩) := by
      unfold fileDeclarations?
      rw [hk]
    obtain ⟨ho, hf⟩ := h.openFile name
    have hfr : store.declareIn root ⟨name, .nothing⟩ = some (store.openFile root name).2 := rfl
    have hall {items : List Item} (hr : body.mapM Item.ofStatement? = some items) :
        store.declareAll root ((Item.nothing :: items).map (⟨name, ·⟩))
          = items.foldlM (declareItem root (store.openFile root name).1)
            (store.openFile root name).2 := by
      rw [← declareItems_eq ho hf fun item hit => ?_]
      · unfold declareAll
        rw [List.map_cons, List.foldlM_cons, hfr]
        rfl
      · obtain ⟨statement, -, hs⟩ := mem_of_forall₂ (mapM_eq_some_iff.mp hr) hit
        exact Item.ofStatement?_admissible hs
    rw [hf?]
    refine foldlM_read.trans ?_
    constructor
    · rintro ⟨items, hi, hfl⟩
      exact ⟨_, Option.map_eq_some_iff.mpr ⟨items, hi, rfl⟩, (hall hi).trans hfl⟩
    · rintro ⟨declarations, hd, hfl⟩
      obtain ⟨items, hi, rfl⟩ := Option.map_eq_some_iff.mp hd
      exact ⟨items, hi, (hall hi).symm.trans hfl⟩
  · next hot =>
    have hn : fileDeclarations? file = none := by
      unfold fileDeclarations?
      split
      · next name body hk => exact (hot name body hk).elim
      · rfl
    simp [hn]

theorem declareAll_append (declarations more : List Declaration) :
    store.declareAll root (declarations ++ more) = some last ↔
      ∃ between, store.declareAll root declarations = some between ∧
        between.declareAll root more = some last := by
  unfold declareAll
  rw [List.foldlM_append]
  exact Option.bind_eq_some_iff

theorem unitDeclarations_cons {file : Node} {declarations : List Declaration} :
    unitDeclarations? (file :: files) = some declarations ↔
      ∃ first others, fileDeclarations? file = some first ∧
        unitDeclarations? files = some others ∧ declarations = first ++ others := by
  unfold unitDeclarations?
  rw [List.mapM_cons]
  cases fileDeclarations? file <;> cases files.mapM fileDeclarations? <;> simp [eq_comm]

/-- A unit declares what its files declare, one by one. -/
theorem declareUnit_iff (h : store.Grounded root) :
    store.declareUnit root files = some later ↔
      ∃ declarations, unitDeclarations? files = some declarations ∧
        store.declareAll root declarations = some later := by
  induction files generalizing store with
  | nil => simp [declareUnit, declareAll, unitDeclarations?]
  | cons file rest ih =>
    unfold declareUnit at ih ⊢
    rw [List.foldlM_cons]
    constructor
    · intro hd
      obtain ⟨next, hn, hd⟩ := Option.bind_eq_some_iff.mp hd
      obtain ⟨first, hf, hin⟩ := (declareFile_iff h file).mp hn
      obtain ⟨others, ho, hr⟩ := (ih (h.declareFile hn)).mp hd
      exact ⟨_, unitDeclarations_cons.mpr ⟨first, others, hf, ho, rfl⟩,
        (declareAll_append _ _).mpr ⟨next, hin, hr⟩⟩
    · rintro ⟨declarations, hdc, hd⟩
      obtain ⟨first, others, hf, ho, rfl⟩ := unitDeclarations_cons.mp hdc
      obtain ⟨next, hin, hr⟩ := (declareAll_append _ _).mp hd
      have hn := (declareFile_iff h file).mpr ⟨first, hf, hin⟩
      refine Option.bind_eq_some_iff.mpr ⟨next, hn, ?_⟩
      exact (ih (h.declareFile hn)).mpr ⟨others, ho, hr⟩

end Store

end StepScript
