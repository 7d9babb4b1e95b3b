import StepScript.Host.Standard
import StepScript.Proofs.Registration.Items
import StepScript.Proofs.System.Growing
set_option autoImplicit false

/-!
# The order of declarations does not matter

A unit whose files, and whose statements within the files, stand in another order declares the same
items in another order (`Reorders.declarations`).  So it is accepted if the one is, and then every
name stands for the same thing (`Store.Alike`, `System.Grown.order_irrelevant`).
-/

namespace StepScript

variable {name : String} {id : ClassId}

/-! ## Reordered units -/

/-- The file with its statements in another order; anything else stays as it is. -/
inductive ReordersFile : Node → Node → Prop where
  | same (node : Node) : ReordersFile node node
  | statements {name : String} {body other : List Node} (token : Token) (perm : body.Perm other) :
      ReordersFile ⟨.file name body, token⟩ ⟨.file name other, token⟩

/-- The unit with its files, and the statements within them, in another order. -/
def Reorders (files others : List Node) : Prop :=
  ∃ between, files.Perm between ∧ List.Forall₂ ReordersFile between others

theorem ReordersFile.symm {file other : Node} (h : ReordersFile file other) :
    ReordersFile other file := by
  cases h with
  | same => exact .same _
  | statements token perm => exact .statements token perm.symm

theorem Reorders.symm {files others : List Node} (h : Reorders files others) :
    Reorders others files := by
  obtain ⟨between, hp, hfl⟩ := h
  obtain ⟨middle, hm, hls⟩ := List.perm_comp_forall₂ hp hfl
  exact ⟨middle, hls.symm, hm.flip.imp fun _ _ hf => hf.symm⟩

/-- Answers of items in another order. -/
theorem mapM_perm {α β : Type} {read : α → Option β} {items others : List α}
    (hp : items.Perm others) {answers : List β} (h : items.mapM read = some answers) :
    ∃ more, others.mapM read = some more ∧ answers.Perm more := by
  obtain ⟨more, hm, han⟩ := List.perm_comp_forall₂ hp.symm (mapM_eq_some_iff.mp h)
  exact ⟨more, mapM_eq_some_iff.mpr hm, han.symm⟩

theorem ReordersFile.declarations {file other : Node} (h : ReordersFile file other)
    {declarations : List Declaration} (hrd : fileDeclarations? file = some declarations) :
    ∃ more, fileDeclarations? other = some more ∧ declarations.Perm more := by
  cases h with
  | same => exact ⟨declarations, hrd, .refl _⟩
  | statements token perm =>
    obtain ⟨items, hi, rfl⟩ := Option.map_eq_some_iff.mp hrd
    obtain ⟨more, hm, hs⟩ := mapM_perm perm hi
    exact ⟨_, Option.map_eq_some_iff.mpr ⟨more, hm, rfl⟩, (hs.cons _).map _⟩

/-- A reordered unit makes the same declarations in another order. -/
theorem Reorders.declarations {files others : List Node} (h : Reorders files others)
    {declarations : List Declaration} (hrd : unitDeclarations? files = some declarations) :
    ∃ more, unitDeclarations? others = some more ∧ declarations.Perm more := by
  obtain ⟨between, hp, hfl⟩ := h
  obtain ⟨lists, hlt, rfl⟩ := Option.map_eq_some_iff.mp hrd
  obtain ⟨middle, hm, hs⟩ := mapM_perm hp hlt
  have hls : ∃ last, others.mapM fileDeclarations? = some last ∧
      List.Forall₂ List.Perm middle last := by
    rw [mapM_eq_some_iff] at hm
    clear hs hp
    induction hfl generalizing middle with
    | nil =>
      cases hm
      exact ⟨[], rfl, .nil⟩
    | cons hf _ ih =>
      obtain ⟨first, rest, hfr, hrs, rfl⟩ := List.forall₂_cons_left_iff.mp hm
      obtain ⟨more, hmr, hp⟩ := hf.declarations hfr
      obtain ⟨last, hls, hpr⟩ := ih rest hrs
      refine ⟨more :: last, ?_, .cons hp hpr⟩
      rw [mapM_eq_some_iff] at hls ⊢
      exact .cons hmr hls
  obtain ⟨last, hls, hpr⟩ := hls
  refine ⟨last.flatten, Option.map_eq_some_iff.mpr ⟨last, hls, rfl⟩, ?_⟩
  exact hs.flatten.trans (List.Perm.flatten_congr hpr)

/-- Options that both have values or both have none are related if their values are. -/
theorem rel_of_isSome_iff {α β : Type} {R : α → β → Prop} {one : Option α} {two : Option β}
    (hs : one.isSome = true ↔ two.isSome = true) (hb : ∀ a ∈ one, ∀ b ∈ two, R a b) :
    Option.Rel R one two := by
  cases one with
  | none =>
    cases two with
    | none => exact .none
    | some b => cases hs.mpr rfl
  | some a =>
    cases two with
    | none => cases hs.mp rfl
    | some b => exact .some (hb a rfl b rfl)

namespace Store

/-! ## Stores that are alike -/

/-- The scopes are those of one file. -/
def SameFile (root : ScopeId) (left right : Store) (home other : ScopeId) : Prop :=
  ∃ name, left.fileOf? root name = some home ∧ right.fileOf? root name = some other

/-- The scopes have the same place in the program. -/
inductive SamePlace (root : ScopeId) (left right : Store) : ScopeId → ScopeId → Prop where
  | root : SamePlace root left right root root
  | file {home other : ScopeId} (same : left.SameFile root right home other) :
      SamePlace root left right home other
  | shared {name : String} {id other : ClassId}
      (known : (left.scope root).classes.get? name = some id)
      (alsoKnown : (right.scope root).classes.get? name = some other) :
      SamePlace root left right (left.classAt id).sharedScope (right.classAt other).sharedScope

/-- A scope followed by those that enclose it. -/
inductive Chain (store : Store) : ScopeId → List ScopeId → Prop where
  | last {id : ScopeId} (ends : (store.scope id).parent = none) : Chain store id [id]
  | under {id parent : ScopeId} {chain : List ScopeId}
      (inside : (store.scope id).parent = some (.strong parent))
      (above : Chain store parent chain) : Chain store id (id :: chain)

/-- The classes are declared alike, in the same file. -/
structure SameDeclaration (root : ScopeId) (left right : Store) (id other : ClassId) : Prop where
  declared : right.classAt other = { left.classAt id with
        parent := (right.classAt other).parent
        sharedScope := (right.classAt other).sharedScope
        home := (right.classAt other).home }
  shared : right.scope (right.classAt other).sharedScope
    = { left.scope (left.classAt id).sharedScope with
        parent := (right.scope (right.classAt other).sharedScope).parent }
  home : left.SameFile root right (left.classAt id).home (right.classAt other).home

/-- The classes are declared alike and have the same place among the classes. -/
structure SameClass (root : ScopeId) (left right : Store) (id other : ClassId) : Prop
    extends left.SameDeclaration root right id other where
  parent : (right.classAt other).parent.map (fun parent => (right.classAt parent).name)
    = (left.classAt id).parent.map fun parent => (left.classAt parent).name
  chain : ∃ chain others, left.Chain (left.classAt id).sharedScope chain ∧
    right.Chain (right.classAt other).sharedScope others ∧
    List.Forall₂ (left.SamePlace root right) chain others

/-- The functions are declared alike, in the same file. -/
structure SameFunction (root : ScopeId) (left right : Store) (function other : Function) :
    Prop where
  declared : other = { function with home := other.home }
  home : Option.Rel (left.SameFile root right) function.home other.home

/-- Every name of the Global scope stands for the same in both stores, and the lists of
declarations differ in their order only. -/
structure Alike (root : ScopeId) (left right : Store) : Prop where
  objects : right.objects = left.objects
  classes : ∀ name, Option.Rel (left.SameClass root right)
    ((left.scope root).classes.get? name) ((right.scope root).classes.get? name)
  behaviours : ∀ name,
    (right.scope root).behaviours.get? name = (left.scope root).behaviours.get? name
  functions : ∀ name, Option.Rel (left.SameFunction root right)
    ((left.scope root).functions.get? name) ((right.scope root).functions.get? name)
  files : ∀ name, Option.Rel (fun home other => right.scope other = left.scope home)
    (left.fileOf? root name) (right.fileOf? root name)
  listed : ∃ state other, (left.scope root).state = some state ∧
    (right.scope root).state = some other ∧
    (state.classes.map fun id => (left.classAt id).name).Perm
      (other.classes.map fun id => (right.classAt id).name) ∧
    state.behaviours.Perm other.behaviours ∧
    other = { state with
      classes := other.classes
      behaviours := other.behaviours
      files := other.files }
  rest : right.scope root = { left.scope root with
        functions := (right.scope root).functions
        classes := (right.scope root).classes
        behaviours := (right.scope root).behaviours
        state := (right.scope root).state }

variable {root : ScopeId} {base declared after : Store} {declarations : List Declaration}

/-! ## One unit -/

/-- The declarations of a unit have been declared, and links have been set. -/
structure Settled (root : ScopeId) (base : Store) (declarations : List Declaration)
    (declared after : Store) : Prop where
  former : base.Grounded root
  adds : base.Declared root declarations declared
  links : declared.Relinked after

namespace Settled

variable (h : Settled root base declarations declared after)

include h

theorem scope_root : after.scope root = declared.scope root := h.links.scope_root h.adds.grounded

theorem fileOf?_eq (name : String) : after.fileOf? root name = declared.fileOf? root name :=
  h.links.fileOf?_eq h.adds.grounded name

theorem knows (key : Key) :
    (after.scope root).knows key = true ↔
      (base.scope root).knows key = true ∨ key ∈ keys declarations := by
  rw [h.scope_root]
  exact h.adds.knows key

theorem has {declaration : Declaration} (hmem : declaration ∈ declarations) :
    ∃ home, after.fileOf? root declaration.file = some home ∧
      after.Has root home declaration.item := by
  obtain ⟨home, hh, hhas⟩ := h.adds.has declaration hmem
  exact ⟨home, (h.fileOf?_eq _).trans hh, hhas.relinked h.adds.grounded h.links⟩

/-- The Global scope has entries behind those that it had. -/
theorem exists_entries : ∃ entries, after.scope root = (base.scope root).declaring entries := by
  obtain ⟨entries, he⟩ := h.adds.grows.entries
  exact ⟨entries, h.scope_root.trans he⟩

/-- A file that has been known keeps its scope. -/
theorem formerFile {file : ScopeId} (hf : base.fileOf? root name = some file) :
    after.fileOf? root name = some file ∧ after.scope file = base.scope file := by
  have hlt := h.adds.grows.fileOf?_eq hf
  refine ⟨(h.fileOf?_eq name).trans hlt, ?_⟩
  rw [h.links.scope_file h.adds.grounded hlt]
  exact h.adds.grows.scopes (h.former.files hf).1
    (h.former.file_ne_root hf)

/-- A file that has not been known has a new scope. -/
theorem newFile {file : ScopeId} (hu : base.fileOf? root name = none)
    (hf : after.fileOf? root name = some file) : after.scope file = newFileScope root := by
  rw [h.fileOf?_eq] at hf
  rw [h.links.scope_file h.adds.grounded hf]
  exact h.adds.newFiles hu hf

/-- A class that has been known stays what it is, up to links. -/
theorem formerClass (hget : (base.scope root).classes.get? name = some id) :
    (after.scope root).classes.get? name = some id ∧
      after.classAt id = { base.classAt id with parent := (after.classAt id).parent } ∧
      after.scope (base.classAt id).sharedScope = { base.scope (base.classAt id).sharedScope with
            parent := (after.scope (base.classAt id).sharedScope).parent } := by
  obtain ⟨hid, -⟩ := h.former.get?_class_iff.mp hget
  have hc := h.adds.grows.classes hid
  have hs := h.adds.grows.scopes (h.former.placed hid).inside
    (h.former.shared_ne_root hid)
  refine ⟨?_, ?_, ?_⟩
  · rw [h.scope_root]
    exact h.adds.grows.get?_class hget
  · rw [h.links.classes, hc]
  · rw [h.links.scopes, hs]

theorem formerFunction {function : Function}
    (hget : (base.scope root).functions.get? name = some function) :
    (after.scope root).functions.get? name = some function := by
  rw [h.scope_root]
  exact h.adds.grows.get?_function hget

theorem formerBehaviour {behaviour : Behaviour}
    (hget : (base.scope root).behaviours.get? name = some behaviour) :
    (after.scope root).behaviours.get? name = some behaviour := by
  rw [h.scope_root]
  exact h.adds.grows.get?_behaviour hget

end Settled

/-- Parents are known by the names that declarations give them. -/
theorem Registered.parent_name {store : Store} (h : store.Registered root)
    (hid : id.index < store.classes.size) :
    (store.classAt id).parent.map (fun parent => (store.classAt parent).name)
      = (store.classAt id).parentName := by
  have hln := h.linked.parents hid
  cases hpr : (store.classAt id).parent with
  | none => exact (hln.parent_eq_none_iff.mp hpr).symm
  | some parent => exact ((hln.parent_eq_some_iff h.grounded).mp hpr).2.symm

/-! ## Two orders of one unit -/

section Orders

variable {left right leftDeclared rightDeclared : Store} {others : List Declaration}
  (hl : Settled root base declarations leftDeclared left)
  (hr : Settled root base others rightDeclared right) (hp : declarations.Perm others)

include hl hr hp

theorem knows_iff (key : Key) :
    (left.scope root).knows key = true ↔ (right.scope root).knows key = true := by
  have hk : key ∈ keys declarations ↔ key ∈ keys others := (hp.filterMap _).mem_iff
  rw [hl.knows, hr.knows, hk]

/-- What is known has been known, or one of the declarations declares it in both orders. -/
theorem known_cases {key : Key} (h : (left.scope root).knows key = true) :
    (base.scope root).knows key = true ∨
      ∃ item name home other, item.key? = some key ∧ left.fileOf? root name = some home ∧
        right.fileOf? root name = some other ∧ left.Has root home item ∧
        right.Has root other item := by
  refine ((hl.knows key).mp h).imp_right fun hkey => ?_
  obtain ⟨declaration, hmem, hkey⟩ := mem_keys.mp hkey
  obtain ⟨home, hh, hhas⟩ := hl.has hmem
  obtain ⟨other, ho, hal⟩ := hr.has (hp.mem_iff.mp hmem)
  exact ⟨declaration.item, declaration.file, home, other, hkey, hh, ho, hhas, hal⟩

theorem sameDeclaration {id other : ClassId} (hid : (left.scope root).classes.get? name = some id)
    (ho : (right.scope root).classes.get? name = some other) :
    left.SameDeclaration root right id other := by
  have hk : (left.scope root).knows (.ofClass name) = true := by
    simp [Scope.knows, Table.binds, hid]
  rcases known_cases hl hr hp hk with
    hf | ⟨item, file, home, place, hkey, hh, hpl, hhas, hal⟩
  · obtain ⟨former, hf⟩ := Option.isSome_iff_exists.mp hf
    obtain ⟨hget, hc, hs⟩ := hl.formerClass hf
    obtain ⟨hget', hc', hs'⟩ := hr.formerClass hf
    have hpl : (left.classAt former).sharedScope = (base.classAt former).sharedScope := by
      rw [hc]
    have hpl' : (right.classAt former).sharedScope = (base.classAt former).sharedScope := by
      rw [hc']
    have hi := (hl.former.get?_class_iff.mp hf).1
    obtain ⟨file, hfl⟩ := (hl.former.placed hi).home
    obtain rfl := Option.some.inj (hget.symm.trans hid)
    obtain rfl := Option.some.inj (hget'.symm.trans ho)
    refine ⟨?_, ?_, file, ?_, ?_⟩
    · rw [hc', hc]
    · rw [hpl, hpl', hs', hs]
    · rw [hc]
      exact (hl.formerFile hfl).1
    · rw [hc']
      exact (hr.formerFile hfl).1
  · cases item with
    | ofClass found parentName collected token =>
      obtain rfl := Key.ofClass.inj (Option.some.inj hkey)
      obtain ⟨found, hfn, hc, hs⟩ := hhas
      obtain rfl := Option.some.inj (hid.symm.trans hfn)
      obtain ⟨found, hfn, hc', hs'⟩ := hal
      obtain rfl := Option.some.inj (ho.symm.trans hfn)
      refine ⟨?_, ?_, file, ?_, ?_⟩
      · rw [hc', hc]
        rfl
      · rw [hs', hs]
        rfl
      · rw [hc]
        exact hh
      · rw [hc']
        exact hpl
    | ofBehaviour behaviour => cases hkey
    | ofFunction function => cases hkey
    | nothing => cases hkey

theorem sameFunction {function other : Function}
    (hfn : (left.scope root).functions.get? name = some function)
    (ho : (right.scope root).functions.get? name = some other) :
    left.SameFunction root right function other := by
  have hk : (left.scope root).knows (.ofFunction name) = true := by
    simp [Scope.knows, Table.binds, hfn]
  rcases known_cases hl hr hp hk with
    hf | ⟨item, file, home, place, hkey, hh, hpl, hhas, hal⟩
  · obtain ⟨former, hf⟩ := Option.isSome_iff_exists.mp hf
    obtain ⟨-, home, hh, file, hfl⟩ := hl.former.functions _ (Table.mem_of_get? hf)
    obtain rfl := Option.some.inj ((hl.formerFunction hf).symm.trans hfn)
    obtain rfl := Option.some.inj ((hr.formerFunction hf).symm.trans ho)
    refine ⟨rfl, ?_⟩
    rw [hh]
    exact .some ⟨file, (hl.formerFile hfl).1, (hr.formerFile hfl).1⟩
  · cases item with
    | ofFunction declared =>
      obtain rfl := Key.ofFunction.inj (Option.some.inj hkey)
      obtain rfl := Option.some.inj (Eq.trans (Eq.symm hhas) hfn)
      obtain rfl := Option.some.inj (Eq.trans (Eq.symm hal) ho)
      exact ⟨rfl, .some ⟨file, hh, hpl⟩⟩
    | ofClass name parentName collected token => cases hkey
    | ofBehaviour behaviour => cases hkey
    | nothing => cases hkey

theorem behaviour_of_left {behaviour : Behaviour}
    (hb : (left.scope root).behaviours.get? name = some behaviour) :
    (right.scope root).behaviours.get? name = some behaviour := by
  have hk : (left.scope root).knows (.ofBehaviour name) = true := by
    simp [Scope.knows, Table.binds, hb]
  rcases known_cases hl hr hp hk with
    hf | ⟨item, _, _, _, hkey, _, _, hhas, hal⟩
  · obtain ⟨former, hf⟩ := Option.isSome_iff_exists.mp hf
    obtain rfl := Option.some.inj ((hl.formerBehaviour hf).symm.trans hb)
    exact hr.formerBehaviour hf
  · cases item with
    | ofBehaviour declared =>
      obtain rfl := Key.ofBehaviour.inj (Option.some.inj hkey)
      obtain rfl := Option.some.inj (Eq.trans (Eq.symm hhas) hb)
      exact hal
    | ofClass name parentName collected token => cases hkey
    | ofFunction function => cases hkey
    | nothing => cases hkey

theorem sameBehaviour (name : String) :
    (right.scope root).behaviours.get? name = (left.scope root).behaviours.get? name := by
  cases hget : (left.scope root).behaviours.get? name with
  | some behaviour => exact behaviour_of_left hl hr hp hget
  | none =>
    have hk := knows_iff hl hr hp (.ofBehaviour name)
    simpa [Scope.knows, Table.binds, hget] using hk

/-- Registration knows the same by name, whatever the order. -/
theorem registry_eq_of_perm : right.registry root = left.registry root := by
  have hc (name : String) : (right.registry root).class? name
      = (left.registry root).class? name := by
    have hrel : Option.Rel (left.SameDeclaration root right)
        ((left.scope root).classes.get? name) ((right.scope root).classes.get? name) :=
      rel_of_isSome_iff (knows_iff hl hr hp (.ofClass name)) fun id hid other ho =>
        sameDeclaration hl hr hp hid ho
    unfold registry
    dsimp only
    generalize (left.scope root).classes.get? name = one at hrel ⊢
    generalize (right.scope root).classes.get? name = two at hrel ⊢
    cases hrel with
    | none => rfl
    | some hs =>
      simp only [Option.map_some]
      rw [hs.declared]
      rfl
  have hb : (right.registry root).behaviour? = (left.registry root).behaviour? :=
    funext (sameBehaviour hl hr hp)
  exact congrArg₂ Registry.mk (funext hc) hb

omit hp in
theorem sameFileScope {home other : ScopeId} (hh : left.fileOf? root name = some home)
    (ho : right.fileOf? root name = some other) :
    right.scope other = left.scope home := by
  cases hf : base.fileOf? root name with
  | none => rw [hl.newFile hf hh, hr.newFile hf ho]
  | some former =>
    obtain ⟨hget, hs⟩ := hl.formerFile hf
    obtain ⟨hget', hs'⟩ := hr.formerFile hf
    obtain rfl := Option.some.inj (hget.symm.trans hh)
    obtain rfl := Option.some.inj (hget'.symm.trans ho)
    rw [hs, hs']

theorem fileOf?_isSome_iff (name : String) :
    (left.fileOf? root name).isSome = true ↔ (right.fileOf? root name).isSome = true := by
  rw [Option.isSome_iff_ne_none, Option.isSome_iff_ne_none, not_iff_not, hl.fileOf?_eq,
    hr.fileOf?_eq, hl.adds.files, hr.adds.files]
  simp only [hp.mem_iff]

end Orders

/-- The scopes around that of a file. -/
theorem Grounded.chain_file {store : Store} (h : store.Grounded root) {home : ScopeId}
    (hh : store.fileOf? root name = some home) :
    store.Chain home [home, root] :=
  .under (h.files hh).2.parent (.last h.isRoot.parent)

/-! ## Linked stores -/

section Links

variable {left right leftDeclared rightDeclared : Store} {others : List Declaration}
  (hl : Settled root base declarations leftDeclared left) (hone : left.Registered root)
  (hr : Settled root base others rightDeclared right) (htwo : right.Registered root)
  (hp : declarations.Perm others)

include hl hone hr htwo hp

theorem sameParent {id other : ClassId} (hid : (left.scope root).classes.get? name = some id)
    (ho : (right.scope root).classes.get? name = some other) :
    (right.classAt other).parent.map (fun parent => (right.classAt parent).name)
      = (left.classAt id).parent.map fun parent => (left.classAt parent).name := by
  have hs := (sameDeclaration hl hr hp hid ho).declared
  rw [htwo.parent_name (htwo.grounded.get?_class_iff.mp ho).1,
    hone.parent_name (hone.grounded.get?_class_iff.mp hid).1, hs]

/-- The shared scopes of a class and of its ancestors have the same places in both stores. -/
theorem sameChain {lineage : List ClassId} (hlg : left.Lineage id lineage) {other : ClassId}
    (hid : (left.scope root).classes.get? name = some id)
    (ho : (right.scope root).classes.get? name = some other) :
    ∃ chain others, left.Chain (left.classAt id).sharedScope chain ∧
      right.Chain (right.classAt other).sharedScope others ∧
      List.Forall₂ (left.SamePlace root right) chain others := by
  have hpr := sameParent hl hone hr htwo hp hid ho
  have hi := (hone.grounded.get?_class_iff.mp hid).1
  have hi' := (htwo.grounded.get?_class_iff.mp ho).1
  have hs := hone.linked.shared hi
  have hs' := htwo.linked.shared hi'
  unfold SharedLinked sharedParent at hs hs'
  induction hlg generalizing name other with
  | @last id hnn =>
    rw [hnn] at hs hpr
    rw [Option.map_none, Option.map_eq_none_iff] at hpr
    rw [hpr] at hs'
    obtain ⟨file, hh, hh'⟩ := (sameDeclaration hl hr hp hid ho).home
    refine ⟨_, _, .under hs (hone.grounded.chain_file hh),
      .under hs' (htwo.grounded.chain_file hh'), ?_⟩
    exact .cons (.shared hid ho) (.cons (.file ⟨file, hh, hh'⟩) (.cons .root .nil))
  | @under id parent chain hln above ih =>
    rw [hln] at hs hpr
    obtain ⟨parent', hln', hn⟩ := Option.map_eq_some_iff.mp hpr
    rw [hln'] at hs'
    have hk := ((hone.linked.parents hi).parent_eq_some_iff
      hone.grounded).mp hln
    have hk' := ((htwo.linked.parents hi').parent_eq_some_iff
      htwo.grounded).mp hln'
    have hget := hone.grounded.get?_class_iff.mpr ⟨hk.1, rfl⟩
    have hget' := htwo.grounded.get?_class_iff.mpr ⟨hk'.1, hn⟩
    obtain ⟨scopes, scopes', hsc, hsc', hsm⟩ := ih hget hget'
      (sameParent hl hone hr htwo hp hget hget') hk.1 hk'.1
      (hone.linked.shared hk.1) (htwo.linked.shared hk'.1)
    exact ⟨_, _, .under hs hsc, .under hs' hsc', .cons (.shared hid ho) hsm⟩

theorem sameClass {id other : ClassId} (hid : (left.scope root).classes.get? name = some id)
    (ho : (right.scope root).classes.get? name = some other) :
    left.SameClass root right id other := by
  have hi := (hone.grounded.get?_class_iff.mp hid).1
  obtain ⟨⟨lineage, hln⟩, -⟩ := ((registry_sound_iff hone.grounded
    hone.linked.parents).mp hone.sound).1 hi
  exact ⟨sameDeclaration hl hr hp hid ho,
    sameParent hl hone hr htwo hp hid ho,
    sameChain hl hone hr htwo hp hln hid ho⟩

theorem classNames_perm :
    ((left.scope root).classes.map (·.1)).Perm ((right.scope root).classes.map (·.1)) := by
  refine (List.perm_ext_iff_of_nodup hone.grounded.classNames
    htwo.grounded.classNames).mpr fun name => ?_
  have hk := knows_iff hl hr hp (.ofClass name)
  simp only [Scope.knows, Table.binds, Option.isSome_iff_ne_none, ne_eq,
    Table.not_mem_of_unbound, not_not] at hk
  exact hk

theorem behaviours_perm : (left.scope root).behaviours.Perm (right.scope root).behaviours := by
  have hn {store : Store} (h : store.Registered root) : (store.scope root).behaviours.Nodup :=
    List.Nodup.of_map _ h.grounded.behaviourNames
  refine (List.perm_ext_iff_of_nodup (hn hone) (hn htwo)).mpr ?_
  rintro ⟨name, behaviour⟩
  have hs := sameBehaviour hl hr hp name
  constructor
  · intro hmem
    exact Table.mem_of_get? (hs.trans (Table.get?_of_mem hone.grounded.behaviourNames hmem))
  · intro hmem
    exact Table.mem_of_get?
      (hs.symm.trans (Table.get?_of_mem htwo.grounded.behaviourNames hmem))

/-- Units that make the same declarations in another order leave stores that are alike. -/
theorem Settled.alike : left.Alike root right := by
  have hk := knows_iff hl hr hp
  obtain ⟨entries, he⟩ := hl.exists_entries
  obtain ⟨more, hm⟩ := hr.exists_entries
  obtain ⟨state, hs, hc, hb⟩ := hone.grounded.state
  obtain ⟨other, ho, hc', hb'⟩ := htwo.grounded.state
  obtain ⟨former, hfr, -⟩ := hl.former.state
  refine
    { objects := ?_
      classes := fun name => ?_
      behaviours := fun name => ?_
      functions := fun name => ?_
      files := fun name => ?_
      listed := ⟨state, other, hs, ho, ?_, ?_, ?_⟩
      rest := ?_ }
  · rw [hr.links.objects, hr.adds.grows.objects, hl.links.objects, hl.adds.grows.objects]
  · exact rel_of_isSome_iff (hk (.ofClass name)) fun id hid found hf =>
      sameClass hl hone hr htwo hp hid hf
  · exact sameBehaviour hl hr hp name
  · exact rel_of_isSome_iff (hk (.ofFunction name)) fun function hfn found hf =>
      sameFunction hl hr hp hfn hf
  · exact rel_of_isSome_iff (fileOf?_isSome_iff hl hr hp name)
      fun home hh found hf => sameFileScope hl hr hh hf
  · have hn := classNames_perm hl hone hr htwo hp
    rw [hone.grounded.classes, htwo.grounded.classes] at hn
    rw [hc, hc']
    simpa [Function.comp_def] using hn
  · have hsm := (behaviours_perm hl hone hr htwo hp).map (·.2)
    rw [hb, hb'] at hsm
    simpa [Function.comp_def] using hsm
  · rw [he, Scope.declaring, hfr] at hs
    rw [hm, Scope.declaring, hfr] at ho
    obtain rfl := Option.some.inj hs
    obtain rfl := Option.some.inj ho
    rfl
  · rw [he, hm]
    rfl

end Links

/-! ## Registering a reordered unit -/

variable {store : Store} {files others : List Node} {classes : List ClassId}

/-- What an accepted unit has declared is settled. -/
theorem settled_of_addUnit (h : store.Registered root)
    (hu : store.addUnit root files = (.ok classes, after)) :
    ∃ declarations declared, unitDeclarations? files = some declarations ∧
      Settled root store declarations declared after ∧ after.Registered root := by
  obtain ⟨declared, hd, hrl, hrg, -⟩ := (addUnit_ok_iff h).mp hu
  obtain ⟨declarations, hrd, hall⟩ := (declareUnit_iff h.grounded).mp hd
  have hdc := declared_all h.grounded (unitDeclarations_admissible hrd) hall
  exact ⟨declarations, declared, hrd, ⟨h.grounded, hdc, hrl⟩, hrg⟩

/-- Declarations that can be made in one order can be made in any other. -/
theorem exists_declareAll_of_perm (h : store.Grounded root) {more : List Declaration}
    (hi : ∀ declaration ∈ declarations, declaration.item.Admissible)
    (hp : declarations.Perm more)
    (hd : ∃ later, store.declareAll root declarations = some later) :
    ∃ later, store.declareAll root more = some later := by
  have hk : (keys declarations).Perm (keys more) := hp.filterMap _
  have hm : ∀ declaration ∈ more, declaration.item.Admissible := fun declaration hmem =>
    hi declaration (hp.mem_iff.mpr hmem)
  obtain ⟨hn, hf⟩ := (exists_declareAll_iff h hi).mp hd
  exact (exists_declareAll_iff h hm).mpr
    ⟨hk.nodup_iff.mp hn, fun key hkey => hf key (hk.mem_iff.mpr hkey)⟩

/-- A unit is accepted if a reordering of it is. -/
theorem exists_addUnit_of_reorders (h : store.Registered root) (hrr : Reorders files others)
    (hu : store.addUnit root files = (.ok classes, after)) :
    ∃ classes after, store.addUnit root others = (.ok classes, after) := by
  obtain ⟨declared, hd, hrl, hrg, -⟩ := (addUnit_ok_iff h).mp hu
  obtain ⟨declarations, hrd, hall⟩ := (declareUnit_iff h.grounded).mp hd
  obtain ⟨more, hm, hp⟩ := hrr.declarations hrd
  obtain ⟨later, hlt⟩ := exists_declareAll_of_perm h.grounded
    (unitDeclarations_admissible hrd) hp ⟨declared, hall⟩
  have hone := declared_all h.grounded (unitDeclarations_admissible hrd) hall
  have htwo := declared_all h.grounded (unitDeclarations_admissible hm) hlt
  -- No link has to be set to see that names fit together.
  have hs : later.registry root = declared.registry root :=
    registry_eq_of_perm ⟨h.grounded, hone, .refl _⟩ ⟨h.grounded, htwo, .refl _⟩ hp
  refine exists_addUnit h ((declareUnit_iff h.grounded).mpr ⟨more, hm, hlt⟩) ?_
  rw [hs, ← hrl.registry_eq hone.grounded]
  exact hrg.sound

/-- Accepted units that differ in their order leave stores that are alike. -/
theorem alike_of_reorders (h : store.Registered root) (hrr : Reorders files others)
    (hu : store.addUnit root files = (.ok classes, after)) {more : List ClassId} {last : Store}
    (ho : store.addUnit root others = (.ok more, last)) : after.Alike root last := by
  obtain ⟨declarations, declared, hrd, hs, hrg⟩ := settled_of_addUnit h hu
  obtain ⟨others, later, hot, hs', hrg'⟩ := settled_of_addUnit h ho
  obtain ⟨reordered, hre, hp⟩ := hrr.declarations hrd
  obtain rfl := Option.some.inj (hot.symm.trans hre)
  exact hs.alike hrg hs' hrg' hp

end Store

/-- Registration does not depend on the order of declarations.  Over every Global scope that units
and running code can lead to, a unit is accepted exactly if it is accepted with its files, and the
statements within them, in another order, and then every name stands for the same class, behaviour,
function or file. -/
theorem System.Grown.order_irrelevant {σ τ : Type} {host : Host σ τ} {system : System σ τ}
    (h : Grown host system) {files others : List Node} (hreorder : Reorders files others) :
    ((∃ classes after,
        system.store.addUnit system.program.root files = (.ok classes, after)) ↔
      ∃ classes after,
        system.store.addUnit system.program.root others = (.ok classes, after)) ∧
    ∀ {classes more : List ClassId} {after last : Store},
      system.store.addUnit system.program.root files = (.ok classes, after) →
      system.store.addUnit system.program.root others = (.ok more, last) →
      after.Alike system.program.root last := by
  have hregistered := h.inOrder.registered
  refine ⟨⟨?_, ?_⟩, fun hunit hother => Store.alike_of_reorders hregistered hreorder hunit hother⟩
  · rintro ⟨classes, after, hunit⟩
    exact Store.exists_addUnit_of_reorders hregistered hreorder hunit
  · rintro ⟨classes, after, hunit⟩
    exact Store.exists_addUnit_of_reorders hregistered hreorder.symm hunit

set_option maxRecDepth 20000 in
/-- In the one order everything is declared before it is used, and in the other nothing is. -/
theorem System.Grown.order_irrelevant_swapped :
    let system : System Unit Standard.Sleep := System.empty default { state := () }
    let base : Node := ⟨.classDecl "Base" none ⟨.block [], default⟩, default⟩
    let body : Node := ⟨.behaviourDecl "Body" ⟨.block [], default⟩, default⟩
    let heir : Node :=
      ⟨.classDecl "Heir" (some "Base") ⟨.block [⟨.hasBehaviour "Body", default⟩], default⟩, default⟩
    let files : List Node := [⟨.file "base" [base], default⟩, ⟨.file "heirs" [body, heir], default⟩]
    let others : List Node :=
      [⟨.file "heirs" [heir, body], default⟩, ⟨.file "base" [base], default⟩]
    Grown Standard.host system ∧ Reorders files others ∧ ∃ after more last,
      system.store.addUnit system.program.root files = (.ok [⟨0⟩, ⟨1⟩], after) ∧
        system.store.addUnit system.program.root others = (.ok more, last) ∧
        after.Alike system.program.root last := by
  intro system base body heir files others
  have hgrown : Grown Standard.host system := .empty _ _
  have hreorder : Reorders files others :=
    ⟨[⟨.file "heirs" [body, heir], default⟩, ⟨.file "base" [base], default⟩], .swap _ _ _,
      .cons (.statements _ (.swap _ _ _)) (.cons (.same _) .nil)⟩
  have hunit : (system.store.addUnit system.program.root files).1 = .ok [⟨0⟩, ⟨1⟩] := by cbv
  generalize hone : system.store.addUnit system.program.root files = one at hunit
  obtain ⟨answer, after⟩ := one
  obtain rfl : answer = .ok [⟨0⟩, ⟨1⟩] := hunit
  obtain ⟨haccepted, halike⟩ := hgrown.order_irrelevant hreorder
  obtain ⟨more, last, hother⟩ := haccepted.mp ⟨_, _, hone⟩
  exact ⟨hgrown, hreorder, after, more, last, rfl, hother, halike hone hother⟩

end StepScript
