import Mathlib
import StepScript.Host.Standard
import StepScript.Proofs.Registration.Members
import StepScript.Proofs.Safety.Registered
import StepScript.Proofs.System.Growing
set_option autoImplicit false

/-!
# What an accepted unit publishes

The Global scope gets one entry for each declaration of a file, behind those that it had
(`Store.addUnit_published`), and everything else stays as it was (`Store.Keeps`).
-/

namespace StepScript

/-! ## Entries -/

/-- What the Global scope gets to know of a declaration of a file. -/
inductive Published where
  | ofClass (name : String) (id : ClassId)
  | ofBehaviour (behaviour : Behaviour)
  | ofFunction (function : Function)

namespace Published

/-- The name that is published. -/
def key : Published → Key
  | .ofClass name _ => .ofClass name
  | .ofBehaviour behaviour => .ofBehaviour behaviour.name
  | .ofFunction function => .ofFunction function.name

/-- A class under its name. -/
def class? : Published → Option (String × ClassId)
  | .ofClass name id => some (name, id)
  | _ => none

/-- A behaviour. -/
def behaviour? : Published → Option Behaviour
  | .ofBehaviour behaviour => some behaviour
  | _ => none

/-- A function of a file. -/
def function? : Published → Option Function
  | .ofFunction function => some function
  | _ => none

/-- The entries of files and of what they publish. -/
def entries (files : Table ScopeId) (published : List Published) : Entries where
  files
  behaviours := published.filterMap behaviour?
  functions := published.filterMap function?
  classes := published.filterMap class?

theorem entries_append (files more : Table ScopeId) (published others : List Published) :
    (entries files published).append (entries more others)
      = entries (files ++ more) (published ++ others) := by
  simp [entries, Entries.append]

/-- The Global scope lists what is published. -/
def ListedIn (scope : Scope) : Published → Prop
  | .ofClass name id => scope.classes.get? name = some id
  | .ofBehaviour behaviour => scope.behaviours.get? behaviour.name = some behaviour
  | .ofFunction function => scope.functions.get? function.name = some function

end Published

theorem Item.exists_published (item : Item) (file : ScopeId) (id : ClassId) :
    ∃ published : Option Published,
      item.entries file id = Published.entries [] published.toList ∧
        published.map Published.key = item.key? := by
  cases item with
  | ofClass name parentName collected token => exact ⟨some (.ofClass name id), rfl, rfl⟩
  | ofBehaviour behaviour => exact ⟨some (.ofBehaviour behaviour), rfl, rfl⟩
  | ofFunction function => exact ⟨some (.ofFunction { function with home := some file }), rfl, rfl⟩
  | nothing => exact ⟨none, rfl, rfl⟩

namespace Store

variable {root : ScopeId} {store later declared after : Store}

theorem scope_declareIn (h : store.Grounded root) {declaration : Declaration}
    (hd : store.declareIn root declaration = some later) :
    ∃ (files : Table ScopeId) (published : Option Published),
      later.scope root = (store.scope root).declaring (Published.entries files published.toList) ∧
      published.map Published.key = declaration.item.key? ∧
      ∀ entry ∈ files, entry.1 = declaration.file := by
  have hs := scope_declareItem (h.openFile declaration.file).1.isRoot hd
  obtain ⟨published, he, hkey⟩ := declaration.item.exists_published
    (store.openFile root declaration.file).1
    ⟨(store.openFile root declaration.file).2.classes.size⟩
  rw [he] at hs
  rcases scope_openFile h.isRoot declaration.file with ho | ho
  · rw [ho] at hs
    exact ⟨[], published, hs, hkey, by simp⟩
  · refine ⟨[(declaration.file, ⟨store.scopes.size⟩)], published, ?_, hkey, by simp⟩
    rw [hs, ho, Scope.declaring_declaring]
    exact congrArg (Scope.declaring · _) (Published.entries_append _ [] [] _)

/-- The Global scope gets one entry for each name that is declared. -/
theorem scope_declareAll (h : store.Grounded root) {declarations : List Declaration}
    (hit : ∀ declaration ∈ declarations, declaration.item.Admissible)
    (hd : store.declareAll root declarations = some later) :
    ∃ (files : Table ScopeId) (published : List Published),
      later.scope root = (store.scope root).declaring (Published.entries files published) ∧
      List.Forall₂ (fun declaration entry => declaration.item.key? = some (Published.key entry))
        (declarations.filter (·.item.key?.isSome)) published ∧
      ∀ entry ∈ files, ∃ declaration ∈ declarations, declaration.file = entry.1 := by
  induction declarations generalizing store with
  | nil =>
    obtain rfl := Option.some.inj hd
    exact ⟨[], [], (Scope.declaring_empty _).symm, .nil, by simp⟩
  | cons declaration rest ih =>
    obtain ⟨hi, hr⟩ := List.forall_mem_cons.mp hit
    obtain ⟨next, hn, hd⟩ := Option.bind_eq_some_iff.mp
      (List.foldlM_cons.symm.trans hd)
    obtain ⟨files, published, hs, hkey, hf⟩ := scope_declareIn h hn
    obtain ⟨more, others, hlt, hot, hm⟩ := ih (declared_in h hi hn).grounded hr hd
    refine ⟨files ++ more, published.toList ++ others, ?_, ?_, fun entry he => ?_⟩
    · rw [hlt, hs, Scope.declaring_declaring, Published.entries_append]
    · cases published with
      | none => rwa [List.filter_cons_of_neg (by simp [← hkey])]
      | some entry =>
        rw [List.filter_cons_of_pos (by simp [← hkey])]
        exact .cons hkey.symm hot
    · rcases List.mem_append.mp he with hfr | hl
      · exact ⟨declaration, List.mem_cons_self, (hf entry hfr).symm⟩
      · obtain ⟨other, ho, hnm⟩ := hm entry hl
        exact ⟨other, List.mem_cons_of_mem _ ho, hnm⟩

/-- What the entries of the Global scope are made of is listed there. -/
theorem Grounded.listedIn (h : later.Grounded root) {files : Table ScopeId}
    {published : List Published}
    (hs : later.scope root = (store.scope root).declaring (Published.entries files published))
    {entry : Published} (he : entry ∈ published) : entry.ListedIn (later.scope root) := by
  cases entry with
  | ofClass name id =>
    refine Table.get?_of_mem h.classNames ?_
    rw [hs]
    exact List.mem_append_right _ (List.mem_filterMap.mpr ⟨_, he, rfl⟩)
  | ofBehaviour behaviour =>
    refine Table.get?_of_mem h.behaviourNames ?_
    rw [hs]
    refine List.mem_append_right _ (List.mem_map.mpr ⟨behaviour, ?_, rfl⟩)
    exact List.mem_filterMap.mpr ⟨_, he, rfl⟩
  | ofFunction function =>
    refine Table.get?_of_mem h.functionNames ?_
    rw [hs]
    refine List.mem_append_right _ (List.mem_map.mpr ⟨function, ?_, rfl⟩)
    exact List.mem_filterMap.mpr ⟨_, he, rfl⟩

/-! ## What has been there before -/

/-- Everything but the Global scope is as it was. -/
structure Keeps (root : ScopeId) (store later : Store) : Prop where
  objects : later.objects = store.objects
  released : later.released = store.released
  scopes : ∀ {id : ScopeId}, id.index < store.scopes.size → id ≠ root →
    later.scope id = store.scope id
  classes : ∀ {id : ClassId}, id.index < store.classes.size → later.classAt id = store.classAt id

namespace Grows

/-- Linking the new classes of a store leaves the earlier ones as they were. -/
theorem classAt_relinked (h : store.Grows root declared) (hs : store.Registered root)
    (hd : declared.Grounded root) (hr : declared.Relinked after)
    (haf : after.Registered root) {id : ClassId} (hid : id.index < store.classes.size) :
    after.classAt id = store.classAt id := by
  have hi : id.index < after.classes.size := by
    rw [hr.classesSize]
    exact Nat.lt_of_lt_of_le hid h.classesSize
  have hp : (after.classAt id).parent = (store.classAt id).parent := by
    rw [(haf.linked.parents hi).parent, ((hs.linked.parents hid).grows h).parent,
      hr.scope_root hd, hr.parentName, h.classes hid]
  rw [hr.classes, hp, h.classes hid]

theorem scope_relinked (h : store.Grows root declared) (hs : store.Registered root)
    (hd : declared.Grounded root) (hr : declared.Relinked after)
    (haf : after.Registered root) {id : ScopeId} (hid : id.index < store.scopes.size)
    (hne : id ≠ root) : after.scope id = store.scope id := by
  rw [← h.scopes hid hne]
  by_cases hsh : ∃ owner : ClassId, owner.index < declared.classes.size ∧
      (declared.classAt owner).sharedScope = id
  · -- The shared scopes of new classes are new, so it belongs to an earlier class.
    obtain ⟨owner, ho, rfl⟩ := hsh
    have hold : owner.index < store.classes.size := by
      by_contra hnew
      exact Nat.not_lt_of_le (h.fresh (Nat.le_of_not_lt hnew) ho).1 hid
    have hc := h.classAt_relinked hs hd hr haf hold
    have hsp : after.sharedParent (store.classAt owner)
        = store.sharedParent (store.classAt owner) := by
      unfold sharedParent
      cases hp : (store.classAt owner).parent with
      | none => rfl
      | some parent =>
        obtain ⟨hi, -⟩ := ((hs.linked.parents hold).parent_eq_some_iff hs.grounded).mp hp
        dsimp only
        rw [h.classAt_relinked hs hd hr haf hi]
    have hl := haf.linked.shared (hr.classesSize ▸ ho)
    have hb := hs.linked.shared hold
    unfold SharedLinked at hl hb
    rw [hc, hsp, ← hb] at hl
    rw [h.classes hold] at hid hne ⊢
    rw [hr.scopes, hl, h.scopes hid hne]
  · exact hr.kept fun {owner} ho heq => hsh ⟨owner, ho, heq⟩

theorem keeps (h : store.Grows root declared) (hs : store.Registered root)
    (hd : declared.Grounded root) (hr : declared.Relinked after)
    (haf : after.Registered root) : store.Keeps root after where
  objects := hr.objects.trans h.objects
  released := hr.released.trans h.released
  scopes := h.scope_relinked hs hd hr haf
  classes := h.classAt_relinked hs hd hr haf

end Grows

end Store

/-! ## Statements and what they publish -/

/-- The statements of the files of a unit, each with the name of its file. -/
def unitStatements (files : List Node) : List (String × Node) :=
  files.flatMap fun file =>
    match file.kind with
    | .file name body => body.map fun statement => (name, statement)
    | _ => []

theorem Item.IsOf.isSome_key {statement : Node} {item : Item} (h : item.IsOf statement) :
    item.key?.isSome = statement.kind.isDeclaration := by
  cases h with
  | ofClass hk _ => rw [hk]; rfl
  | ofBehaviour hk _ => rw [hk]; rfl
  | ofFunction hk _ => rw [hk]; rfl
  | nothing hk _ => rw [hk]; rfl

/-- The declaration is what the statement of the file declares. -/
def Declaration.IsOf (statement : String × Node) (declaration : Declaration) : Prop :=
  declaration.file = statement.1 ∧ declaration.item.IsOf statement.2

theorem forall₂_declarations {body : List Node} {items : List Item} (name : String)
    (h : List.Forall₂ (fun statement item => Item.ofStatement? statement = some item) body items) :
    List.Forall₂ Declaration.IsOf
      ((body.map fun statement => (name, statement)).filter (·.2.kind.isDeclaration))
      ((items.map (Declaration.mk name)).filter (·.item.key?.isSome)) := by
  induction h with
  | nil => exact .nil
  | @cons statement item body items hr _ ih =>
    have hi := Item.isOf_of_ofStatement? hr
    rw [List.map_cons, List.map_cons]
    cases hd : statement.kind.isDeclaration with
    | true =>
      rw [List.filter_cons_of_pos (by simp [hd]),
        List.filter_cons_of_pos (by simp [hi.isSome_key, hd])]
      exact .cons ⟨rfl, hi⟩ ih
    | false =>
      rw [List.filter_cons_of_neg (by simp [hd]),
        List.filter_cons_of_neg (by simp [hi.isSome_key, hd])]
      exact ih

/-- The declarations of a unit are those of its statements, apart from those that only open a
file. -/
theorem forall₂_unitDeclarations {files : List Node} {declarations : List Declaration}
    (h : unitDeclarations? files = some declarations) :
    List.Forall₂ Declaration.IsOf
      ((unitStatements files).filter (·.2.kind.isDeclaration))
      (declarations.filter (·.item.key?.isSome)) := by
  induction files generalizing declarations with
  | nil =>
    obtain rfl := Option.some.inj h
    exact .nil
  | cons file rest ih =>
    obtain ⟨first, others, hf, ho, rfl⟩ := Store.unitDeclarations_cons.mp h
    unfold unitStatements
    rw [List.flatMap_cons, List.filter_append, List.filter_append]
    refine List.rel_append ?_ (ih ho)
    unfold fileDeclarations? at hf
    split at hf
    · next name body hk =>
      obtain ⟨items, hi, rfl⟩ := Option.map_eq_some_iff.mp hf
      simp only [hk, List.map_cons]
      rw [List.filter_cons_of_neg (by simp [Item.key?])]
      exact forall₂_declarations name (mapM_eq_some_iff.mp hi)
    · cases hf

namespace Store

variable {root : ScopeId} {store after : Store}

/-- What is published is what the statement of the file declares, and has all the members that the
statements of its body declare, and no others. -/
inductive HasPublished (root : ScopeId) (store : Store) : String × Node → Published → Prop where
  | ofClass {file name : String} {statement body : Node} {parentName : Option String}
      {members : List Member} {collected : Collected} {home : ScopeId} {id : ClassId}
      (kind : statement.kind = .classDecl name parentName body)
      (declares : DeclareMembers name .ofClass body.statements members)
      (holds : collected.Holds members) (place : store.fileOf? root file = some home)
      (entry : store.classAt id
        = { collected.toClass name parentName statement.token (store.classAt id).sharedScope home
            with parent := parentName.bind (store.scope root).classes.get? })
      (shared : store.scope (store.classAt id).sharedScope = { collected.toShared home with
            parent := some (.strong (store.sharedParent (store.classAt id))) }) :
      HasPublished root store (file, statement) (.ofClass name id)
  | ofBehaviour {file name : String} {statement body : Node} {members : List Member}
      {collected : Collected} (kind : statement.kind = .behaviourDecl name body)
      (declares : DeclareMembers name .ofBehaviour body.statements members)
      (holds : collected.Holds members) :
      HasPublished root store (file, statement)
        (.ofBehaviour (collected.toBehaviour name statement.token))
  | ofFunction {file name : String} {statement : Node} {params : List Parameter}
      {body : Option Node} {native : Bool} {home : ScopeId}
      (kind : statement.kind = .functionDecl name params body false native)
      (place : store.fileOf? root file = some home) :
      HasPublished root store (file, statement)
        (.ofFunction
          { name, params, body, owner := none, home := some home, token := statement.token })

/-- What is listed under the name that a statement declares is what the statement declares. -/
theorem Registered.hasPublished (h : store.Registered root) {file : String} {statement : Node}
    {item : Item} {home : ScopeId} {published : Published} (hi : item.IsOf statement)
    (hpl : store.fileOf? root file = some home) (hhas : store.Has root home item)
    (hkey : item.key? = some published.key) (hl : published.ListedIn (store.scope root)) :
    store.HasPublished root (file, statement) published := by
  cases hi with
  | @ofClass name parentName body collected hk hc =>
    obtain ⟨id, hget, hcl, hs⟩ := hhas
    cases published with
    | ofClass other found =>
      obtain rfl := Key.ofClass.inj (Option.some.inj hkey)
      obtain rfl := Option.some.inj (hl.symm.trans hget)
      obtain ⟨hid, -⟩ := h.grounded.get?_class_iff.mp hget
      obtain ⟨-, members, hm, hh⟩ := Collected.ofBody_holds hc
      refine .ofClass hk hm hh hpl ?_ ?_
      · have hpn : (store.classAt found).parentName = parentName := by rw [hcl]; rfl
        have hp := (h.linked.parents hid).parent
        rw [hpn] at hp
        rwa [hp] at hcl
      · rw [hs, (h.linked.shared hid)]
    | ofBehaviour | ofFunction => cases hkey
  | @ofBehaviour name body collected hk hc =>
    cases published with
    | ofBehaviour found =>
      have hn := Key.ofBehaviour.inj (Option.some.inj hkey)
      have hl : (store.scope root).behaviours.get? found.name = some found := hl
      rw [← hn] at hl
      obtain rfl := Option.some.inj (hl.symm.trans hhas)
      obtain ⟨-, members, hm, hh⟩ := Collected.ofBody_holds hc
      exact .ofBehaviour hk hm hh
    | ofClass | ofFunction => cases hkey
  | @ofFunction name params body native hk hcd =>
    cases published with
    | ofFunction found =>
      have hn := Key.ofFunction.inj (Option.some.inj hkey)
      have hl : (store.scope root).functions.get? found.name = some found := hl
      rw [← hn] at hl
      obtain rfl := Option.some.inj (hl.symm.trans hhas)
      exact .ofFunction hk hpl
    | ofClass | ofBehaviour => cases hkey
  | nothing => cases hkey

end Store

/-- Relations along three lists, with what stands in the middle. -/
theorem forall₂_through {α β γ : Type} {first : α → β → Prop} {second : β → γ → Prop}
    {left : List α} {middle : List β} {right : List γ} (h : List.Forall₂ first left middle)
    (hn : List.Forall₂ second middle right) :
    List.Forall₂ (fun start last => last ∈ right ∧ ∃ between ∈ middle,
      first start between ∧ second between last) left right := by
  induction h generalizing right with
  | nil =>
    cases hn
    exact .nil
  | cons hf _ ih =>
    cases hn with
    | cons hs hr =>
      refine .cons ⟨List.mem_cons_self, _, List.mem_cons_self, hf, hs⟩ ?_
      refine (ih hr).imp fun start last => ?_
      rintro ⟨hl, between, hb, hbt⟩
      exact ⟨List.mem_cons_of_mem _ hl, between, List.mem_cons_of_mem _ hb, hbt⟩

namespace Store

variable {root : ScopeId} {store after : Store} {files : List Node} {classes : List ClassId}

/-- The unit leaves in the Global scope what its files declare, and nothing else is touched. -/
structure PublishesUnit (root : ScopeId) (store : Store) (files : List Node)
    (classes : List ClassId) (after : Store) : Prop where
  /-- Declarations stand on top of files and in bodies of classes and behaviours only. -/
  placed : files.flatMap Node.allDeclarations
    = (unitStatements files).flatMap fun statement => statement.2.ownDeclarations
  /-- One entry is published for each declaration of a file, behind the earlier ones. -/
  published : ∃ (newFiles : Table ScopeId) (published : List Published),
    after.scope root = (store.scope root).declaring (Published.entries newFiles published) ∧
    List.Forall₂ (after.HasPublished root)
      ((unitStatements files).filter (·.2.kind.isDeclaration)) published ∧
    published.filterMap Published.class? = classes.map (fun id => ((after.classAt id).name, id)) ∧
    ∀ entry ∈ newFiles, ∃ file ∈ files, ∃ body, file.kind = .file entry.1 body
  kept : store.Keeps root after
  /-- No registration is refused when the unit is published. -/
  unrefused : ∃ draft, (Draft.gather files).run.run { store, target := root } = (.ok (), draft) ∧
    draft.classes = classes ∧ draft.publishStrictly = .ok after

theorem addUnit_keeps (h : store.Registered root)
    (hu : store.addUnit root files = (.ok classes, after)) : store.Keeps root after := by
  obtain ⟨declared, hd, hr, haf, -⟩ := (addUnit_ok_iff h).mp hu
  have hg := h.grounded.grows_unit hd
  exact hg.keeps h (h.grounded.declareUnit hd) hr haf

theorem addUnit_published (h : store.Registered root)
    (hu : store.addUnit root files = (.ok classes, after)) :
    ∃ (newFiles : Table ScopeId) (published : List Published),
      after.scope root = (store.scope root).declaring (Published.entries newFiles published) ∧
      List.Forall₂ (after.HasPublished root)
        ((unitStatements files).filter (·.2.kind.isDeclaration)) published ∧
      published.filterMap Published.class? = classes.map (fun id => ((after.classAt id).name, id)) ∧
      ∀ entry ∈ newFiles, ∃ file ∈ files, ∃ body, file.kind = .file entry.1 body := by
  have hk := addUnit_keeps h hu
  obtain ⟨declared, hdl, hrl, haf, hc⟩ := (addUnit_ok_iff h).mp hu
  obtain ⟨declarations, hr, hall⟩ := (declareUnit_iff h.grounded).mp hdl
  have had := unitDeclarations_admissible hr
  have hd := declared_all h.grounded had hall
  obtain ⟨newFiles, published, hs, hp, hnf⟩ := scope_declareAll h.grounded had hall
  rw [← hrl.scope_root hd.grounded] at hs
  refine ⟨newFiles, published, hs, ?_, ?_, ?_⟩
  · refine (forall₂_through (forall₂_unitDeclarations hr) hp).imp ?_
    rintro ⟨file, statement⟩ entry ⟨he, declaration, hdc, ⟨rfl, hi⟩, hkey⟩
    obtain ⟨home, hh, hhas⟩ := hd.has declaration (List.mem_of_mem_filter hdc)
    rw [← hrl.fileOf?_eq hd.grounded] at hh
    exact haf.hasPublished hi hh (hhas.relinked hd.grounded hrl) hkey
      (haf.grounded.listedIn hs he)
  · -- Both are what the table of the later store has behind that of the former.
    have ht := haf.grounded.classes
    have her : store.allClasses.map (fun id => ((after.classAt id).name, id))
        = (store.scope root).classes := by
      rw [h.grounded.classes]
      refine List.map_congr_left fun id hid => ?_
      rw [hk.classes (mem_allClasses.mp hid)]
    rw [hs, hc, List.map_append, her] at ht
    exact List.append_cancel_left ht
  · intro entry he
    obtain ⟨declaration, hdc, hn⟩ := hnf entry he
    obtain ⟨file, hf, body, hkn, -⟩ := mem_unitDeclarations hr hdc
    exact ⟨file, hf, body, hn ▸ hkn⟩

theorem addUnit_unrefused (h : store.Registered root)
    (hu : store.addUnit root files = (.ok classes, after)) :
    ∃ draft, (Draft.gather files).run.run { store, target := root } = (.ok (), draft) ∧
      draft.classes = classes ∧ draft.publishStrictly = .ok after := by
  obtain ⟨draft, hg, rfl, rfl⟩ := addUnit_ok_iff_gather.mp hu
  obtain ⟨gathered, hf, -, rfl⟩ := (Draft.gather_ok_iff h).mp hg
  obtain ⟨hgt, -⟩ := Draft.run_files_ok h hf
  obtain ⟨hs, hp⟩ := hgt.completed_pending.1.publishes
  exact ⟨_, hg, rfl, hp ▸ hs⟩

/-- Every statement of a file that is read has been read as an item. -/
theorem exists_item {body : List Node} {items : List Item}
    (h : List.Forall₂ (fun statement item => Item.ofStatement? statement = some item) body items) :
    ∀ statement ∈ body, ∃ item, Item.IsOf statement item := by
  induction h with
  | nil => simp
  | cons hr _ ih => exact List.forall_mem_cons.mpr ⟨⟨_, Item.isOf_of_ofStatement? hr⟩, ih⟩

/-- In tidy files declarations stand on top and in bodies of classes and behaviours only. -/
theorem addUnit_placed (h : store.Registered root)
    (hu : store.addUnit root files = (.ok classes, after))
    (ht : ∀ file ∈ files, ∃ name nodes, file.kind = .file name nodes ∧
      ∀ node ∈ nodes, node.Tidy) :
    files.flatMap Node.allDeclarations
      = (unitStatements files).flatMap fun statement => statement.2.ownDeclarations := by
  obtain ⟨declared, hd, -, -, -⟩ := (addUnit_ok_iff h).mp hu
  obtain ⟨declarations, hr, -⟩ := (declareUnit_iff h.grounded).mp hd
  clear hd hu
  induction files generalizing declarations with
  | nil => rfl
  | cons file rest ih =>
    obtain ⟨⟨name, nodes, hk, hnd⟩, ht⟩ := List.forall_mem_cons.mp ht
    obtain ⟨first, others, hf, ho, rfl⟩ := unitDeclarations_cons.mp hr
    unfold unitStatements
    rw [List.flatMap_cons, List.flatMap_cons, List.flatMap_append]
    refine congrArg₂ _ ?_ (ih ht others ho)
    unfold fileDeclarations? at hf
    rw [hk] at hf ⊢
    obtain ⟨items, hit, rfl⟩ := Option.map_eq_some_iff.mp hf
    obtain ⟨kind, token⟩ := file
    obtain rfl : kind = .file name nodes := hk
    rw [Node.allDeclarations_of_plain rfl, NodeKind.innerDeclarations, nodesDeclarations_eq,
      List.flatMap_map]
    refine List.flatMap_congr fun node hn => ?_
    obtain ⟨item, hi⟩ := exists_item (mapM_eq_some_iff.mp hit) node hn
    exact (hnd node hn).declarations_eq hi

end Store

variable {σ τ : Type} {host : Host σ τ}

/-- An accepted unit publishes exactly what it declares.  Whatever has been registered and has run
before: wherever a declaration stands in the trees of the sources, it stands on top of a file or
directly in the body of a class or a behaviour, where it is allowed; each leaves exactly one entry
of its kind, in the Global scope or among the members of its owner, and there are no other new
entries; all that has been there before is left as it was; and no registration is refused while
the unit is published. -/
theorem System.Grown.publishes_exactly {system : System σ τ} (h : Grown host system)
    {sources : List Source} {code : Code} {after : Store}
    (hregister : Program.register system.store system.program.root sources = (.ok code, after)) :
    system.store.PublishesUnit system.program.root code.files code.classes after := by
  have hregistered := h.inOrder.registered
  unfold Program.register at hregister
  split at hregister
  · cases hregister
  · next files hparsed =>
    split at hregister
    · cases hregister
    · next classes store hunit =>
      cases hregister
      have htidy : ∀ file ∈ files, ∃ name nodes, file.kind = .file name nodes ∧
          ∀ node ∈ nodes, node.Tidy := by
        intro file hfile
        obtain ⟨source, -, hsource⟩ := mem_of_mapM_ok hparsed file hfile
        obtain ⟨nodes, hkind, hnodes⟩ := tidy_of_parseText hsource
        exact ⟨source.name, nodes, hkind, hnodes⟩
      exact
        { placed := Store.addUnit_placed hregistered hunit htidy
          published := Store.addUnit_published hregistered hunit
          kept := Store.addUnit_keeps hregistered hunit
          unrefused := Store.addUnit_unrefused hregistered hunit }

/-- A source with declarations of several kinds. -/
def memberSource : Source where
  name := "members"
  text := "behaviour B\nend\nfunction f(x)\nend\nclass A\nhas behaviour B\nupdate order pre\n"
    ++ "shared property n\nconstructor(x)\nn = x\nend\nend\n"

/-- The source is registered in an empty Global scope. -/
def memberAnswer : Except Error Code × Store :=
  Program.register (Store.newGlobal {}).2 (Store.newGlobal {}).1 [memberSource]

set_option maxRecDepth 20000 in
/-- The source is accepted, and publishes what it declares. -/
theorem System.Grown.publishes_exactly_members :
    ∃ code, memberAnswer.1 = .ok code ∧ code.classes = [⟨0⟩] ∧
      (Store.newGlobal {}).2.PublishesUnit (Store.newGlobal {}).1 code.files code.classes
        memberAnswer.2 := by
  have hclasses : memberAnswer.1.toOption.map (·.classes) = some [⟨0⟩] := by decide +kernel
  obtain ⟨code, hcode, hids⟩ := Option.map_eq_some_iff.mp hclasses
  have haccepted : memberAnswer.1 = .ok code := eq_ok_of_toOption hcode
  have hempty : Grown Standard.host (System.empty default { state := () }) := .empty _ _
  exact ⟨code, haccepted, hids, hempty.publishes_exactly (Prod.ext haccepted rfl)⟩

end StepScript
