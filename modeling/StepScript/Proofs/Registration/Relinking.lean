import StepScript.Proofs.Registration.Linking
set_option autoImplicit false

/-!
# Stores that differ in links only

Links between classes, and between their shared scopes, are set when all names are known.  Until
then a store has other links than it will have, but nothing that is declared depends on them:
declaring a unit does the same to both stores (`Store.Relinked.declareUnit`).  Once all classes
are linked, there is one way only in which they can be (`Store.Relinked.eq_of_linked`).
-/

namespace StepScript.Store

variable {root : ScopeId} {store later last : Store}

/-- The stores differ in the parents of classes and of their shared scopes only. -/
structure Relinked (store later : Store) : Prop where
  objects : later.objects = store.objects
  released : later.released = store.released
  size : later.scopes.size = store.scopes.size
  classesSize : later.classes.size = store.classes.size
  classes : ∀ id, later.classAt id = { store.classAt id with parent := (later.classAt id).parent }
  scopes : ∀ id, later.scope id = { store.scope id with parent := (later.scope id).parent }
  kept : ∀ {id : ScopeId}, (∀ {declared : ClassId}, declared.index < store.classes.size →
    (store.classAt declared).sharedScope ≠ id) → later.scope id = store.scope id

namespace Relinked

theorem refl (store : Store) : store.Relinked store :=
  ⟨rfl, rfl, rfl, rfl, fun _ => rfl, fun _ => rfl, fun _ => rfl⟩

section

variable (h : store.Relinked later)

include h

theorem sharedScope (id : ClassId) :
    (later.classAt id).sharedScope = (store.classAt id).sharedScope := by
  rw [h.classes]

theorem home (id : ClassId) : (later.classAt id).home = (store.classAt id).home := by
  rw [h.classes]

theorem name (id : ClassId) : (later.classAt id).name = (store.classAt id).name := by
  rw [h.classes]

theorem parentName (id : ClassId) :
    (later.classAt id).parentName = (store.classAt id).parentName := by
  rw [h.classes]

theorem heading (id : ClassId) : (later.classAt id).heading = (store.classAt id).heading := by
  rw [h.classes]
  rfl

theorem symm : later.Relinked store where
  objects := h.objects.symm
  released := h.released.symm
  size := h.size.symm
  classesSize := h.classesSize.symm
  classes id := by rw [h.classes id]
  scopes id := by rw [h.scopes id]
  kept {id} hid := by
    refine (h.kept fun {declared} hd => ?_).symm
    rw [← h.sharedScope]
    exact hid (h.classesSize ▸ hd)

theorem trans (hn : later.Relinked last) : store.Relinked last where
  objects := hn.objects.trans h.objects
  released := hn.released.trans h.released
  size := hn.size.trans h.size
  classesSize := hn.classesSize.trans h.classesSize
  classes id := by rw [hn.classes id, h.classes id]
  scopes id := by rw [hn.scopes id, h.scopes id]
  kept {id} hid := by
    refine (hn.kept fun {declared} hd => ?_).trans (h.kept hid)
    rw [h.sharedScope]
    exact hid (h.classesSize ▸ hd)

/-! ## The Global scope -/

theorem scope_root (hg : store.Grounded root) : later.scope root = store.scope root :=
  h.kept fun hid => hg.shared_ne_root hid

theorem fileOf?_eq (hg : store.Grounded root) (name : String) :
    later.fileOf? root name = store.fileOf? root name := by
  unfold fileOf?
  rw [h.scope_root hg]

theorem allClasses_eq : later.allClasses = store.allClasses := by
  unfold allClasses
  rw [h.classesSize]

section

variable (hg : store.Grounded root)

include hg

theorem scope_file {name : String} {file : ScopeId} (hf : store.fileOf? root name = some file) :
    later.scope file = store.scope file := by
  refine h.kept fun {declared} hd heq => ?_
  have hk := (hg.placed hd).kind
  rw [heq, (hg.files hf).2.kind] at hk
  cases hk

/-- The books do not say anything of links. -/
theorem grounded : later.Grounded root := by
  have hr := h.scope_root hg
  have hfo := h.fileOf?_eq hg
  have hh {home : ScopeId} (hs : store.IsHome root home) : later.IsHome root home := by
    obtain ⟨name, hn⟩ := hs
    exact ⟨name, (hfo name).trans hn⟩
  refine
    { isRoot := ⟨h.size ▸ hg.isRoot.inside, by rw [hr, hg.isRoot.parent]⟩
      kind := by rw [hr, hg.kind]
      files := ?_
      state := ?_
      classes := ?_
      classNames := hr ▸ hg.classNames
      behaviourNames := hr ▸ hg.behaviourNames
      functionNames := hr ▸ hg.functionNames
      functions := ?_
      placed := ?_
      apart := ?_
      elsewhere := ?_
      constructible := hr ▸ hg.constructible }
  · intro name file hf
    rw [hfo] at hf
    rw [h.size, h.scope_file hg hf]
    exact hg.files hf
  · rw [hr, h.allClasses_eq]
    exact hg.state
  · rw [hr, h.allClasses_eq, hg.classes]
    simp only [h.name]
  · rw [hr]
    intro entry he
    obtain ⟨hn, home, heh, hp⟩ := hg.functions entry he
    exact ⟨hn, home, heh, hh hp⟩
  · intro id hid
    obtain ⟨hi, hk, hp⟩ := hg.placed (h.classesSize ▸ hid)
    refine ⟨?_, ?_, ?_⟩
    · rw [h.size, h.sharedScope]
      exact hi
    · rw [h.sharedScope, h.scopes]
      exact hk
    · rw [h.home]
      exact hh hp
  · intro id other hid ho heq
    rw [h.sharedScope, h.sharedScope] at heq
    exact hg.apart (h.classesSize ▸ hid) (h.classesSize ▸ ho) heq
  · intro id hid
    rw [h.scopes]
    exact hg.elsewhere hid

/-- Registration knows the same by name. -/
theorem registry_eq : later.registry root = store.registry root := by
  unfold registry
  rw [h.scope_root hg]
  simp only [h.heading]

/-! ## Linked stores -/

theorem parent_eq (hs : store.Linked root) (hl : later.Linked root) {id : ClassId}
    (hid : id.index < store.classes.size) :
    (later.classAt id).parent = (store.classAt id).parent := by
  rw [(hs.parents hid).parent, (hl.parents (h.classesSize ▸ hid)).parent,
    h.scope_root hg, h.parentName]

theorem classes_eq (hs : store.Linked root) (hl : later.Linked root) :
    later.classes = store.classes := by
  refine Array.ext h.classesSize fun index hlf hr => ?_
  have hc := h.classes ⟨index⟩
  rw [h.parent_eq hg hs hl hr] at hc
  simpa [classAt, hlf, hr] using hc

theorem scopes_eq (hst : store.Linked root) (hlt : later.Linked root) :
    later.scopes = store.scopes := by
  have hca := classAt_congr (h.classes_eq hg hst hlt)
  have hsc (id : ScopeId) : later.scope id = store.scope id := by
    by_cases hs : ∃ declared : ClassId, declared.index < store.classes.size ∧
        (store.classAt declared).sharedScope = id
    · obtain ⟨declared, hd, rfl⟩ := hs
      have hp : (later.scope (store.classAt declared).sharedScope).parent
          = (store.scope (store.classAt declared).sharedScope).parent := by
        have hl := hlt.shared (h.classesSize ▸ hd)
        unfold SharedLinked sharedParent at hl
        simp only [hca] at hl
        exact hl.trans (hst.shared hd).symm
      rw [h.scopes, hp]
    · exact h.kept fun {declared} hd heq => hs ⟨declared, hd, heq⟩
  refine Array.ext h.size fun index hlf hr => ?_
  simpa [scope, hlf, hr] using hsc ⟨index⟩

/-- There is one way only to link the classes of a store. -/
theorem eq_of_linked (hs : store.Linked root) (hl : later.Linked root) : later = store := by
  have hsc := h.scopes_eq hg hs hl
  have hc := h.classes_eq hg hs hl
  obtain ⟨scopes, objects, classes, released⟩ := later
  obtain ⟨scopes', objects', classes', released'⟩ := store
  cases hsc
  cases hc
  cases h.objects
  cases h.released
  rfl

end

/-! ## Declarations -/

theorem addScope (scope : Scope) : (store.addScope scope).2.Relinked (later.addScope scope).2 where
  objects := h.objects
  released := h.released
  size := by rw [size_addScope, size_addScope, h.size]
  classesSize := h.classesSize
  classes := h.classes
  scopes id := by
    rw [scope_addScope, scope_addScope, h.size]
    split
    · rfl
    · exact h.scopes id
  kept {id} hid := by
    rw [scope_addScope, scope_addScope, h.size]
    split
    · rfl
    · exact h.kept hid

theorem addClass (declared : Class) :
    (store.addClass declared).2.Relinked (later.addClass declared).2 where
  objects := h.objects
  released := h.released
  size := h.size
  classesSize := by simp [Store.addClass, h.classesSize]
  classes id := by
    rw [classAt_addClass, classAt_addClass, h.classesSize]
    split
    · rfl
    · exact h.classes id
  scopes := h.scopes
  kept {id} hid := by
    refine h.kept fun {other} ho => ?_
    have hd := @hid other (by simpa [Store.addClass] using Nat.lt_succ_of_lt ho)
    rwa [classAt_addClass, if_neg (Nat.ne_of_lt ho)] at hd

theorem makeClass (file : ScopeId) (name : String) (parentName : Option String)
    (collected : Collected) (token : Token) :
    (store.makeClass file name parentName collected token).2.Relinked
      (later.makeClass file name parentName collected token).2 := by
  unfold Store.makeClass
  simp only [addScope_fst, h.size]
  exact (h.addScope _).addClass _

theorem declare (hr : later.scope root = store.scope root) (entries : Entries) :
    (store.declare root entries).Relinked (later.declare root entries) where
  objects := h.objects
  released := h.released
  size := by rw [size_declare, size_declare, h.size]
  classesSize := h.classesSize
  classes := h.classes
  scopes id := by
    unfold Store.declare
    rw [scope_modifyScope, scope_modifyScope, h.size, hr]
    split
    · rfl
    · exact h.scopes id
  kept {id} hid := by
    unfold Store.declare
    rw [scope_modifyScope, scope_modifyScope, h.size, hr]
    split
    · rfl
    · exact h.kept hid

section

variable (hg : store.Grounded root)

include hg

theorem openFile (name : String) :
    (later.openFile root name).1 = (store.openFile root name).1 ∧
      (store.openFile root name).2.Relinked (later.openFile root name).2 := by
  unfold Store.openFile
  rw [h.fileOf?_eq hg]
  split
  · exact ⟨rfl, h⟩
  · dsimp only [newScope, addScope_fst]
    rw [h.size]
    refine ⟨rfl, (h.addScope _).declare ?_ _⟩
    have hi := hg.isRoot.inside
    rw [scope_addScope_of_lt hi, scope_addScope_of_lt (h.size ▸ hi), h.scope_root hg]

theorem declareItem (file : ScopeId) (item : Item) :
    Option.Rel Relinked (store.declareItem root file item) (later.declareItem root file item) := by
  have hr := h.scope_root hg
  cases item with
  | ofClass name parentName collected token =>
    dsimp only [Store.declareItem]
    rw [hr]
    split
    · exact .none
    · have hi := hg.isRoot.inside
      have hid : (later.makeClass file name parentName collected token).1
          = (store.makeClass file name parentName collected token).1 :=
        congrArg ClassId.mk h.classesSize
      refine .some ?_
      rw [hid]
      refine (h.makeClass file name parentName collected token).declare ?_ _
      rw [scope_makeClass_of_lt hi, scope_makeClass_of_lt (h.size ▸ hi), hr]
  | ofBehaviour behaviour =>
    dsimp only [Store.declareItem]
    rw [hr]
    split
    · exact .none
    · exact .some (h.declare hr _)
  | ofFunction function =>
    dsimp only [Store.declareItem]
    rw [hr]
    split
    · exact .none
    · exact .some (h.declare hr _)
  | nothing => exact .some h

theorem declareStatement (file : ScopeId) (statement : Node) :
    Option.Rel Relinked (store.declareStatement root file statement)
      (later.declareStatement root file statement) := by
  unfold Store.declareStatement
  cases Item.ofStatement? statement with
  | none => exact .none
  | some item => exact h.declareItem hg file item

end

end

/-- Declarations one after the other do the same to both stores. -/
theorem foldlM {α : Type} {step : Store → α → Option Store} {items : List α}
    (keeps : Store → Prop)
    (hk : ∀ item ∈ items, ∀ {before after}, keeps before → step before item = some after →
      keeps after)
    (hs : ∀ item ∈ items, ∀ {before before'}, keeps before → before.Relinked before' →
      Option.Rel Relinked (step before item) (step before' item))
    (h : store.Relinked later) (hst : keeps store) :
    Option.Rel Relinked (items.foldlM step store) (items.foldlM step later) := by
  induction items generalizing store later with
  | nil => exact .some h
  | cons item rest ih =>
    have hf := hs item List.mem_cons_self hst h
    have hkp := @hk item List.mem_cons_self store
    rw [List.foldlM_cons, List.foldlM_cons]
    generalize step store item = next at hf hkp
    generalize step later item = next' at hf
    cases hf with
    | none => exact .none
    | some hn =>
      refine ih (fun other ho => hk other (List.mem_cons_of_mem _ ho))
        (fun other ho => hs other (List.mem_cons_of_mem _ ho)) hn ?_
      exact hkp hst rfl

theorem declareFile (h : store.Relinked later) (hg : store.Grounded root) (file : Node) :
    Option.Rel Relinked (store.declareFile root file) (later.declareFile root file) := by
  unfold Store.declareFile
  split
  · next name body hk =>
    obtain ⟨hs, hop⟩ := h.openFile hg name
    obtain ⟨ho, hf⟩ := hg.openFile name
    rw [hs]
    refine foldlM (fun between => between.Grounded root ∧
      between.IsHome root (store.openFile root name).1) ?_ ?_ hop ⟨ho, name, hf⟩
    · exact fun statement _ _ _ hb haf => hb.1.declareStatement hb.2 haf
    · exact fun statement _ _ _ hb hs => hs.declareStatement hb.1 _ statement
  · exact .none

/-- Declaring a unit does the same to stores that differ in links only. -/
theorem declareUnit (h : store.Relinked later) (hg : store.Grounded root)
    (files : List Node) :
    Option.Rel Relinked (store.declareUnit root files) (later.declareUnit root files) :=
  foldlM (·.Grounded root) (fun _ _ _ _ hb haf => hb.declareFile haf)
    (fun file _ _ _ hb hs => hs.declareFile hb file) h hg

end Relinked

end StepScript.Store
