import StepScript.Proofs.Registration.Shown
set_option autoImplicit false

/-!
# A draft is published as it is shown

The names of a draft are new and differ from each other, so publishing the draft refuses none of
them: what is published is what the draft has shown (`Draft.Pending.publishes`).
-/

namespace StepScript

/-- Publish the declarations of a unit, up to the first that is refused. -/
def Draft.publishStrictly (draft : Draft) : Except Error Store := do
  let target := draft.target
  let store := draft.files.foldl
    (fun store file => store.addFile (fun _ => []) target file.1 file.2) draft.store
  let store ← draft.behaviours.foldlM (fun store => store.registerBehaviour target) store
  let store ← draft.functions.foldlM (fun store => store.registerFunction target) store
  draft.classes.foldlM (fun store => store.registerClass target) store

namespace Store

variable {store : Store} {root : ScopeId}

section Folds

variable {α : Type} (entries : List α → Entries) (IsFree : Store → List α → Prop)
  (hnil : entries [] = {})
  (hc : ∀ item rest, entries (item :: rest) = (entries [item]).append (entries rest))
  {items : List α} (h : IsFree store items)

include hnil hc h

/-- Declarations one after the other are one declaration, as long as each of them is free to be
made. -/
theorem foldl_declare {step : Store → α → Store}
    (hs : ∀ {store item rest}, IsFree store (item :: rest) →
      step store item = store.declare root (entries [item]) ∧
        IsFree (store.declare root (entries [item])) rest) :
    items.foldl step store = store.declare root (entries items) := by
  induction items generalizing store with
  | nil =>
    rw [hnil]
    exact (modifyScope_eq_self (Scope.declaring_empty _)).symm
  | cons item rest ih =>
    obtain ⟨hf, hr⟩ := hs h
    rw [List.foldl_cons, hf, ih hr, declare_declare, ← hc]

/-- Where no registration is refused, it does not matter what happens to a store that is refused
one. -/
theorem foldlM_declare {register : Store → α → Except Error Store}
    (hs : ∀ {store item rest}, IsFree store (item :: rest) →
      register store item = .ok (store.declare root (entries [item])) ∧
        IsFree (store.declare root (entries [item])) rest) :
    items.foldlM register store = .ok (store.declare root (entries items)) ∧
      items.foldl (fun store item => Draft.accepted store (register store item)) store
        = store.declare root (entries items) := by
  refine ⟨?_, foldl_declare entries IsFree hnil hc h fun hfr => ?_⟩
  · induction items generalizing store with
    | nil =>
      rw [hnil]
      exact congrArg Except.ok (modifyScope_eq_self (Scope.declaring_empty _)).symm
    | cons item rest ih =>
      obtain ⟨hf, hr⟩ := hs h
      rw [List.foldlM_cons, hf, hc item rest, ← declare_declare]
      exact ih hr
  · obtain ⟨hf, hr⟩ := hs hfr
    exact ⟨by rw [hf]; rfl, hr⟩

end Folds

/-- The files have no scopes yet. -/
structure FreeFiles (root : ScopeId) (store : Store) (files : Table ScopeId) : Prop where
  isRoot : store.IsRoot root
  state : ∃ state, (store.scope root).state = some state
  names : (files.map (·.1)).Nodup
  unknown : ∀ entry ∈ files, store.fileOf? root entry.1 = none

theorem FreeFiles.publish {files : Table ScopeId} (h : store.FreeFiles root files) :
    files.foldl (fun store file => store.addFile (fun _ => []) root file.1 file.2) store
      = store.declare root { files } := by
  refine foldl_declare (fun files => { files }) (FreeFiles root) rfl ?_ h ?_
  · intro file rest
    simp [Entries.append]
  · intro store file rest hf
    obtain ⟨state, hs⟩ := hf.state
    obtain ⟨hfl, hr⟩ := List.nodup_cons.mp hf.names
    refine ⟨?_, hf.isRoot.declare _, ?_, hr, fun other ho => ?_⟩
    · rw [hf.isRoot.addFile_eq]
      exact (declare_file_eq hs (hf.unknown file List.mem_cons_self) file.2).symm
    · rw [scope_declare_self hf.isRoot, Scope.declaring, hs]
      exact ⟨_, rfl⟩
    · have hne : file.1 ≠ other.1 := by
        intro heq
        exact hfl (List.mem_map.mpr ⟨other, ho, heq.symm⟩)
      rw [fileOf?_declare hf.isRoot hs, hf.unknown other (List.mem_cons_of_mem _ ho)]
      simp [Table.get?, hne]

/-- Names behind a table that are new and differ from each other. -/
theorem unbound_of_nodup {α : Type} {table more : Table α} {name : String} {entry : α}
    (h : ((table ++ (name, entry) :: more).map (·.1)).Nodup) : table.get? name = none := by
  refine Table.not_mem_of_unbound.mpr fun hmem => ?_
  rw [List.map_append] at h
  exact (List.nodup_append.mp h).2.2 name hmem name (by simp) rfl

/-- The behaviours have new names. -/
structure FreeBehaviours (root : ScopeId) (store : Store) (behaviours : List Behaviour) : Prop where
  isRoot : store.IsRoot root
  names : (((store.scope root).declaring { behaviours }).behaviours.map (·.1)).Nodup

theorem FreeBehaviours.publish {behaviours : List Behaviour}
    (h : store.FreeBehaviours root behaviours) :
    behaviours.foldlM (fun store => store.registerBehaviour root) store
        = .ok (store.declare root { behaviours }) ∧
      behaviours.foldl (fun store behaviour =>
          Draft.accepted store (store.registerBehaviour root behaviour)) store
        = store.declare root { behaviours } := by
  refine foldlM_declare (fun behaviours => { behaviours }) (FreeBehaviours root) rfl ?_ h ?_
  · intro behaviour rest
    simp [Entries.append]
  · intro store behaviour rest hf
    have hu := unbound_of_nodup hf.names
    refine ⟨?_, hf.isRoot.declare _, ?_⟩
    · unfold registerBehaviour
      rw [if_neg (by simp [Table.binds, hu])]
      refine congrArg Except.ok (modifyScope_congr ?_)
      rw [Table.insert_of_unbound _ hu]
      cases hs : (store.scope root).state <;> simp [Scope.declaring, Scope.declaringState, hs]
    · rw [scope_declare_self hf.isRoot, Scope.declaring_declaring]
      exact hf.names

/-- The functions have new names. -/
structure FreeFunctions (root : ScopeId) (store : Store) (functions : List Function) : Prop where
  isRoot : store.IsRoot root
  names : (((store.scope root).declaring { functions }).functions.map (·.1)).Nodup

theorem FreeFunctions.publish {functions : List Function}
    (h : store.FreeFunctions root functions) :
    functions.foldlM (fun store => store.registerFunction root) store
        = .ok (store.declare root { functions }) ∧
      functions.foldl (fun store function =>
          Draft.accepted store (store.registerFunction root function)) store
        = store.declare root { functions } := by
  refine foldlM_declare (fun functions => { functions }) (FreeFunctions root) rfl ?_ h ?_
  · intro function rest
    simp [Entries.append]
  · intro store function rest hf
    have hu := unbound_of_nodup hf.names
    refine ⟨?_, hf.isRoot.declare _, ?_⟩
    · unfold registerFunction
      rw [if_neg (by simp [Table.binds, hu])]
      refine congrArg Except.ok (modifyScope_congr ?_)
      rw [Table.insert_of_unbound _ hu]
      cases hs : (store.scope root).state <;> simp [Scope.declaring, Scope.declaringState, hs]
    · rw [scope_declare_self hf.isRoot, Scope.declaring_declaring]
      exact hf.names

/-- The classes have new names. -/
structure FreeClasses (root : ScopeId) (names : ClassId → String) (store : Store)
    (classes : List ClassId) : Prop where
  isRoot : store.IsRoot root
  named : ∀ id, (store.classAt id).name = names id
  fresh : (((store.scope root).classes ++ classes.map fun id => (names id, id)).map (·.1)).Nodup

theorem FreeClasses.publish {names : ClassId → String} {classes : List ClassId}
    (h : store.FreeClasses root names classes) :
    classes.foldlM (fun store => store.registerClass root) store
        = .ok (store.declare root { classes := classes.map fun id => (names id, id) }) ∧
      classes.foldl (fun store id => Draft.accepted store (store.registerClass root id)) store
        = store.declare root { classes := classes.map fun id => (names id, id) } := by
  refine foldlM_declare (fun classes => { classes := classes.map fun id => (names id, id) })
    (FreeClasses root names) rfl ?_ h ?_
  · intro id rest
    simp [Entries.append]
  · intro store id rest hf
    have hu := unbound_of_nodup hf.fresh
    refine ⟨?_, hf.isRoot.declare _, hf.named, ?_⟩
    · unfold registerClass
      simp only [hf.named]
      rw [if_neg (by simp [Table.binds, hu])]
      refine congrArg Except.ok (modifyScope_congr ?_)
      rw [Table.insert_of_unbound _ hu]
      cases hs : (store.scope root).state <;> simp [Scope.declaring, Scope.declaringState, hs]
    · rw [scope_declare_self hf.isRoot, Scope.declaring, List.append_assoc]
      exact hf.fresh

end Store

/-- A draft is published as it is shown, and none of it is refused. -/
theorem Draft.Pending.publishes {draft : Draft} {root : ScopeId} (h : draft.Pending root) :
    draft.publishStrictly = .ok draft.shown ∧ draft.publish = draft.shown := by
  have hr := h.isRoot
  have hc := h.grounded.classNames
  have hb := h.grounded.behaviourNames
  have hfn := h.grounded.functionNames
  rw [h.scope_root] at hc hb hfn
  obtain rfl := h.target
  unfold Draft.publishStrictly Draft.publish
  dsimp only
  have hfl : draft.store.FreeFiles draft.target draft.files :=
    ⟨hr, h.exists_state, h.fileNames, h.newFiles⟩
  rw [hfl.publish]
  have hf : (draft.store.declare draft.target { files := draft.files }).FreeBehaviours
      draft.target draft.behaviours := by
    refine ⟨hr.declare _, ?_⟩
    rw [Store.scope_declare_self hr]
    simpa [Scope.declaring, entries] using hb
  obtain ⟨hs, hp⟩ := hf.publish
  rw [hs, hp, Store.declare_declare]
  dsimp only [bind, Except.bind]
  have hf : (draft.store.declare draft.target
      (Entries.append { files := draft.files } { behaviours := draft.behaviours })).FreeFunctions
      draft.target draft.functions := by
    refine ⟨hr.declare _, ?_⟩
    rw [Store.scope_declare_self hr]
    simpa [Scope.declaring, entries, Entries.append] using hfn
  obtain ⟨hs, hp⟩ := hf.publish
  rw [hs, hp, Store.declare_declare]
  dsimp only [bind, Except.bind]
  have hf : (draft.store.declare draft.target
      ((Entries.append { files := draft.files } { behaviours := draft.behaviours }).append
        { functions := draft.functions })).FreeClasses
      draft.target (fun id => (draft.store.classAt id).name) draft.classes := by
    refine ⟨hr.declare _, fun _ => rfl, ?_⟩
    rw [Store.scope_declare_self hr]
    simpa [Scope.declaring, entries, Entries.append] using hc
  obtain ⟨hs, hp⟩ := hf.publish
  rw [hs, hp, Store.declare_declare]
  simp [Draft.shown, Entries.append, entries]

end StepScript
