import StepScript.Machine.Basic
import StepScript.Proofs.Store.Access
set_option autoImplicit false

/-!
# What running code leaves alone

Code that runs binds variables, makes scopes and objects, and works with the state of the
program.  It declares nothing: classes stay what they are, scopes keep their place and what they
declare, and a file that had no scope gets a new one (`Store.Evolves`).  Every operation of the
store that running code uses does no more than that.
-/

namespace StepScript

/-- The scope keeps its place and what it declares. -/
structure Scope.Keeps (scope later : Scope) : Prop where
  kind : later.kind = scope.kind
  parent : later.parent = scope.parent
  delegate : later.delegate = scope.delegate
  functions : later.functions = scope.functions
  classes : later.classes = scope.classes
  behaviours : later.behaviours = scope.behaviours
  state : ∀ {state}, scope.state = some state → ∃ state', later.state = some state' ∧
    state'.classes = state.classes ∧ state'.behaviours = state.behaviours

/-- The scope belongs to a file of the program with the Global scope `root`. -/
structure Scope.IsFile (root : ScopeId) (scope : Scope) : Prop where
  kind : scope.kind = .file
  parent : scope.parent = some (.strong root)
  delegate : scope.delegate = none

theorem Scope.Keeps.refl (scope : Scope) : scope.Keeps scope :=
  ⟨rfl, rfl, rfl, rfl, rfl, rfl, fun hs => ⟨_, hs, rfl, rfl⟩⟩

theorem Scope.Keeps.trans {scope later last : Scope} (h : scope.Keeps later)
    (hn : later.Keeps last) : scope.Keeps last where
  kind := hn.kind.trans h.kind
  parent := hn.parent.trans h.parent
  delegate := hn.delegate.trans h.delegate
  functions := hn.functions.trans h.functions
  classes := hn.classes.trans h.classes
  behaviours := hn.behaviours.trans h.behaviours
  state hs := by
    obtain ⟨state, hlt, hc, hb⟩ := h.state hs
    obtain ⟨last, hl, hc', hb'⟩ := hn.state hlt
    exact ⟨last, hl, hc'.trans hc, hb'.trans hb⟩

theorem Scope.IsFile.kept {root : ScopeId} {scope later : Scope} (h : scope.IsFile root)
    (hk : scope.Keeps later) : later.IsFile root :=
  ⟨hk.kind.trans h.kind, hk.parent.trans h.parent, hk.delegate.trans h.delegate⟩

namespace Store

/-- The file had no scope under the Global scope `root` in the former store, and has a new one
in the later store. -/
structure NewFile (store later : Store) (root : ScopeId) (name : String) (file : ScopeId) :
    Prop where
  unknown : store.fileOf? root name = none
  known : later.fileOf? root name = some file
  isNew : store.scopes.size ≤ file.index
  inside : file.index < later.scopes.size
  isFile : (later.scope file).IsFile root

/-- What running code can make of a store. -/
structure Evolves (store later : Store) : Prop where
  classes : later.classes = store.classes
  size : store.scopes.size ≤ later.scopes.size
  scopes : ∀ {id}, id.index < store.scopes.size → (store.scope id).Keeps (later.scope id)
  files : ∀ {id}, id.index < store.scopes.size → (store.scope id).state.isSome = true →
    ∀ name, later.fileOf? id name = store.fileOf? id name ∨
      ∃ file, NewFile store later id name file
  fresh : ∀ {id}, store.scopes.size ≤ id.index → (later.scope id).behaviours = []

variable {store later last : Store}

theorem scope_of_size_le {id : ScopeId} (h : store.scopes.size ≤ id.index) :
    store.scope id = default := by
  unfold Store.scope
  rw [Array.getElem?_eq_none h]
  rfl

/-! ## Sequences -/

namespace Evolves

theorem of_eq (hsc : later.scopes = store.scopes) (hc : later.classes = store.classes) :
    store.Evolves later := by
  have hs (id : ScopeId) : later.scope id = store.scope id := by
    unfold Store.scope
    rw [hsc]
  refine ⟨hc, hsc ▸ Nat.le_refl _, fun {id} _ => ?_, fun {id} _ _ name => ?_, fun {id} hid => ?_⟩
  · rw [hs]
    exact .refl _
  · unfold fileOf?
    exact .inl (by rw [hs])
  · rw [hs, scope_of_size_le hid]
    rfl

theorem refl (store : Store) : store.Evolves store := of_eq rfl rfl

theorem classAt (h : store.Evolves later) (id : ClassId) : later.classAt id = store.classAt id :=
  classAt_congr h.classes id

theorem state_isSome (h : store.Evolves later) {id : ScopeId}
    (hid : id.index < store.scopes.size) (hs : (store.scope id).state.isSome = true) :
    (later.scope id).state.isSome = true := by
  obtain ⟨state, hs⟩ := Option.isSome_iff_exists.mp hs
  obtain ⟨state', hl, -⟩ := (h.scopes hid).state hs
  exact Option.isSome_iff_exists.mpr ⟨state', hl⟩

theorem trans (h : store.Evolves later) (hn : later.Evolves last) : store.Evolves last where
  classes := hn.classes.trans h.classes
  size := Nat.le_trans h.size hn.size
  scopes hid := (h.scopes hid).trans (hn.scopes (Nat.lt_of_lt_of_le hid h.size))
  files {id} hid hs name := by
    have hid' : id.index < later.scopes.size := Nat.lt_of_lt_of_le hid h.size
    rcases hn.files hid' (h.state_isSome hid hs) name with hsm | ⟨file, hf⟩
    · rcases h.files hid hs name with hb | ⟨file, hf⟩
      · exact .inl (hsm.trans hb)
      · refine .inr ⟨file, hf.unknown, hsm.trans hf.known, hf.isNew, ?_, ?_⟩
        · exact Nat.lt_of_lt_of_le hf.inside hn.size
        · exact hf.isFile.kept (hn.scopes hf.inside)
    · rcases h.files hid hs name with hb | ⟨other, ho⟩
      · exact .inr ⟨file, hb ▸ hf.unknown, hf.known,
          Nat.le_trans h.size hf.isNew, hf.inside, hf.isFile⟩
      · cases ho.known.symm.trans hf.unknown
  fresh {id} hid := by
    by_cases hl : id.index < later.scopes.size
    · rw [(hn.scopes hl).behaviours, h.fresh hid]
    · exact hn.fresh (Nat.le_of_not_lt hl)

/-! ## Writing -/

theorem addScope {scope : Scope} (hs : scope.behaviours = []) :
    store.Evolves (store.addScope scope).2 where
  classes := rfl
  size := by simp
  scopes hid := by
    rw [scope_addScope_of_lt hid]
    exact .refl _
  files hid _ name := by
    unfold fileOf?
    exact .inl (by rw [scope_addScope_of_lt hid])
  fresh {id} hid := by
    rw [scope_addScope]
    split
    · exact hs
    · rw [scope_of_size_le hid]
      rfl

/-- A change of a scope that keeps its place, its declarations and its files. -/
theorem modifyScope (id : ScopeId) {change : Scope → Scope}
    (hk : ∀ scope : Scope, scope.Keeps (change scope))
    (hf : ∀ (scope : Scope) (state : GlobalState), scope.state = some state →
      (change scope).state.map (·.files) = some state.files) :
    store.Evolves (store.modifyScope id change) where
  classes := rfl
  size := by simp
  scopes {other} _ := by
    rw [scope_modifyScope]
    split
    · next heq => exact heq.1 ▸ hk _
    · exact .refl _
  files {other} ho hs name := by
    refine .inl ?_
    unfold fileOf?
    rw [scope_modifyScope]
    split
    · next heq =>
      rw [heq.1] at hs
      obtain ⟨state, hs⟩ := Option.isSome_iff_exists.mp hs
      obtain ⟨state', hs', hsm⟩ := Option.map_eq_some_iff.mp (hf _ _ hs)
      rw [heq.1, hs, hs', Option.bind_some, Option.bind_some, hsm]
    · rfl
  fresh {other} ho := by
    have hn : ¬ (other = id ∧ id.index < store.scopes.size) := by
      rintro ⟨rfl, hi⟩
      exact absurd hi (Nat.not_lt_of_le ho)
    rw [scope_modifyScope, if_neg hn, scope_of_size_le ho]
    rfl

theorem addObject (typeName : String) (serial : Nat) (object : Object) :
    store.Evolves (store.addObject typeName serial object).2 := of_eq rfl rfl

theorem modifyObject (ref : ObjectRef) (change : Object → Object) :
    store.Evolves (store.modifyObject ref change) := of_eq rfl rfl

theorem newTicket : store.Evolves store.newTicket.2 := of_eq rfl rfl

theorem releaseAll (tickets : List Ticket) : store.Evolves (tickets.foldl Store.release store) := by
  induction tickets generalizing store with
  | nil => exact refl store
  | cons ticket rest ih =>
    have hr : store.Evolves (store.release ticket) := of_eq rfl rfl
    exact hr.trans ih

theorem setOwn (id : ScopeId) (name : String) (value : Constant) :
    store.Evolves (store.setOwn id name value) :=
  modifyScope id (fun _ => ⟨rfl, rfl, rfl, rfl, rfl, rfl, fun hs => ⟨_, hs, rfl, rfl⟩⟩)
    fun _ _ hs => by simp [hs]

theorem setAllOwn (id : ScopeId) (values : Table Constant) :
    store.Evolves (store.setAllOwn id values) := by
  unfold Store.setAllOwn
  induction values generalizing store with
  | nil => exact refl store
  | cons entry rest ih => exact (setOwn id entry.1 entry.2).trans ih

theorem setVariable (held : Held) (id : ScopeId) (name : String) (value : Constant) :
    store.Evolves (store.setVariable held id name value) := setOwn ..

theorem setMember (held : Held) (id : ScopeId) (name : String) (value : Constant) :
    store.Evolves (store.setMember held id name value) := setOwn ..

theorem setObjects (scopes : List ScopeId) (object : ObjectRef) :
    store.Evolves (scopes.foldl (fun store scope => store.setObject scope object) store) := by
  induction scopes generalizing store with
  | nil => exact refl store
  | cons id rest ih =>
    refine trans (modifyScope id (fun _ => ?_) fun _ _ hs => ?_) ih
    · exact ⟨rfl, rfl, rfl, rfl, rfl, rfl, fun hs => ⟨_, hs, rfl, rfl⟩⟩
    · simp [hs]

theorem attach (id : ScopeId) (behaviour : ObjectRef) : store.Evolves (store.attach id behaviour) :=
  modifyScope id (fun _ => ⟨rfl, rfl, rfl, rfl, rfl, rfl, fun hs => ⟨_, hs, rfl, rfl⟩⟩)
    fun _ _ hs => by simp [hs]

/-- A new scope may get functions. -/
theorem setFunctions (h : store.Evolves later) {id : ScopeId}
    (hid : store.scopes.size ≤ id.index) (functions : Table Function) :
    store.Evolves (later.setFunctions id functions) := by
  have ho {other : ScopeId} (hi : other.index < store.scopes.size) :
      (later.setFunctions id functions).scope other = later.scope other := by
    refine scope_modifyScope_of_ne ?_ _
    rintro rfl
    exact Nat.not_lt_of_le hid hi
  have hp (other : ScopeId) :
      ((later.setFunctions id functions).scope other).kind = (later.scope other).kind ∧
        ((later.setFunctions id functions).scope other).parent = (later.scope other).parent ∧
        ((later.setFunctions id functions).scope other).delegate = (later.scope other).delegate ∧
        ((later.setFunctions id functions).scope other).behaviours
          = (later.scope other).behaviours := by
    unfold Store.setFunctions
    rw [scope_modifyScope]
    split
    · next heq =>
      rw [heq.1]
      exact ⟨rfl, rfl, rfl, rfl⟩
    · exact ⟨rfl, rfl, rfl, rfl⟩
  refine ⟨h.classes, ?_, fun hi => ?_, fun {place} hi hst name => ?_, fun hfr => ?_⟩
  · unfold Store.setFunctions
    rw [size_modifyScope]
    exact h.size
  · rw [ho hi]
    exact h.scopes hi
  · have hs : (later.setFunctions id functions).fileOf? place name = later.fileOf? place name := by
      unfold fileOf?
      rw [ho hi]
    rcases h.files hi hst name with hb | ⟨file, hf⟩
    · exact .inl (hs.trans hb)
    · refine .inr ⟨file, hf.unknown, hs.trans hf.known, hf.isNew, ?_, ?_⟩
      · unfold Store.setFunctions
        rw [size_modifyScope]
        exact hf.inside
      · obtain ⟨hk, hpr, hd, -⟩ := hp file
        exact ⟨hk.trans hf.isFile.kind, hpr.trans hf.isFile.parent, hd.trans hf.isFile.delegate⟩
  · rw [(hp _).2.2.2]
    exact h.fresh hfr

/-- The state of the program keeps what has been registered. -/
theorem withState {α : Type} (held : Held) (id : ScopeId) {use : GlobalState → α × GlobalState}
    (hc : ∀ state, (use state).2.classes = state.classes)
    (hb : ∀ state, (use state).2.behaviours = state.behaviours)
    (hf : ∀ state, (use state).2.files = state.files) :
    store.Evolves (store.withState held id use).2 := by
  have hw : (store.withState held id use).2 = store.modifyScope (store.root held id) (fun scope =>
        { scope with state := some (use (scope.state.getD {})).2 }) := modifyScope_congr rfl
  rw [hw]
  refine modifyScope _ (fun scope => ?_) fun scope state hs => ?_
  · refine ⟨rfl, rfl, rfl, rfl, rfl, rfl, fun {state} hs => ⟨_, rfl, ?_, ?_⟩⟩
    · rw [hs, Option.getD_some, hc]
    · rw [hs, Option.getD_some, hb]
  · simp [hs, hf]

theorem modifyState (held : Held) (id : ScopeId) {change : GlobalState → GlobalState}
    (hc : ∀ state, (change state).classes = state.classes)
    (hb : ∀ state, (change state).behaviours = state.behaviours)
    (hf : ∀ state, (change state).files = state.files) :
    store.Evolves (store.modifyState held id change) :=
  withState held id hc hb hf

end Evolves

/-! ## The scope of a file -/

variable {root : ScopeId}

variable (h : store.IsRoot root)

include h

theorem IsRoot.evolved (he : store.Evolves later) : later.IsRoot root :=
  ⟨Nat.lt_of_lt_of_le h.inside he.size, (he.scopes h.inside).parent.trans h.parent⟩

theorem fileOf?_addFile_self (name : String) (file : ScopeId) :
    (store.modifyScope root (·.addFile name file)).fileOf? root name = some file := by
  unfold fileOf?
  rw [scope_modifyScope_self h.inside]
  exact Table.get?_insert_self _ _ _

theorem fileOf?_addFile_of_ne {name other : String} (hne : other ≠ name) (file : ScopeId) :
    (store.modifyScope root (·.addFile name file)).fileOf? root other
      = store.fileOf? root other := by
  unfold fileOf?
  rw [scope_modifyScope_self h.inside]
  refine (Table.get?_insert_of_ne hne _ _).trans ?_
  cases (store.scope root).state with
  | none => rfl
  | some state => rfl

theorem Evolves.addFile {name : String} (hu : store.fileOf? root name = none) :
    store.Evolves ((store.newScope .file root).2.modifyScope root
      (·.addFile name ⟨store.scopes.size⟩)) := by
  have had : store.Evolves (store.newScope .file root).2 := .addScope rfl
  have hr := h.evolved had
  have ho {id : ScopeId} (hid : id ≠ root) :
      ((store.newScope .file root).2.modifyScope root (·.addFile name ⟨store.scopes.size⟩)).scope id
        = (store.newScope .file root).2.scope id := scope_modifyScope_of_ne hid _
  have hsz : (store.newScope .file root).2.scopes.size = store.scopes.size + 1 := by
    simp [newScope]
  have hne {id : ScopeId} (hid : store.scopes.size ≤ id.index) : id ≠ root := by
    rintro rfl
    exact absurd h.inside (Nat.not_lt_of_le hid)
  refine ⟨rfl, ?_, fun {id} hid => ?_, fun {id} hid hs other => ?_, fun {id} hid => ?_⟩
  · rw [size_modifyScope, hsz]
    exact Nat.le_succ _
  · by_cases hid' : id = root
    · subst hid'
      rw [scope_modifyScope_self hr.inside]
      refine (had.scopes hid).trans ⟨rfl, rfl, rfl, rfl, rfl, rfl, fun {state} hs => ?_⟩
      exact ⟨_, rfl, by rw [hs]; rfl, by rw [hs]; rfl⟩
    · rw [ho hid']
      exact had.scopes hid
  · by_cases hid' : id = root
    · subst hid'
      by_cases hn : other = name
      · subst hn
        refine .inr ⟨⟨store.scopes.size⟩, hu, fileOf?_addFile_self hr _ _, Nat.le_refl _, ?_, ?_⟩
        · rw [size_modifyScope, hsz]
          exact Nat.lt_succ_self _
        · have hf : (⟨store.scopes.size⟩ : ScopeId) ≠ id := hne (Nat.le_refl _)
          rw [ho hf, newScope, scope_addScope, if_pos rfl]
          exact ⟨rfl, rfl, rfl⟩
      · refine .inl ((fileOf?_addFile_of_ne hr hn _).trans ?_)
        unfold fileOf?
        rw [newScope, scope_addScope_of_lt hid]
    · unfold fileOf?
      rw [ho hid', newScope, scope_addScope_of_lt hid]
      exact .inl rfl
  · rw [ho (hne hid)]
    exact had.fresh hid

/-- A file that had no scope gets a new one under the Global scope. -/
theorem Evolves.fileScope (held : Held) (name : String) :
    store.Evolves (store.fileScope held root name).2 := by
  have hr : store.Evolves (store.existingFile? held root name).2 :=
    withState held root (fun _ => rfl) (fun _ => rfl) (fun _ => rfl)
  have hf : (store.existingFile? held root name).1
      = ((store.scope root).state.getD {}).files.get? name := by
    unfold existingFile? Store.withState
    rw [h.root_eq held]
  unfold Store.fileScope
  split
  · next file read heq =>
    rw [heq] at hr
    exact hr
  · next read heq =>
    rw [heq] at hr hf
    have hrt := h.evolved hr
    have hu : read.fileOf? root name = none := by
      have hr' : read = (store.existingFile? held root name).2 := by rw [heq]
      rw [hr']
      unfold existingFile? Store.withState fileOf?
      rw [h.root_eq held, scope_modifyScope_self h.inside]
      exact hf.symm
    refine hr.trans ?_
    rw [hrt.root_eq held]
    refine (congrArg _ ?_).mp (addFile hrt hu)
    exact ((hrt.evolved (.addScope rfl)).addFile_eq held name _).symm

end Store

end StepScript
