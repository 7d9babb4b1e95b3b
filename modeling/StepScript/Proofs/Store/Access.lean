import StepScript.Store.Lookup
set_option autoImplicit false

/-!
# Reading what has been written

What the scopes, objects and classes of a store are after it has been written to.  A place
that does not exist reads as an empty scope, object or class, before and after.
-/

namespace StepScript

/-- The scope with one more file in its state. -/
def Scope.addFile (scope : Scope) (name : String) (file : ScopeId) : Scope :=
  { scope with
    state := some { scope.state.getD {} with
      files := (scope.state.getD {}).files.insert name file } }

namespace Store

variable {store : Store}

/-- The scope of a file. -/
def fileOf? (store : Store) (root : ScopeId) (name : String) : Option ScopeId :=
  (store.scope root).state.bind fun state => state.files.get? name

/-- The scope is the end of its chain. -/
structure IsRoot (root : ScopeId) (store : Store) : Prop where
  inside : root.index < store.scopes.size
  parent : (store.scope root).parent = none

theorem classAt_of_size_le {id : ClassId} (h : store.classes.size ≤ id.index) :
    store.classAt id = default := by
  unfold Store.classAt
  rw [Array.getElem?_eq_none h]
  rfl

theorem classAt_congr {later : Store} (h : later.classes = store.classes) (id : ClassId) :
    later.classAt id = store.classAt id := by
  unfold Store.classAt
  rw [h]

/-! ## New entries -/

@[simp] theorem addScope_fst (store : Store) (scope : Scope) :
    (store.addScope scope).1 = ⟨store.scopes.size⟩ := rfl

@[simp] theorem size_addScope (store : Store) (scope : Scope) :
    (store.addScope scope).2.scopes.size = store.scopes.size + 1 := by
  simp [addScope]

theorem scope_addScope (store : Store) (scope : Scope) (id : ScopeId) :
    (store.addScope scope).2.scope id
      = if id.index = store.scopes.size then scope else store.scope id := by
  unfold Store.scope addScope
  dsimp only
  rw [Array.getElem?_push]
  split <;> rfl

/-- A new scope leaves the others as they are. -/
theorem scope_addScope_of_lt {scope : Scope} {id : ScopeId}
    (h : id.index < store.scopes.size) : (store.addScope scope).2.scope id = store.scope id := by
  rw [scope_addScope, if_neg (Nat.ne_of_lt h)]

theorem object_addObject (store : Store) (typeName : String) (serial : Nat) (object : Object)
    (ref : ObjectRef) :
    (store.addObject typeName serial object).2.object ref
      = if ref.key = store.objects.size then object else store.object ref := by
  unfold Store.object addObject
  dsimp only
  rw [Array.getElem?_push]
  split <;> rfl

theorem classAt_addClass (store : Store) (declared : Class) (id : ClassId) :
    (store.addClass declared).2.classAt id
      = if id.index = store.classes.size then declared else store.classAt id := by
  unfold Store.classAt addClass
  dsimp only
  rw [Array.getElem?_push]
  split <;> rfl

/-! ## Changed entries -/

@[simp] theorem size_modifyScope (store : Store) (id : ScopeId) (change : Scope → Scope) :
    (store.modifyScope id change).scopes.size = store.scopes.size := by
  simp [modifyScope]

theorem scope_modifyScope_of_ne {id other : ScopeId} (h : other ≠ id) (change : Scope → Scope) :
    (store.modifyScope id change).scope other = store.scope other := by
  unfold Store.scope modifyScope
  have hi : id.index ≠ other.index := fun heq => h (by cases id; cases other; simp_all)
  simp [Array.getElem?_modify, hi]

theorem scope_modifyScope_self {id : ScopeId} (h : id.index < store.scopes.size)
    (change : Scope → Scope) :
    (store.modifyScope id change).scope id = change (store.scope id) := by
  unfold Store.scope modifyScope
  simp [h, Array.getElem_modify]

theorem scope_modifyScope (store : Store) (id other : ScopeId) (change : Scope → Scope) :
    (store.modifyScope id change).scope other
      = if other = id ∧ id.index < store.scopes.size then change (store.scope id)
        else store.scope other := by
  by_cases heq : other = id
  · subst heq
    by_cases h : other.index < store.scopes.size
    · rw [scope_modifyScope_self h, if_pos ⟨rfl, h⟩]
    · rw [if_neg fun hb => h hb.2]
      unfold Store.scope modifyScope
      simp [h]
  · rw [scope_modifyScope_of_ne heq, if_neg fun hb => heq hb.1]

/-- Only the change of the scope itself matters. -/
theorem modifyScope_congr {id : ScopeId} {change other : Scope → Scope}
    (h : change (store.scope id) = other (store.scope id)) :
    store.modifyScope id change = store.modifyScope id other := by
  have hs : store.scopes.modify id.index change = store.scopes.modify id.index other := by
    refine Array.ext (by simp) fun index hl hr => ?_
    simp only [Array.getElem_modify]
    split
    · next heq =>
      subst heq
      have hi : id.index < store.scopes.size := by simpa using hl
      simpa [Store.scope, hi] using h
    · rfl
  unfold modifyScope
  rw [hs]

/-- A change that changes nothing. -/
theorem modifyScope_eq_self {id : ScopeId} {change : Scope → Scope}
    (h : change (store.scope id) = store.scope id) : store.modifyScope id change = store := by
  have hsc : store.scopes.modify id.index (fun scope => scope) = store.scopes :=
    Array.ext (by simp) fun index _ _ => by simp [Array.getElem_modify]
  have hs : store.modifyScope id change = store.modifyScope id (fun scope => scope) :=
    modifyScope_congr h
  rw [hs]
  unfold modifyScope
  rw [hsc]

theorem classAt_modifyClass (store : Store) (id other : ClassId) (change : Class → Class) :
    (store.modifyClass id change).classAt other
      = if other = id ∧ id.index < store.classes.size then change (store.classAt id)
        else store.classAt other := by
  unfold Store.classAt modifyClass
  by_cases heq : other = id
  · subst heq
    by_cases h : other.index < store.classes.size
    · simp [h, Array.getElem_modify]
    · simp [h]
  · have hi : id.index ≠ other.index := fun hs => heq (by cases id; cases other; simp_all)
    simp [Array.getElem?_modify, hi, heq]

/-- Only the change of the class itself matters. -/
theorem modifyClass_congr {id : ClassId} {change other : Class → Class}
    (h : change (store.classAt id) = other (store.classAt id)) :
    store.modifyClass id change = store.modifyClass id other := by
  have hc : store.classes.modify id.index change = store.classes.modify id.index other := by
    refine Array.ext (by simp) fun index hl hr => ?_
    simp only [Array.getElem_modify]
    split
    · next heq =>
      subst heq
      have hi : id.index < store.classes.size := by simpa using hl
      simpa [Store.classAt, hi] using h
    · rfl
  unfold modifyClass
  rw [hc]

theorem modifyClass_eq_self {id : ClassId} {change : Class → Class}
    (h : change (store.classAt id) = store.classAt id) : store.modifyClass id change = store := by
  have hc : store.classes.modify id.index (fun declared => declared) = store.classes :=
    Array.ext (by simp) fun index _ _ => by simp [Array.getElem_modify]
  have hs : store.modifyClass id change = store.modifyClass id (fun declared => declared) :=
    modifyClass_congr h
  rw [hs]
  unfold modifyClass
  rw [hc]

theorem scope_setOwn_of_ne {id other : ScopeId} (h : other ≠ id) (name : String)
    (value : Constant) : (store.setOwn id name value).scope other = store.scope other :=
  scope_modifyScope_of_ne h _

theorem scope_setOwn_self {id : ScopeId} (h : id.index < store.scopes.size) (name : String)
    (value : Constant) :
    (store.setOwn id name value).scope id
      = { store.scope id with values := (store.scope id).values.insert name value } :=
  scope_modifyScope_self h _

/-! ## The state of the program -/

variable {root : ScopeId}

theorem IsRoot.root_eq (h : store.IsRoot root) (held : Held) : store.root held root = root := by
  unfold Store.root
  cases store.scopes.size with
  | zero => rfl
  | succ bound => simp [rootFrom, parentOf, h.parent]

theorem IsRoot.addFile_eq (h : store.IsRoot root) (held : Held) (name : String)
    (file : ScopeId) :
    store.addFile held root name file = store.modifyScope root (·.addFile name file) := by
  unfold Store.addFile modifyState withState
  rw [h.root_eq held]
  exact modifyScope_congr rfl

end Store

end StepScript
