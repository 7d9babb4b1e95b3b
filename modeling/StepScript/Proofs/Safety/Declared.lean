import StepScript.Proofs.Safety.Shape
import StepScript.Proofs.Registration.Atomicity
set_option autoImplicit false

/-!
# Code in the store

Functions, properties and behaviours in the store hold code.  All of it can be evaluated
(`Store.Fits`), because registration takes nothing else in, and nothing else writes code.
-/

namespace StepScript

variable {name : String} {α : Type} {held : Held} {function : Function}

/-- Each answer of a list of computations that all succeed comes from one of them. -/
theorem mem_of_mapM_ok {α β ε : Type} {compute : α → Except ε β} {items : List α}
    {answers : List β} (h : items.mapM compute = .ok answers) :
    ∀ answer ∈ answers, ∃ item ∈ items, compute item = .ok answer := by
  induction items generalizing answers with
  | nil =>
    obtain rfl := Except.ok.inj h
    simp
  | cons item rest ih =>
    rw [List.mapM_cons] at h
    cases hi : compute item with
    | error error =>
      rw [hi] at h
      cases h
    | ok first =>
      cases hr : rest.mapM compute with
      | error error =>
        rw [hi, hr] at h
        cases h
      | ok others =>
        rw [hi, hr] at h
        obtain rfl := Except.ok.inj h
        refine List.forall_mem_cons.mpr ⟨⟨item, List.mem_cons_self .., hi⟩, ?_⟩
        intro answer han
        obtain ⟨other, ho, hc⟩ := ih hr answer han
        exact ⟨other, List.mem_cons_of_mem _ ho, hc⟩

/-! ## Tables -/

namespace Table

variable {P : α → Prop} {table : Table α}

/-- Every entry has the property. -/
def Every (P : α → Prop) (table : Table α) : Prop := ∀ item ∈ table, P item.2

@[simp] theorem every_nil : Every P [] := by simp [Every]

theorem Every.get? (h : table.Every P) {entry : α} (hget : table.get? name = some entry) :
    P entry := by
  induction table with
  | nil => cases hget
  | cons item rest ih =>
    unfold Table.get? at hget
    split at hget
    · obtain rfl := Option.some.inj hget
      exact h item (List.mem_cons_self ..)
    · exact ih (fun other ho => h other (List.mem_cons_of_mem _ ho)) hget

theorem Every.insert (h : table.Every P) (name : String) {entry : α} (he : P entry) :
    (table.insert name entry).Every P := by
  induction table with
  | nil => simpa [Every, Table.insert] using he
  | cons item rest ih =>
    obtain ⟨hi, hr⟩ := List.forall_mem_cons.mp h
    unfold Table.insert
    split
    · exact List.forall_mem_cons.mpr ⟨he, hr⟩
    · exact List.forall_mem_cons.mpr ⟨hi, ih hr⟩

end Table

/-! ## Declared things -/

/-- The first values of the properties are expressions. -/
def PropertiesFit (properties : List Property) : Prop :=
  ∀ property ∈ properties, ∀ initial ∈ property.initial, Node.Fits .expression initial

/-- The function can be called. -/
structure Function.Fits (function : Function) : Prop where
  params : ParametersFit function.params
  body : ∀ node ∈ function.body, node.Fits (.statement false)

/-- The code of the members can be evaluated. -/
structure Members.Fits (members : Members) : Prop where
  properties : PropertiesFit members.properties
  functions : members.functions.Every Function.Fits
  creation : ∀ function ∈ members.constructor, function.Fits

/-- The code of the class can be evaluated. -/
structure Class.Fits (declared : Class) : Prop where
  members : declared.members.Fits
  sharedProperties : PropertiesFit declared.sharedProperties
  sharedConstructor : ∀ function ∈ declared.sharedConstructor, function.Fits

/-- The code of the functions and behaviours of the scope can be evaluated. -/
structure Scope.Fits (scope : Scope) : Prop where
  functions : scope.functions.Every Function.Fits
  behaviours : scope.behaviours.Every fun behaviour => behaviour.members.Fits

/-- The code in the store can be evaluated. -/
structure Store.Fits (store : Store) : Prop where
  scopes : ∀ scope ∈ store.scopes, scope.Fits
  classes : ∀ declared ∈ store.classes, declared.Fits

theorem members_fits_empty : Members.Fits {} where
  properties := by simp [PropertiesFit]
  functions := Table.every_nil
  creation := by simp

namespace Store

variable {store : Store}

/-! ## Reading -/

theorem Fits.scope (h : store.Fits) (id : ScopeId) : (store.scope id).Fits := by
  unfold Store.scope
  cases hf : store.scopes[id.index]? with
  | none => exact ⟨Table.every_nil, Table.every_nil⟩
  | some found => exact h.scopes found (Array.mem_of_getElem? hf)

theorem Fits.classAt (h : store.Fits) (id : ClassId) : (store.classAt id).Fits := by
  unfold Store.classAt
  cases hf : store.classes[id.index]? with
  | none =>
    refine ⟨members_fits_empty, fun property hp => ?_, fun function hfn => ?_⟩
    · cases hp
    · cases hfn
  | some found => exact h.classes found (Array.mem_of_getElem? hf)

/-- What a walk finds, a visit has given. -/
theorem walkFrom_some {P : α → Prop} {membersOnly : Bool} {visit : ScopeId → Scope → Option α}
    (hv : ∀ id answer, visit id (store.scope id) = some answer → P answer) {bound : Nat}
    {id : ScopeId} {answer : α} (h : store.walkFrom held membersOnly visit bound id = some answer) :
    P answer := by
  induction bound generalizing id with
  | zero => cases h
  | succ bound ih =>
    unfold walkFrom at h
    split at h
    · cases h
    · split at h
      · next found hf =>
        obtain rfl := Option.some.inj h
        exact hv id _ hf
      · split at h
        · next found hf =>
          obtain rfl := Option.some.inj h
          obtain ⟨other, -, ho⟩ := Option.bind_eq_some_iff.mp hf
          exact hv other _ ho
        · split at h
          · exact ih h
          · cases h

section

variable (h : store.Fits)

include h

theorem Fits.functionIn {id place : ScopeId} {found : ScopeId}
    (hf : ((store.scope id).functions.get? name).map (·, place) = some (function, found)) :
    function.Fits := by
  obtain ⟨entry, he, heq⟩ := Option.map_eq_some_iff.mp hf
  obtain ⟨rfl, -⟩ := Prod.mk.inj heq
  exact (h.scope id).functions.get? he

theorem Fits.function? {id found : ScopeId}
    (hf : store.function? held id name = some (function, found)) :
    function.Fits :=
  @walkFrom_some _ held store (fun answer => answer.1.Fits) false _
    (fun _ _ han => h.functionIn han) _ _ _ hf

theorem Fits.memberFunction? {id found : ScopeId}
    (hf : store.memberFunction? held id name = some (function, found)) :
    function.Fits :=
  @walkFrom_some _ held store (fun answer => answer.1.Fits) true _
    (fun _ _ han => h.functionIn han) _ _ _ hf

theorem Fits.behaviour? {id : ScopeId} {behaviour : Behaviour}
    (hf : store.behaviour? held id name = some behaviour) :
    behaviour.members.Fits :=
  @walkFrom_some _ held store (fun answer => answer.members.Fits) false _
    (fun id _ han => (h.scope id).behaviours.get? han) _ _ _ hf

/-! ## Writing -/

theorem Fits.of_eq {later : Store} (hs : later.scopes = store.scopes)
    (hc : later.classes = store.classes) : later.Fits :=
  ⟨hs ▸ h.scopes, hc ▸ h.classes⟩

theorem Fits.addScope {scope : Scope} (hs : scope.Fits) : (store.addScope scope).2.Fits := by
  refine ⟨fun other ho => ?_, h.classes⟩
  rcases Array.mem_push.mp ho with hold | rfl
  · exact h.scopes other hold
  · exact hs

theorem Fits.addClass {declared : Class} (hd : declared.Fits) :
    (store.addClass declared).2.Fits := by
  refine ⟨h.scopes, fun other ho => ?_⟩
  rcases Array.mem_push.mp ho with hold | rfl
  · exact h.classes other hold
  · exact hd

end

/-- A property of all elements is kept by a change that keeps it. -/
theorem forall_mem_modify {P : α → Prop} {items : Array α} {index : Nat} {change : α → α}
    (h : ∀ item ∈ items, P item) (hc : ∀ item, P item → P (change item)) :
    ∀ item ∈ items.modify index change, P item := by
  intro item hi
  obtain ⟨place, hp, rfl⟩ := Array.mem_iff_getElem.mp hi
  rw [Array.getElem_modify]
  split
  · exact hc _ (h _ (Array.getElem_mem _))
  · exact h _ (Array.getElem_mem _)

theorem Fits.modifyScope (h : store.Fits) (id : ScopeId) {change : Scope → Scope}
    (hc : ∀ scope, scope.Fits → (change scope).Fits) : (store.modifyScope id change).Fits :=
  ⟨forall_mem_modify h.scopes hc, h.classes⟩

theorem Fits.modifyClass (h : store.Fits) (id : ClassId) {change : Class → Class}
    (hc : ∀ declared, declared.Fits → (change declared).Fits) :
    (store.modifyClass id change).Fits :=
  ⟨h.scopes, forall_mem_modify h.classes hc⟩

theorem scope_fits_new (scope : Scope) (hf : scope.functions = [])
    (hb : scope.behaviours = []) : scope.Fits :=
  ⟨hf ▸ Table.every_nil, hb ▸ Table.every_nil⟩

variable (h : store.Fits)

include h

theorem Fits.newGlobal : store.newGlobal.2.Fits := h.addScope (scope_fits_new _ rfl rfl)

theorem Fits.newScope (kind : ScopeKind) (parent : ScopeId) : (store.newScope kind parent).2.Fits :=
  h.addScope (scope_fits_new _ rfl rfl)

theorem Fits.newDetached (kind : ScopeKind) (parent : ScopeId) :
    (store.newDetached kind parent).2.Fits :=
  h.addScope (scope_fits_new _ rfl rfl)

theorem Fits.newWrapper (shared parent : ScopeId) : (store.newWrapper shared parent).2.Fits :=
  h.addScope (scope_fits_new _ rfl rfl)

theorem Fits.setOwn (id : ScopeId) (name : String) (value : Constant) :
    (store.setOwn id name value).Fits :=
  h.modifyScope id fun _ hs => ⟨hs.functions, hs.behaviours⟩

theorem Fits.setAllOwn (id : ScopeId) (values : Table Constant) :
    (store.setAllOwn id values).Fits := by
  unfold Store.setAllOwn
  induction values generalizing store with
  | nil => exact h
  | cons entry rest ih => exact ih (h.setOwn id entry.1 entry.2)

theorem Fits.setVariable (held : Held) (id : ScopeId) (name : String) (value : Constant) :
    (store.setVariable held id name value).Fits :=
  h.setOwn _ name value

theorem Fits.setMember (held : Held) (id : ScopeId) (name : String) (value : Constant) :
    (store.setMember held id name value).Fits :=
  h.setOwn _ name value

theorem Fits.setFunctions (id : ScopeId) {functions : Table Function}
    (hf : functions.Every Function.Fits) : (store.setFunctions id functions).Fits :=
  h.modifyScope id fun _ hs => ⟨hf, hs.behaviours⟩

theorem Fits.setParent (id parent : ScopeId) : (store.setParent id parent).Fits :=
  h.modifyScope id fun _ hs => ⟨hs.functions, hs.behaviours⟩

theorem Fits.setObjects (scopes : List ScopeId) (object : ObjectRef) :
    (scopes.foldl (fun store scope => store.setObject scope object) store).Fits := by
  induction scopes generalizing store with
  | nil => exact h
  | cons id rest ih => exact ih (h.modifyScope id fun _ hs => ⟨hs.functions, hs.behaviours⟩)

theorem Fits.attach (id : ScopeId) (behaviour : ObjectRef) : (store.attach id behaviour).Fits :=
  h.modifyScope id fun _ hs => ⟨hs.functions, hs.behaviours⟩

theorem Fits.withState (held : Held) (id : ScopeId) (use : GlobalState → α × GlobalState) :
    (store.withState held id use).2.Fits :=
  h.modifyScope _ fun _ hs => ⟨hs.functions, hs.behaviours⟩

theorem Fits.modifyState (held : Held) (id : ScopeId) (change : GlobalState → GlobalState) :
    (store.modifyState held id change).Fits :=
  h.withState held id _

theorem Fits.fileScope (held : Held) (id : ScopeId) (name : String) :
    (store.fileScope held id name).2.Fits := by
  have hs : (store.existingFile? held id name).2.Fits := h.withState ..
  unfold Store.fileScope
  generalize store.existingFile? held id name = existing at hs
  obtain ⟨_ | file, later⟩ := existing
  · change (Store.addFile (later.newScope .file (later.root held id)).2 held id name _).Fits
    exact Fits.modifyState (hs.newScope ..) held id _
  · exact hs

end Store

end StepScript
