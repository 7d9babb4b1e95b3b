import Mathlib.Data.List.Forall2
import StepScript.Proofs.Chains.Writing
import StepScript.Proofs.System.Declarations
set_option autoImplicit false

/-!
# New objects

An instance of a class gets two scopes for each level of the hierarchy: a class level, which
delegates to the shared scope of the class, and under it the scope of the object itself
(`Store.LevelChain`).  The levels stand under each other, and the last one stands in the file of the
last ancestor.  The behaviour of an object gets one scope, from which a link that does not keep
alive leads to the outermost scope of the object (`Construction.BeginsBehaviour`).  Nothing else
changes when an object is made (`Store.Makes`).
-/

namespace StepScript

variable {α : Type} {scopes : List ScopeId} {classes : List Class}

/-! ## Many names at once -/

/-- The table with the entries of another one. -/
def Table.insertAll {α : Type} (table entries : Table α) : Table α :=
  entries.foldl (fun table entry => table.insert entry.1 entry.2) table

theorem Table.binds_insert (table : Table α) (name other : String) (entry : α) :
    (table.insert name entry).binds other = (table.binds other || decide (other = name)) := by
  unfold Table.binds
  by_cases heq : other = name
  · subst heq
    simp
  · rw [Table.get?_insert_of_ne heq]
    simp [heq]

theorem Table.binds_insertAll (table entries : Table α) (name : String) :
    (table.insertAll entries).binds name = (table.binds name || entries.binds name) := by
  unfold Table.insertAll
  induction entries generalizing table with
  | nil => simp [Table.binds, Table.get?]
  | cons entry rest ih =>
    rw [List.foldl_cons, ih, Table.binds_insert, Bool.or_assoc]
    congr 1
    by_cases heq : entry.1 = name
    · simp [Table.binds, Table.get?, heq]
    · simp [Table.binds, Table.get?, heq, Ne.symm heq]

namespace Store

variable {store later last : Store} {id other home : ScopeId}

@[simp] theorem size_setOwn (store : Store) (id : ScopeId) (name : String) (value : Constant) :
    (store.setOwn id name value).scopes.size = store.scopes.size := size_modifyScope ..

@[simp] theorem size_setAllOwn (store : Store) (id : ScopeId) (values : Table Constant) :
    (store.setAllOwn id values).scopes.size = store.scopes.size := by
  unfold Store.setAllOwn
  induction values generalizing store with
  | nil => rfl
  | cons entry rest ih => rw [List.foldl_cons, ih, size_setOwn]

theorem scope_setAllOwn_of_ne (h : other ≠ id) (values : Table Constant) :
    (store.setAllOwn id values).scope other = store.scope other := by
  unfold Store.setAllOwn
  induction values generalizing store with
  | nil => rfl
  | cons entry rest ih => rw [List.foldl_cons, ih, scope_setOwn_of_ne h]

theorem scope_setAllOwn_self (h : id.index < store.scopes.size) (values : Table Constant) :
    (store.setAllOwn id values).scope id
      = { store.scope id with values := (store.scope id).values.insertAll values } := by
  unfold Store.setAllOwn Table.insertAll
  induction values generalizing store with
  | nil => rfl
  | cons entry rest ih =>
    rw [List.foldl_cons, ih (by rwa [size_setOwn]), scope_setOwn_self h, List.foldl_cons]

theorem setAllOwn_rest (store : Store) (id : ScopeId) (values : Table Constant) :
    (store.setAllOwn id values).objects = store.objects ∧
      (store.setAllOwn id values).classes = store.classes ∧
      (store.setAllOwn id values).released = store.released := by
  unfold Store.setAllOwn
  induction values generalizing store with
  | nil => exact ⟨rfl, rfl, rfl⟩
  | cons entry rest ih => exact ih (store.setOwn id entry.1 entry.2)

/-- What binds a variable is a scope of the store. -/
theorem inside_of_binds {name : String} (h : store.bindsVariable id name = true) :
    id.index < store.scopes.size := by
  refine inside_of_ne_default fun hd => ?_
  rw [bindsVariable, hd] at h
  cases h

/-! ## Levels -/

/-- The scopes are levels of an object for the classes, one under the other, the last of them in
the file `home`. -/
inductive LevelChain (store : Store) (home : ScopeId) : List ScopeId → List Class → Prop where
  | nil : LevelChain store home [] []
  | cons {scope wrapper : ScopeId} {scopes : List ScopeId} {declared : Class}
      {classes : List Class} (kind : (store.scope scope).kind = .object)
      (functions : (store.scope scope).functions = declared.members.functions)
      (parent : (store.scope scope).parent = some (.strong wrapper))
      (delegate : (store.scope wrapper).delegate = some declared.sharedScope)
      (above : (store.scope wrapper).parent = some (.strong (scopes.headD home)))
      (rest : LevelChain store home scopes classes) :
      LevelChain store home (scope :: scopes) (declared :: classes)

/-- The scope keeps its kind, its functions and its links. -/
structure Retains (store later : Store) (id : ScopeId) : Prop where
  kind : (later.scope id).kind = (store.scope id).kind
  functions : (later.scope id).functions = (store.scope id).functions
  parent : (later.scope id).parent = (store.scope id).parent
  delegate : (later.scope id).delegate = (store.scope id).delegate

theorem Evolves.retains (h : store.Evolves later) (hid : id.index < store.scopes.size) :
    store.Retains later id :=
  ⟨(h.scopes hid).kind, (h.scopes hid).functions, (h.scopes hid).parent, (h.scopes hid).delegate⟩

/-- Levels stay levels as long as the scopes that have a parent keep it. -/
theorem LevelChain.retained (h : store.LevelChain home scopes classes)
    (hr : ∀ {id : ScopeId} {link : ParentLink}, (store.scope id).parent = some link →
      store.Retains later id) : later.LevelChain home scopes classes := by
  induction h with
  | nil => exact .nil
  | cons hk hf hp hd hab _ ih =>
    have hs := hr hp
    have hw := hr hab
    exact .cons (hs.kind.trans hk) (hs.functions.trans hf)
      (hs.parent.trans hp) (hw.delegate.trans hd)
      (hw.parent.trans hab) ih

theorem LevelChain.kind_eq (h : store.LevelChain home scopes classes) :
    ∀ scope ∈ scopes, (store.scope scope).kind = .object := by
  induction h with
  | nil => simp
  | cons hk _ _ _ _ _ ih => exact List.forall_mem_cons.mpr ⟨hk, ih⟩

theorem LevelChain.functions_eq (h : store.LevelChain home scopes classes) :
    ∀ level ∈ scopes.zip classes, (store.scope level.1).functions = level.2.members.functions := by
  induction h with
  | nil => simp
  | cons _ hf _ _ _ _ ih => exact List.forall_mem_cons.mpr ⟨hf, ih⟩

/-- The scope itself binds the parameters of the level that have arguments. -/
def BindsArguments (store : Store) (scope : ScopeId) (level : Construction.Level) : Prop :=
  ∀ name, level.binding.bound.binds name = true → store.bindsVariable scope name = true

/-- Scopes have been added to the store, among them those of the levels. -/
structure AddsLevels (store later : Store) (home : ScopeId) (scopes : List ScopeId)
    (levels : List Construction.Level) : Prop where
  size : store.scopes.size ≤ later.scopes.size
  objects : later.objects = store.objects
  classes : later.classes = store.classes
  released : later.released = store.released
  kept : ∀ {id : ScopeId}, id.index < store.scopes.size → later.scope id = store.scope id
  strong : ∀ {id parent : ScopeId}, store.scopes.size ≤ id.index →
    (later.scope id).parent ≠ some (.weak parent)
  plain : ∀ {id : ScopeId}, store.scopes.size ≤ id.index →
    (later.scope id).object = none ∧ (later.scope id).state = none
  fresh : ∀ id ∈ scopes, store.scopes.size ≤ id.index ∧ id.index < later.scopes.size
  nodup : scopes.Nodup
  chain : later.LevelChain home scopes (levels.map (·.declared))
  bound : List.Forall₂ later.BindsArguments scopes levels

theorem AddsLevels.refl (store : Store) (home : ScopeId) : store.AddsLevels store home [] [] where
  size := Nat.le_refl _
  objects := rfl
  classes := rfl
  released := rfl
  kept _ := rfl
  strong hid hp := by
    rw [scope_of_size_le hid] at hp
    cases hp
  plain hid := by
    rw [scope_of_size_le hid]
    exact ⟨rfl, rfl⟩
  fresh _ hid := nomatch hid
  nodup := .nil
  chain := .nil
  bound := .nil

/-- The store with the two scopes of a level. -/
def addLevel (store : Store) (parent : ScopeId) (level : Construction.Level) : Store :=
  let (wrapper, store) := store.newWrapper level.declared.sharedScope parent
  let (scope, store) := store.newScope .object wrapper
  let store := store.setFunctions scope level.declared.members.functions
  store.setAllOwn scope level.binding.bound

section AddLevel

variable (store : Store) (parent : ScopeId) (level : Construction.Level)

theorem size_addLevel : (store.addLevel parent level).scopes.size = store.scopes.size + 2 := by
  simp [addLevel, setFunctions, newScope, newWrapper]

theorem addLevel_rest : (store.addLevel parent level).objects = store.objects ∧
    (store.addLevel parent level).classes = store.classes ∧
    (store.addLevel parent level).released = store.released := setAllOwn_rest ..

theorem addLevel_evolves : store.Evolves (store.addLevel parent level) := by
  refine .trans (.setFunctions (.trans (.addScope rfl) (.addScope rfl)) ?_ _) (.setAllOwn _ _)
  simp

theorem scope_addLevel (id : ScopeId) :
    (store.addLevel parent level).scope id = if id.index = store.scopes.size + 1 then
          { kind := .object, parent := some (.strong ⟨store.scopes.size⟩),
            functions := level.declared.members.functions,
            values := Table.insertAll [] level.binding.bound }
        else if id.index = store.scopes.size then
          { kind := .classLevel, parent := some (.strong parent),
            delegate := some level.declared.sharedScope }
        else store.scope id := by
  have hi : id.index = store.scopes.size + 1 ↔ id = ⟨store.scopes.size + 1⟩ := by
    cases id
    simp
  unfold addLevel setFunctions newScope newWrapper
  simp only [addScope_fst, size_addScope]
  by_cases heq : id = ⟨store.scopes.size + 1⟩
  · rw [if_pos (hi.mpr heq), heq, scope_setAllOwn_self (by simp),
      scope_modifyScope_self (by simp), scope_addScope, if_pos (by simp)]
  · rw [if_neg fun h => heq (hi.mp h), scope_setAllOwn_of_ne heq, scope_modifyScope_of_ne heq,
      scope_addScope, if_neg (by rw [size_addScope]; exact fun h => heq (hi.mp h)),
      scope_addScope]

theorem bindsVariable_addLevel {id : ScopeId} {name : String}
    (h : store.bindsVariable id name = true) :
    (store.addLevel parent level).bindsVariable id name = true := by
  have hi := inside_of_binds h
  rw [bindsVariable, scope_addLevel, if_neg (by omega), if_neg (by omega)]
  exact h

end AddLevel

/-- One level more, under the others. -/
theorem AddsLevels.push {levels : List Construction.Level}
    (h : store.AddsLevels later home scopes levels) (level : Construction.Level) :
    store.AddsLevels (later.addLevel (scopes.headD home) level) home
      (⟨later.scopes.size + 1⟩ :: scopes) (level :: levels) := by
  have he := later.addLevel_evolves (scopes.headD home) level
  have hr := later.scope_addLevel (scopes.headD home) level
  have hsz := later.size_addLevel (scopes.headD home) level
  obtain ⟨ho, hc, hrl⟩ := later.addLevel_rest (scopes.headD home) level
  have hle := h.size
  refine
    { size := by omega
      objects := ho.trans h.objects
      classes := hc.trans h.classes
      released := hrl.trans h.released
      kept := ?_
      strong := ?_
      plain := ?_
      fresh := ?_
      nodup := ?_
      chain := ?_
      bound := ?_ }
  · intro id hid
    rw [hr, if_neg (by omega), if_neg (by omega)]
    exact h.kept hid
  · intro id parent hid
    rw [hr]
    split
    · simp
    · split
      · simp
      · exact h.strong hid
  · intro id hid
    rw [hr]
    split
    · exact ⟨rfl, rfl⟩
    · split
      · exact ⟨rfl, rfl⟩
      · exact h.plain hid
  · refine List.forall_mem_cons.mpr ⟨⟨by dsimp only; omega, by dsimp only; omega⟩, ?_⟩
    intro id hid
    obtain ⟨hnew, hi⟩ := h.fresh id hid
    exact ⟨hnew, by omega⟩
  · refine List.nodup_cons.mpr ⟨fun hmem => ?_, h.nodup⟩
    have hi := (h.fresh _ hmem).2
    dsimp only at hi
    omega
  · have hs := hr ⟨later.scopes.size + 1⟩
    have hw := hr ⟨later.scopes.size⟩
    rw [if_pos rfl] at hs
    rw [if_neg (by simp), if_pos rfl] at hw
    refine .cons ?_ ?_ (congrArg Scope.parent hs) (congrArg Scope.delegate hw)
      (congrArg Scope.parent hw)
      (h.chain.retained fun hl => he.retains (inside_of_parent hl))
    · exact congrArg Scope.kind hs
    · exact congrArg Scope.functions hs
  · refine .cons (fun name hn => ?_) (h.bound.imp fun scope other hb name hn => ?_)
    · rw [bindsVariable, hr, if_pos rfl, Table.binds_insertAll, hn, Bool.or_true]
    · exact later.bindsVariable_addLevel _ level (hb name hn)

/-- What making the scopes of levels does. -/
theorem levelScopes_addsLevels {done : List Construction.Level}
    (h : store.AddsLevels later home scopes done) (levels : List Construction.Level) :
    store.AddsLevels
      (Construction.levelScopes scopes (scopes.headD home) levels later).2 home
      (Construction.levelScopes scopes (scopes.headD home) levels later).1
      (levels.reverse ++ done) := by
  induction levels generalizing scopes done later with
  | nil => exact h
  | cons level rest ih =>
    rw [List.reverse_cons, List.append_assoc, List.singleton_append]
    have hs : Construction.levelScopes scopes (scopes.headD home) (level :: rest) later
        = Construction.levelScopes (⟨later.scopes.size + 1⟩ :: scopes)
          ⟨later.scopes.size + 1⟩ rest (later.addLevel (scopes.headD home) level) := by
      simp [Construction.levelScopes, addLevel, newScope, newWrapper]
    rw [hs]
    exact ih (h.push level)

/-! ## Objects -/

/-- What is updated in a phase, as far as a scope keeps books of it. -/
def updates (store : Store) (id : ScopeId) (order : UpdateOrder) : List UpdateTarget :=
  ((store.scope id).state.getD {}).registry order

/-- The number of the object made last, as far as a scope keeps books of it. -/
def lastSerial (store : Store) (id : ScopeId) : Nat := ((store.scope id).state.getD {}).lastSerial

/-- The state of a scope is used without a trace in the rest of the scope. -/
theorem scope_withState (store : Store) (held : Held) (id : ScopeId)
    (use : GlobalState → α × GlobalState) (other : ScopeId) :
    (store.withState held id use).2.scope other = { store.scope other with
          state := (if other = store.root held id ∧ other.index < store.scopes.size then
            some (use ((store.scope other).state.getD {})).2 else (store.scope other).state) } := by
  unfold withState
  dsimp only
  rw [scope_modifyScope]
  by_cases heq : other = store.root held id
  · subst heq
    by_cases hi : (store.root held id).index < store.scopes.size
    · simp [hi]
    · simp [hi]
  · simp [heq]

theorem updates_withState (store : Store) (held : Held) (id : ScopeId)
    {use : GlobalState → α × GlobalState}
    (huse : ∀ state order, (use state).2.registry order = state.registry order) (other : ScopeId)
    (order : UpdateOrder) :
    (store.withState held id use).2.updates other order = store.updates other order := by
  unfold updates
  rw [scope_withState]
  dsimp only
  split
  · rw [Option.getD_some, huse]
  · rfl

theorem setObjects_rest (store : Store) (scopes : List ScopeId) (object : ObjectRef) :
    (scopes.foldl (fun store scope => store.setObject scope object) store).objects = store.objects ∧
      (scopes.foldl (fun store scope => store.setObject scope object) store).classes
        = store.classes ∧
      (scopes.foldl (fun store scope => store.setObject scope object) store).released
        = store.released ∧
      (scopes.foldl (fun store scope => store.setObject scope object) store).scopes.size
        = store.scopes.size := by
  induction scopes generalizing store with
  | nil => exact ⟨rfl, rfl, rfl, rfl⟩
  | cons id rest ih =>
    obtain ⟨ho, hc, hr, hs⟩ := ih (store.setObject id object)
    exact ⟨ho, hc, hr, hs.trans (size_modifyScope ..)⟩

theorem scope_setObjects (store : Store) (scopes : List ScopeId) (object : ObjectRef)
    (id : ScopeId) :
    (scopes.foldl (fun store scope => store.setObject scope object) store).scope id
      = { store.scope id with
          object := (if id ∈ scopes ∧ id.index < store.scopes.size then some object
            else (store.scope id).object) } := by
  induction scopes generalizing store with
  | nil => simp
  | cons place rest ih =>
    have hs : (store.setObject place object).scopes.size = store.scopes.size := size_modifyScope ..
    rw [List.foldl_cons, ih, hs]
    unfold setObject
    rw [scope_modifyScope]
    by_cases hp : id = place ∧ place.index < store.scopes.size
    · obtain ⟨rfl, hi⟩ := hp
      simp [hi]
    · rw [if_neg hp]
      by_cases hr : id ∈ rest ∧ id.index < store.scopes.size
      · simp [hr]
      · have hn : ¬ (id ∈ place :: rest ∧ id.index < store.scopes.size) := by
          rintro ⟨hmem, hi⟩
          rcases List.mem_cons.mp hmem with rfl | hmem
          · exact hp ⟨rfl, hi⟩
          · exact hr ⟨hmem, hi⟩
        rw [if_neg hr, if_neg hn]

/-- An object has been made of scopes. -/
structure Makes (held : Held) (store later : Store) (object : ObjectRef) (record : Object) :
    Prop where
  key : object.key = store.objects.size
  objects : later.objects = store.objects.push record
  classes : later.classes = store.classes
  released : later.released = store.released
  size : later.scopes.size = store.scopes.size
  scopes : ∀ id, later.scope id = { store.scope id with
    state := (later.scope id).state
    object := (if id ∈ record.scopes ∧ id.index < store.scopes.size then some object
      else (store.scope id).object) }
  updates : ∀ id order, later.updates id order = store.updates id order
  serial : ∀ {outer : ScopeId}, record.scopes.head? = some outer →
    (store.root held outer).index < store.scopes.size →
    object.serial = store.lastSerial (store.root held outer) + 1 ∧
      later.lastSerial (store.root held outer) = object.serial

theorem Makes.object_eq {held : Held} {object : ObjectRef} {record : Object}
    (h : Makes held store later object record) :
    later.object object = record := by
  unfold Store.object
  rw [h.objects, h.key, Array.getElem?_push, if_pos rfl]
  rfl

theorem instantiate_makes (store : Store) (held : Held) (typeName : String)
    (classId : Option ClassId) {outer : ScopeId}
    (hot : ∀ first, scopes.head? = some first → first = outer) :
    Makes held store (Construction.instantiate store held typeName classId outer scopes).2
      (Construction.instantiate store held typeName classId outer scopes).1
      { classId, scopes } := by
  unfold Construction.instantiate
  dsimp only
  have hr := store.scope_withState held outer fun state =>
    (state.lastSerial + 1, { state with lastSerial := state.lastSerial + 1 })
  have hu (id : ScopeId) (order : UpdateOrder) :
      (store.withState held outer fun state =>
        (state.lastSerial + 1, { state with lastSerial := state.lastSerial + 1 })).2.updates id order
        = store.updates id order :=
    store.updates_withState held outer (fun _ order => by cases order <;> rfl) id order
  have hs : (store.nextSerial held outer).2.scopes.size = store.scopes.size := size_modifyScope ..
  have hsr : (store.nextSerial held outer).1 = store.lastSerial (store.root held outer) + 1 := rfl
  generalize hn : store.nextSerial held outer = answer at hs hsr
  obtain ⟨serial, between⟩ := answer
  have hb : between = (store.withState held outer fun state =>
      (state.lastSerial + 1, { state with lastSerial := state.lastSerial + 1 })).2 :=
    (congrArg Prod.snd hn).symm
  rw [← hb] at hr hu
  dsimp only at hs ⊢
  obtain ⟨ho, hc, hrl, hs'⟩ := setObjects_rest
    (between.addObject typeName serial { classId, scopes }).2 scopes
    (between.addObject typeName serial { classId, scopes }).1
  have hsc := scope_setObjects (between.addObject typeName serial { classId, scopes }).2 scopes
    (between.addObject typeName serial { classId, scopes }).1
  refine ⟨?_, ?_, ?_, ?_, ?_, fun id => ?_, fun id order => ?_, fun {first} hf hi => ?_⟩
  · rw [hb]
    rfl
  · rw [ho, hb]
    rfl
  · rw [hc, hb]
    rfl
  · rw [hrl, hb]
    rfl
  · exact hs'.trans hs
  · have hsm : (between.addObject typeName serial { classId, scopes }).2.scope id
        = between.scope id := rfl
    have hs'' : (between.addObject typeName serial { classId, scopes }).2.scopes.size
        = store.scopes.size := hs
    rw [hsc, hsm, hr, hs'']
  · unfold updates
    rw [hsc]
    exact hu id order
  · rw [hot first hf] at hi ⊢
    have hst := congrArg Scope.state (hr (store.root held outer))
    rw [if_pos ⟨rfl, hi⟩] at hst
    refine ⟨hsr, ?_⟩
    unfold lastSerial
    rw [hsc]
    exact (congrArg (fun state => (state.getD {}).lastSerial) hst).trans hsr.symm

/-- A new scope that gets functions. -/
theorem setFunctions_addScope (store : Store) (scope : Scope) (functions : Table Function) :
    (store.addScope scope).2.setFunctions ⟨store.scopes.size⟩ functions
      = (store.addScope { scope with functions }).2 := by
  have hs : (store.scopes.push scope).modify store.scopes.size
      (fun scope => { scope with functions }) = store.scopes.push { scope with functions } := by
    refine Array.ext (by simp) fun index hlf hr => ?_
    rw [Array.getElem_modify, Array.getElem_push, Array.getElem_push]
    by_cases hi : index < store.scopes.size
    · rw [if_neg (by omega), dif_pos hi, dif_pos hi]
    · have hl : store.scopes.size = index := by
        rw [Array.size_push] at hr
        omega
      rw [if_pos hl, dif_neg hi, dif_neg hi]
  unfold setFunctions addScope modifyScope
  rw [hs]

end Store

/-! ## Instances of classes -/

namespace Construction

/-- What the construction of an instance has been planned with. -/
structure Plan where
  /-- The scopes of the levels. -/
  scopes : List ScopeId
  /-- The levels with the parameters of their constructors. -/
  planned : List Level
  /-- The behaviours of each level. -/
  attached : List (List Behaviour)

/-- The steps of the construction. -/
def Plan.steps (plan : Plan) : List ConstructionStep :=
  classSteps plan.scopes plan.planned plan.attached

/-- The construction of an instance of the class begins in the later store, as it is planned. -/
structure Plan.Begins (plan : Plan) (store : Store) (held : Held) (id : ClassId)
    (args : List Constant) (construction : Construction) (later : Store) : Prop where
  bound : ∃ checked, levels args false ((store.hierarchy id).map store.classAt)
    = .ok (checked, plan.planned)
  attached : ((store.hierarchy id).map store.classAt).mapM (attachments store held)
    = .ok plan.attached
  steps : construction = { object := construction.object, steps := plan.steps }
  made : ∃ between base, ((store.hierarchy id).map store.classAt).getLast? = some base ∧
    store.AddsLevels between base.home plan.scopes plan.planned ∧
    Store.Makes held between later construction.object { classId := some id, scopes := plan.scopes }

/-- A construction fails before it has done anything, or it begins as planned. -/
theorem ofClass_cases (store : Store) (held : Held) (id : ClassId) (args : List Constant) :
    (∃ error, ofClass store held id args = (.error error, store)) ∨
      ∃ plan construction later, ofClass store held id args = (.ok construction, later) ∧
        Plan.Begins plan store held id args construction later := by
  unfold ofClass
  dsimp only
  split
  · exact .inl ⟨_, rfl⟩
  · next checked planned hl =>
    split
    · exact .inl ⟨_, rfl⟩
    · split
      · exact .inl ⟨_, rfl⟩
      · next attached hac =>
        split
        · exact .inl ⟨_, rfl⟩
        · next base hb =>
          have had := Store.levelScopes_addsLevels
            (Store.AddsLevels.refl store base.home) planned.reverse
          rw [List.reverse_reverse, List.append_nil] at had
          refine .inr ⟨⟨(levelScopes [] base.home planned.reverse store).1, planned,
            attached⟩, _, _, rfl, ⟨checked, hl⟩, hac, rfl, _, base, hb, had,
            ?_⟩
          exact Store.instantiate_makes _ _ _ _ fun first hf => by
            rw [List.headD_eq_head?_getD, hf]
            rfl

/-- The levels are those of the hierarchy. -/
theorem levels_declared {args : List Constant} {checked checked' : Bool} {planned : List Level}
    (h : levels args checked classes = .ok (checked', planned)) :
    planned.map (·.declared) = classes := by
  induction classes generalizing checked checked' planned with
  | nil =>
    obtain ⟨-, rfl⟩ := Prod.mk.inj (Except.ok.inj h)
    rfl
  | cons declared rest ih =>
    unfold levels at h
    split at h
    · split at h
      · cases h
      · next hr =>
        obtain ⟨-, rfl⟩ := Prod.mk.inj (Except.ok.inj h)
        rw [List.map_cons, ih hr]
    · dsimp only at h
      split at h
      · cases h
      · split at h
        · cases h
        · next hr =>
          obtain ⟨-, rfl⟩ := Prod.mk.inj (Except.ok.inj h)
          rw [List.map_cons, ih hr]

/-! ## Behaviours of objects -/

/-- The scope of the behaviour of an object, before it belongs to it. -/
def behaviourScope (behaviour : Behaviour) (outer : ScopeId) : Scope :=
  { kind := .object, parent := some (.weak outer), functions := behaviour.members.functions }

/-- The steps of the construction of a behaviour with this scope. -/
def behaviourSteps (scope : ScopeId) (binding : Binding) (members : Members) :
    List ConstructionStep :=
  parameterSteps scope binding ++ propertySteps scope members ++ [.phase] ++ bodySteps scope members

/-- The construction of a behaviour of the owner begins in the later store. -/
structure BeginsBehaviour (store : Store) (held : Held) (behaviour : Behaviour)
    (owner : ObjectRef) (construction : Construction) (later : Store) : Prop where
  begun : ∃ binding outer, behaviourBinding behaviour = .ok binding ∧
    store.outerScope? owner = some outer ∧
    construction = {
      object := construction.object
      steps := behaviourSteps ⟨store.scopes.size⟩ binding behaviour.members } ∧
    Store.Makes held (store.addScope (behaviourScope behaviour outer)).2 later construction.object
      { classId := none, scopes := [⟨store.scopes.size⟩] } ∧
    construction.object.typeName = behaviour.name

theorem ofBehaviour_cases (store : Store) (held : Held) (behaviour : Behaviour)
    (owner : ObjectRef) :
    (∃ error, ofBehaviour store held behaviour owner = (.error error, store)) ∨
      ∃ construction later, ofBehaviour store held behaviour owner = (.ok construction, later) ∧
        BeginsBehaviour store held behaviour owner construction later := by
  unfold ofBehaviour
  split
  · exact .inl ⟨_, rfl⟩
  · exact .inl ⟨_, rfl⟩
  · next binding outer hb ho =>
    have hs : (store.newDetached .object outer).2.setFunctions ⟨store.scopes.size⟩
        behaviour.members.functions = (store.addScope (behaviourScope behaviour outer)).2 :=
      Store.setFunctions_addScope ..
    have hm := Store.instantiate_makes ((store.newDetached .object outer).2.setFunctions
      ⟨store.scopes.size⟩ behaviour.members.functions) held behaviour.name none
      fun first (hf : [⟨store.scopes.size⟩].head? = some first) => (Option.some.inj hf).symm
    have hn : (instantiate ((store.newDetached .object outer).2.setFunctions
      ⟨store.scopes.size⟩ behaviour.members.functions) held behaviour.name none
      ⟨store.scopes.size⟩ [⟨store.scopes.size⟩]).1.typeName = behaviour.name := rfl
    generalize hmd : instantiate ((store.newDetached .object outer).2.setFunctions
      ⟨store.scopes.size⟩ behaviour.members.functions) held behaviour.name none
      ⟨store.scopes.size⟩ [⟨store.scopes.size⟩] = made at hm hn
    rw [hs] at hm
    refine .inr ⟨{
      object := made.1
      steps := behaviourSteps ⟨store.scopes.size⟩ binding behaviour.members }, made.2, ?_,
      ⟨binding, outer, hb, ho, rfl, hm, hn⟩⟩
    rw [← hmd]
    rfl

end Construction

end StepScript
