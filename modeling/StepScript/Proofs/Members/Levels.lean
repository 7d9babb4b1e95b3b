import StepScript.Proofs.Phases.Plans
set_option autoImplicit false

/-!
# Members of instances

An instance has a level for each class of its hierarchy, each of them under a class level that leads
to the shared scope of the class, and the last of them in a file (`Store.IsInstance`).  A lookup of
a member goes through the levels and the shared scopes in turns, and ends at the file
(`Store.IsInstance.findMember_eq`).  So the declaration of the most derived class is found
(`System.History.members_resolve`).
-/

namespace StepScript

namespace Store

variable {root home : ScopeId} {own : Option ObjectRef} {store later : Store} {object : ObjectRef}
  {id : ClassId}

/-! ## Instances -/

/-- The object has a level for each class of the hierarchy, and the last one is in the file of its
class. -/
structure IsInstance (root : ScopeId) (store : Store) (object : ObjectRef) (id : ClassId) : Prop where
  known : id.index < store.classes.size
  levels : ∃ base, (store.ancestry id).getLast? = some base ∧
    (store.scope base.home).IsFile root ∧
    store.LevelChain base.home (store.object object).scopes (store.ancestry id)

/-- The objects with a class are instances of it. -/
def Instances (root : ScopeId) (store : Store) : Prop :=
  ∀ object id, (store.object object).classId = some id → store.IsInstance root object id

theorem instances_newGlobal : (newGlobal {}).2.Instances (newGlobal {}).1 :=
  fun _ _ hc => absurd (key_lt_of_classId hc) (Nat.not_lt_zero _)

namespace Instances

variable (h : store.Instances root)

include h

theorem continued (hr : store.IsRoot root) (hc : store.Continues root own later)
    (hnew : ∀ object id, store.objects.size ≤ object.key →
      (later.object object).classId = some id → later.IsInstance root object id) :
    later.Instances root := by
  intro object id hcl
  by_cases hkey : object.key < store.objects.size
  · obtain ⟨hk, base, hb, hh, hch⟩ :=
      h object id (hc.unfolds.classId hkey ▸ hcl)
    refine ⟨Nat.lt_of_lt_of_le hk hc.classes, base, ?_⟩
    rw [hc.unfolds.levels hkey, hc.ancestry hk]
    exact ⟨hb, hc.isFile hr hh, hch.continued hr hc⟩
  · exact hnew object id (Nat.le_of_not_lt hkey) hcl

theorem of_size_eq (hr : store.IsRoot root) (hcn : store.Continues root own later)
    (hs : later.objects.size = store.objects.size) : later.Instances root := by
  refine h.continued hr hcn fun object id hnew hc => ?_
  exact absurd (key_lt_of_classId hc) (Nat.not_lt_of_le (hs ▸ hnew))

/-- The one new object is an instance of the class. -/
theorem ofClass (hp : store.InPlace root) (hid : id.index < store.classes.size) (held : Held)
    (args : List Constant)
    (hc : store.Continues root own (Construction.ofClass store held id args).2) :
    (Construction.ofClass store held id args).2.Instances root := by
  have hr := hp.registered.grounded.isRoot
  rcases Construction.ofClass_cases store held id args with
    ⟨error, he⟩ | ⟨plan, construction, after, hbg, hb⟩
  · exact h.of_size_eq hr hc (by rw [he])
  · obtain ⟨between, base, -, had, hm⟩ := hb.made
    rw [hbg] at hc ⊢
    have hch := hb.levelChain hp hid hc
    show after.Instances root
    refine h.continued hr hc fun object other hnew hcl => ?_
    have hsz : after.objects.size = store.objects.size + 1 := by
      rw [hm.objects, Array.size_push, had.objects]
    have hs : object.key = construction.object.key := by
      have hi := key_lt_of_classId hcl
      rw [hm.key, had.objects]
      omega
    have ho : after.object object = { classId := some id, scopes := plan.scopes } := by
      rw [← hm.object_eq]
      unfold Store.object
      rw [hs]
    rw [ho] at hcl
    obtain rfl := Option.some.inj hcl
    exact ⟨Nat.lt_of_lt_of_le hid hc.classes, ho ▸ hch⟩

/-- A behaviour has no class. -/
theorem ofBehaviour (hr : store.IsRoot root) (held : Held) (behaviour : Behaviour)
    (owner : ObjectRef)
    (hcn : store.Continues root own
      (Construction.ofBehaviour store held behaviour owner).2) :
    (Construction.ofBehaviour store held behaviour owner).2.Instances root := by
  rcases Construction.ofBehaviour_cases store held behaviour owner with
    ⟨error, he⟩ | ⟨construction, after, hbg, hb⟩
  · exact h.of_size_eq hr hcn (by rw [he])
  · obtain ⟨binding, outer, -, -, -, hm, -⟩ := hb.begun
    rw [hbg] at hcn ⊢
    refine h.continued hr hcn fun object id hnew hc => ?_
    have hs : object.key = construction.object.key := by
      have hi := key_lt_of_classId hc
      rw [hm.objects, Array.size_push] at hi
      exact Nat.le_antisymm (hm.key ▸ Nat.le_of_lt_succ hi) (hm.key ▸ hnew)
    have ho : after.object object = after.object construction.object := by
      unfold Store.object
      rw [hs]
    rw [ho, hm.object_eq] at hc
    cases hc

theorem changed (hp : store.InPlace root) (hch : Change root own store later) :
    later.Instances root := by
  have hr := hp.registered.grounded.isRoot
  have hc := Changes.continues (.single hch) hr
  cases hch with
  | create held args hk => exact h.ofClass hp hk held args hc
  | begin => exact h.ofBehaviour hr _ _ _ hc
  | attach => exact h.of_size_eq hr hc (Array.size_modify ..)
  | register => exact h.of_size_eq hr hc (by rw [Construction.objects_register])
  | bind | enter | file | state | wait | release => exact h.of_size_eq hr hc rfl

theorem addUnit (hp : store.InPlace root) (files : List Node) :
    (store.addUnit root files).2.Instances root := by
  refine h.of_size_eq hp.registered.grounded.isRoot
    (continues_addUnit none hp.registered files) ?_
  rcases addUnit_cases hp.registered files with hs | ⟨hk, -⟩
  · rw [hs]
  · rw [hk.objects]

end Instances

/-! ## Lookups -/

/-- The scopes of the levels, each followed by the shared scope of its class. -/
def levelPlaces (scopes : List ScopeId) (classes : List Class) : List ScopeId :=
  (scopes.zip classes).flatMap fun level => [level.1, level.2.sharedScope]

section Walk

variable {α : Type} (held : Held) (visit : ScopeId → Scope → Option α)

/-- A walk goes through the level and its class level, and from there to the shared scope. -/
theorem walkFrom_level {scope wrapper shared above : ScopeId}
    (hk : (store.scope scope).kind = .object) (hpl : (store.scope scope).delegate = none)
    (hp : (store.scope scope).parent = some (.strong wrapper))
    (hw : (store.scope wrapper).kind = .classLevel)
    (hd : (store.scope wrapper).delegate = some shared)
    (hab : (store.scope wrapper).parent = some (.strong above)) (bound : Nat) :
    store.walkFrom held true visit (bound + 2) scope
      = (visit scope (store.scope scope)).or ((visit wrapper (store.scope wrapper)).or
          ((visit shared (store.scope shared)).or (store.walkFrom held true visit bound above))) := by
  have hs : store.isFileLevel scope = false := by rw [isFileLevel, hk]
  have hl : store.isFileLevel wrapper = false := by rw [isFileLevel, hw]
  rw [walkFrom, hs, hpl, parentOf_strong held hp]
  simp only [Bool.and_false, Bool.false_eq_true, if_false, Option.bind_none]
  rw [walkFrom, hl, hd, parentOf_strong held hab]
  simp only [Bool.and_false, Bool.false_eq_true, if_false, Option.bind_some]
  cases visit scope (store.scope scope) <;> cases visit wrapper (store.scope wrapper) <;>
    cases visit shared (store.scope shared) <;> rfl

/-- A walk through levels finds what it finds first in the levels and the shared scopes. -/
theorem LevelChain.walkFrom_eq {scopes : List ScopeId} {classes : List Class}
    (h : store.LevelChain home scopes classes) (hr : store.Rooted root)
    (hh : (store.scope home).IsFile root)
    (hv : ∀ id, (store.scope id).IsWrapper → visit id (store.scope id) = none) {bound : Nat}
    (hb : 2 * scopes.length < bound) :
    store.walkFrom held true visit bound (scopes.headD home)
      = (levelPlaces scopes classes).findSome? fun place => visit place (store.scope place) := by
  induction h generalizing bound with
  | nil =>
    obtain ⟨bound, rfl⟩ := Nat.exists_eq_succ_of_ne_zero (Nat.ne_of_gt hb)
    have hf : store.isFileLevel home = true := by rw [isFileLevel, hh.kind]
    rw [List.headD_nil, walkFrom, hf]
    rfl
  | @cons scope wrapper scopes declared classes hk _ hp hd hab _ ih =>
    obtain ⟨bound, rfl⟩ := Nat.exists_eq_add_of_le' (show 2 ≤ bound by simp at hb; omega)
    have hw := hr.wrappers hd
    have hpl := hr.plain_of_kind (ne_of_eq_of_ne hk (by decide))
    have hrs : 2 * scopes.length < bound := by
      rw [List.length_cons] at hb
      omega
    rw [List.headD_cons, walkFrom_level held visit hk hpl hp hw.1 hd hab,
      ih hrs, hv wrapper hw, Option.none_or]
    simp only [levelPlaces, List.zip_cons_cons, List.flatMap_cons, List.cons_append,
      List.nil_append, List.findSome?_cons]
    cases visit scope (store.scope scope) <;>
      cases visit declared.sharedScope (store.scope declared.sharedScope) <;> rfl

/-- A longer walk finds nothing more. -/
theorem InPlace.findMember_eq (h : store.InPlace root) {outer : ScopeId}
    (ho : outer.index < store.scopes.size) {bound : Nat} (hb : store.scopes.size ≤ bound) :
    store.findMember held outer visit = store.walkFrom held true visit bound outer := by
  obtain ⟨path, hp⟩ := exists_ascent (h.rooted.wellFounded h.registered) held outer
  have hl := h.rooted.length_le h.registered hp ho
  exact hp.walkFrom_eq hl (hl.trans hb) true visit

end Walk

namespace IsInstance

variable (h : store.IsInstance root object id)

include h

theorem exists_outer : ∃ outer rest, (store.object object).scopes = outer :: rest := by
  obtain ⟨base, -, -, hc⟩ := h.levels
  cases hs : (store.object object).scopes with
  | nil =>
    have hl := hc.length_eq
    rw [hs, ancestry, List.length_map] at hl
    exact absurd (List.length_eq_zero_iff.mp hl.symm) (Construction.ancestorsFrom_ne_nil store _ _ id)
  | cons outer rest => exact ⟨outer, rest, rfl⟩

/-- A member is looked up in the levels and the shared scopes of the hierarchy. -/
theorem findMember_eq {α : Type} (hp : store.InPlace root) (held : Held) {outer : ScopeId}
    (ho : store.outerScope? object = some outer) {visit : ScopeId → Scope → Option α}
    (hv : ∀ id, (store.scope id).IsWrapper → visit id (store.scope id) = none) :
    store.findMember held outer visit
      = (levelPlaces (store.object object).scopes (store.ancestry id)).findSome? fun place =>
          visit place (store.scope place) := by
  obtain ⟨base, -, hhm, hc⟩ := h.levels
  have hi := (hp.rooted.outer_hosts ho).inside
  have hh : (store.object object).scopes.headD base.home = outer := by
    rw [List.headD_eq_head?_getD, show (store.object object).scopes.head? = some outer from ho]
    rfl
  rw [hp.findMember_eq held visit hi (Nat.le_max_left _
    (2 * (store.object object).scopes.length + 1)), ← hh]
  refine hc.walkFrom_eq held visit hp.rooted hhm hv ?_
  exact Nat.lt_of_lt_of_le (Nat.lt_succ_self _) (Nat.le_max_right _ _)

/-- A member is looked up in the levels of the object, and in the shared scopes of its classes. -/
theorem place_cases (hp : store.InPlace root) {place : ScopeId}
    (hmem : place ∈ levelPlaces (store.object object).scopes (store.ancestry id)) :
    place ∈ (store.object object).scopes ∧ (store.scope place).kind = .object ∨
      (∃ ancestor ∈ store.hierarchy id, ancestor.index < store.classes.size ∧
        place = (store.classAt ancestor).sharedScope) ∧ (store.scope place).kind = .classLevel := by
  obtain ⟨base, -, -, hc⟩ := h.levels
  obtain ⟨⟨scope, declared⟩, hl, hmem⟩ := List.mem_flatMap.mp hmem
  obtain ⟨hs, hd⟩ := List.of_mem_zip hl
  rcases List.mem_cons.mp hmem with rfl | hmem
  · exact .inl ⟨hs, hc.kind_eq place hs⟩
  · obtain rfl := List.mem_singleton.mp hmem
    obtain ⟨ancestor, han, rfl⟩ := List.mem_map.mp hd
    have hi := hp.registered.hierarchy_inside h.known ancestor han
    exact .inr ⟨⟨ancestor, han, hi, rfl⟩, (hp.registered.grounded.placed hi).kind⟩

/-- None of these places holds the names of a file. -/
theorem isFileLevel_eq (hp : store.InPlace root) :
    ∀ place ∈ levelPlaces (store.object object).scopes (store.ancestry id),
      store.isFileLevel place = false := by
  intro place hmem
  rcases h.place_cases hp hmem with ⟨-, hk⟩ | ⟨-, hk⟩
  · rw [isFileLevel, hk]
  · rw [isFileLevel, hk]

end IsInstance

/-! ## Declarations -/

/-- The class declares a function of the name, for its instances or for itself. -/
def Declares (store : Store) (declared : Class) (name : String) : Prop :=
  declared.members.functions.binds name = true ∨
    (store.scope declared.sharedScope).functions.binds name = true

instance (declared : Class) (name : String) : Decidable (store.Declares declared name) :=
  inferInstanceAs (Decidable (_ ∨ _))

/-- The function that the class declares under the name, as an instance with the level `scope` sees
it, and the scope that it belongs to.  One for instances comes before one for the class. -/
inductive Provides (store : Store) (scope : ScopeId) (declared : Class) (name : String) :
    Function → ScopeId → Prop where
  | ofInstance {function : Function}
      (declares : declared.members.functions.get? name = some function) :
      Provides store scope declared name function scope
  | ofClass {function : Function} (lacks : declared.members.functions.get? name = none)
      (declares : store.ownFunction? declared.sharedScope name = some function) :
      Provides store scope declared name function declared.sharedScope

/-- The function of the level, or else that of its class. -/
def levelFunction? (store : Store) (name : String) (level : ScopeId × Class) :
    Option (Function × ScopeId) :=
  ((level.2.members.functions.get? name).map (·, level.1)).or
    ((store.ownFunction? level.2.sharedScope name).map (·, level.2.sharedScope))

theorem levelFunction?_eq_some_iff {name : String} {scope place : ScopeId} {declared : Class}
    {function : Function} : store.levelFunction? name (scope, declared) = some (function, place) ↔
      store.Provides scope declared name function place := by
  unfold levelFunction?
  dsimp only
  constructor
  · intro h
    cases hown : declared.members.functions.get? name with
    | some found =>
      rw [hown] at h
      cases h
      exact .ofInstance hown
    | none =>
      rw [hown, Option.map_none, Option.none_or] at h
      obtain ⟨found, hf, heq⟩ := Option.map_eq_some_iff.mp h
      cases heq
      exact .ofClass hown hf
  · intro h
    cases h with
    | ofInstance hd => rw [hd, Option.map_some, Option.some_or]
    | ofClass hl hd => rw [hl, hd, Option.map_none, Option.none_or, Option.map_some]

theorem levelFunction?_eq_none_iff {name : String} {level : ScopeId × Class} :
    store.levelFunction? name level = none ↔ ¬ store.Declares level.2 name := by
  unfold levelFunction? Declares ownFunction? Table.binds
  rw [Option.or_eq_none_iff, Option.map_eq_none_iff, Option.map_eq_none_iff]
  simp

/-- What is found is found at the first level that has it. -/
theorem IsInstance.memberFunction?_eq (h : store.IsInstance root object id)
    (hp : store.InPlace root) (held : Held) {outer : ScopeId}
    (ho : store.outerScope? object = some outer) (name : String) :
    store.memberFunction? held outer name
      = ((store.object object).scopes.zip (store.ancestry id)).findSome?
          (store.levelFunction? name) := by
  obtain ⟨base, -, -, hc⟩ := h.levels
  have hf := hc.functions_eq
  unfold memberFunction?
  rw [h.findMember_eq hp held ho fun place hw => by rw [hw.2.2]; rfl]
  unfold levelPlaces
  generalize (store.object object).scopes.zip (store.ancestry id) = levels at hf
  clear hc
  induction levels with
  | nil => rfl
  | cons level rest ih =>
    obtain ⟨hl, hr⟩ := List.forall_mem_cons.mp hf
    rw [List.flatMap_cons, List.findSome?_append, ih hr, List.findSome?_cons]
    simp only [List.findSome?_cons, List.findSome?_nil, levelFunction?, ownFunction?, ← hl]
    cases ((store.scope level.1).functions.get? name) <;>
      cases ((store.scope level.2.sharedScope).functions.get? name) <;> rfl

theorem IsInstance.memberValue?_eq (h : store.IsInstance root object id)
    (hp : store.InPlace root) (held : Held) {outer : ScopeId}
    (ho : store.outerScope? object = some outer) (name : String) :
    store.memberValue? held outer name
      = (levelPlaces (store.object object).scopes (store.ancestry id)).findSome? fun place =>
          (store.scope place).values.get? name :=
  h.findMember_eq hp held ho fun _ hw => by
    rw [hw.2.1]
    rfl

end Store

namespace System

variable {σ τ : Type} {host : Host σ τ} {system : System σ τ} {moves : List (Move σ τ)}

theorem History.instances (h : History host moves system) :
    system.store.Instances system.program.root :=
  h.keeps Store.instances_newGlobal
    (fun files hp hi => hi.addUnit hp files)
    fun hp hi hc => hi.changed hp hc

/-- **Members of instances.**  Whatever has happened to a program, a function of an instance is that
of the most derived class that declares the name, with the level of that class or its shared scope,
and there is none if no class of the hierarchy declares the name.  A variable of an instance is the
one that is found first in the levels and the shared scopes of the hierarchy.  No name of a file is a
member. -/
theorem History.members_resolve (h : History host moves system) {object : ObjectRef} {id : ClassId}
    (hclass : (system.store.object object).classId = some id) :
    id.index < system.store.classes.size ∧
      (system.store.object object).scopes.length = (system.store.ancestry id).length ∧
      ∃ outer, system.store.outerScope? object = some outer ∧ ∀ (held : Held) (name : String),
        (∀ function place,
          system.store.memberFunction? held outer name = some (function, place) ↔
            ∃ nearer further scope declared,
              (system.store.object object).scopes.zip (system.store.ancestry id)
                = nearer ++ (scope, declared) :: further ∧
              (∀ level ∈ nearer, ¬ system.store.Declares level.2 name) ∧
              system.store.Provides scope declared name function place) ∧
        (system.store.memberFunction? held outer name = none ↔
          ∀ declared ∈ system.store.ancestry id, ¬ system.store.Declares declared name) ∧
        system.store.memberValue? held outer name
          = (Store.levelPlaces (system.store.object object).scopes
              (system.store.ancestry id)).findSome?
                (fun place => (system.store.scope place).values.get? name) ∧
        ∀ place ∈ Store.levelPlaces (system.store.object object).scopes (system.store.ancestry id),
          system.store.isFileLevel place = false := by
  have hplace := h.inPlace.store
  have hinstance := h.instances object id hclass
  obtain ⟨base, -, -, hchain⟩ := hinstance.levels
  obtain ⟨outer, rest, hscopes⟩ := hinstance.exists_outer
  have houter : system.store.outerScope? object = some outer := by
    rw [Store.outerScope?, hscopes]
    rfl
  refine ⟨hinstance.known, hchain.length_eq, outer, houter, fun held name => ⟨?_, ?_,
    hinstance.memberValue?_eq hplace held houter name, hinstance.isFileLevel_eq hplace⟩⟩
  · intro function place
    rw [hinstance.memberFunction?_eq hplace held houter, List.findSome?_eq_some_iff]
    simp only [Store.levelFunction?_eq_none_iff]
    constructor
    · rintro ⟨nearer, ⟨scope, declared⟩, further, hsplit, hfound, hnone⟩
      exact ⟨nearer, further, scope, declared, hsplit, hnone,
        Store.levelFunction?_eq_some_iff.mp hfound⟩
    · rintro ⟨nearer, further, scope, declared, hsplit, hnone, hprovides⟩
      exact ⟨nearer, (scope, declared), further, hsplit,
        Store.levelFunction?_eq_some_iff.mpr hprovides, hnone⟩
  · rw [hinstance.memberFunction?_eq hplace held houter, List.findSome?_eq_none_iff]
    simp only [Store.levelFunction?_eq_none_iff]
    have hclasses := List.map_snd_zip (Nat.le_of_eq hchain.length_eq.symm)
    conv_rhs => rw [← hclasses, List.forall_mem_map]

/-- A source that creates an instance of a class with a parent. -/
def heirFiles : List Node :=
  (Grammar.parseText ("class A\nfunction f()\nend\nend\nclass B of type A\nshared function f()\n" ++
    "end\nend\nnew B\n") "heirs").toOption.toList

/-- The source runs, and the instance has been made. -/
def derivedSystem : System Unit Standard.Sleep :=
  (advance Standard.host)^[9] (launch heirFiles { state := () })

/-- The function of the class comes before that of its parent, and no other one is found. -/
theorem History.members_resolve_heir :
    ∃ moves outer, History Standard.host moves derivedSystem ∧
      derivedSystem.store.outerScope? ⟨0, "B", 1⟩ = some outer ∧ ∀ held : Held,
        (∃ function, derivedSystem.store.memberFunction? held outer "f"
          = some (function, (derivedSystem.store.classAt ⟨1⟩).sharedScope)) ∧
        derivedSystem.store.memberFunction? held outer "g" = none := by
  have hhistory : History Standard.host _ derivedSystem :=
    (History.launch (by decide +kernel)).advance 9
  have hclass : (derivedSystem.store.object ⟨0, "B", 1⟩).classId = some ⟨1⟩ := by decide +kernel
  obtain ⟨-, -, outer, houter, hmembers⟩ := hhistory.members_resolve hclass
  refine ⟨_, outer, hhistory, houter, fun held => ⟨?_, ?_⟩⟩
  · have hscopes : (derivedSystem.store.object ⟨0, "B", 1⟩).scopes = [⟨7⟩, ⟨5⟩] := by decide +kernel
    have hhierarchy : derivedSystem.store.hierarchy ⟨1⟩ = [⟨1⟩, ⟨0⟩] := by decide +kernel
    have hdeclares : (derivedSystem.store.ownFunction?
        (derivedSystem.store.classAt ⟨1⟩).sharedScope "f").isSome = true := by decide +kernel
    have hlacks : ((derivedSystem.store.classAt ⟨1⟩).members.functions.get? "f").isNone = true := by
      decide +kernel
    obtain ⟨function, hfunction⟩ := Option.isSome_iff_exists.mp hdeclares
    refine ⟨function, ((hmembers held "f").1 _ _).mpr ⟨[], [(⟨5⟩, derivedSystem.store.classAt ⟨0⟩)],
      ⟨7⟩, derivedSystem.store.classAt ⟨1⟩, ?_, by simp, ?_⟩⟩
    · rw [hscopes, Store.ancestry, hhierarchy]
      rfl
    · exact .ofClass (Option.isNone_iff_eq_none.mp hlacks) hfunction
  · exact (hmembers held "g").2.1.mpr (by decide +kernel)

end System

end StepScript
