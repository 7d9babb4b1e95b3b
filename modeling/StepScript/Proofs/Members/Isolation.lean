import StepScript.Proofs.Members.Levels
set_option autoImplicit false

/-!
# Instances apart from each other

Objects are numbered in the order in which they are made, and the scopes of an object belong to no
other one (`Store.Numbered`).  So a lookup of a member of an instance comes to no scope of another
instance, and an assignment to a member of an instance changes for another one at most a variable of
a class that both of them have (`System.History.instances_apart`).
-/

namespace StepScript

namespace Store

variable {root : ScopeId} {own : Option ObjectRef} {store later between : Store} {held : Held}

/-! ## Numbers of objects -/

/-- Objects are numbered in the order in which they are made. -/
structure Numbered (root : ScopeId) (store : Store) : Prop where
  last : store.lastSerial root = store.objects.size
  made : ∀ key, key < store.objects.size → ∃ typeName, store.Made ⟨key, typeName, key + 1⟩

theorem lastSerial_modifyScope {id : ScopeId} {change : Scope → Scope}
    (h : ((change (store.scope id)).state.getD {}).lastSerial = store.lastSerial id)
    (other : ScopeId) : (store.modifyScope id change).lastSerial other = store.lastSerial other := by
  rw [lastSerial, scope_modifyScope]
  split
  · next heq => rw [h, heq.1]
  · rfl

theorem lastSerial_modifyState (store : Store) (held : Held) (id : ScopeId)
    {change : GlobalState → GlobalState}
    (h : ∀ state, (change state).lastSerial = state.lastSerial) (other : ScopeId) :
    (store.modifyState held id change).lastSerial other = store.lastSerial other := by
  unfold lastSerial modifyState
  rw [scope_withState]
  dsimp only
  split
  · exact h _
  · rfl

theorem lastSerial_addScope (hr : root.index < store.scopes.size) (scope : Scope) :
    (store.addScope scope).2.lastSerial root = store.lastSerial root := by
  rw [lastSerial, scope_addScope_of_lt hr, lastSerial]

/-- The owner of a behaviour is held while the behaviour is made, so its scopes are alive, and the
chain of the behaviour goes on with them. -/
theorem Instances.leadsTo_behaviour (h : store.Instances root) (hp : store.InPlace root)
    {owner : ObjectRef} {behaviour : Behaviour}
    (hm : store.HostsAll behaviour.members.scopes) (hh : .object owner ∈ held ())
    (how : (store.object owner).classId.isSome = true) {outer : ScopeId}
    (ho : store.outerScope? owner = some outer) :
    (store.addScope (Construction.behaviourScope behaviour outer)).2.LeadsTo held
      ⟨store.scopes.size⟩ root := by
  obtain ⟨id, hid⟩ := Option.isSome_iff_exists.mp how
  obtain ⟨-, base, -, hhm, hch⟩ := h owner id hid
  have hr := hp.registered.grounded.isRoot
  have he : store.Evolves
      (store.addScope (Construction.behaviourScope behaviour outer)).2 := .addScope rfl
  have hc := he.continues root (.addScope rfl : Unfolds none _ _)
  have hl := (hch.continued hr hc).leadsTo (hr.evolved he)
    (hc.isFile hr hhm).parent held
  rw [List.headD_eq_head?_getD,
    show (store.object owner).scopes.head? = some outer from ho] at hl
  refine hl.under ?_
  unfold parentOf
  rw [scope_addScope, if_pos rfl]
  refine if_pos (((hp.addBehaviour hm ho).enclosed
    (hp.registered.evolved he)).alive_of_object hh ?_ ?_)
  · exact List.mem_append_left _ (List.mem_map_of_mem (List.mem_of_head? ho))
  · have hi := (hp.rooted.outer_hosts ho).inside
    refine Nat.lt_of_lt_of_le ?_ (Nat.le_add_right _ _)
    rw [size_addScope]
    exact Nat.lt_succ_of_lt hi

namespace Numbered

variable (h : store.Numbered root)

include h

theorem of_size_eq (hu : store.Unfolds own later)
    (hs : later.objects.size = store.objects.size)
    (hl : later.lastSerial root = store.lastSerial root) : later.Numbered root := by
  refine ⟨hl.trans (h.last.trans hs.symm), fun key hkey => ?_⟩
  obtain ⟨typeName, hm⟩ := h.made key (hs ▸ hkey)
  exact ⟨typeName, hm.unfolded hu⟩

/-- One object more gets the next number. -/
theorem makes (hu : store.Unfolds own later) {object : ObjectRef} {record : Object}
    (hmk : Makes held between later object record) (ho : between.objects = store.objects)
    (hls : between.lastSerial root = store.lastSerial root) (hm : later.Made object)
    {outer : ScopeId} (hot : record.scopes.head? = some outer)
    (hr : between.LeadsTo held outer root) (hi : root.index < between.scopes.size) :
    later.Numbered root := by
  obtain ⟨hs, hl⟩ := hmk.serial hot (hr.root_eq.symm ▸ hi)
  rw [hr.root_eq] at hs hl
  rw [hls, h.last] at hs
  have hkey : object.key = store.objects.size := by rw [hmk.key, ho]
  have hsz : later.objects.size = store.objects.size + 1 := by
    rw [hmk.objects, Array.size_push, ho]
  refine ⟨by rw [hl, hs, hsz], fun key hnew => ?_⟩
  by_cases hold : key < store.objects.size
  · obtain ⟨typeName, hm⟩ := h.made key hold
    exact ⟨typeName, hm.unfolded hu⟩
  · obtain rfl : key = object.key := by omega
    refine ⟨object.typeName, ?_⟩
    rw [hkey, ← hs, ← hkey]
    exact hm

theorem ofClass (hp : store.InPlace root) {id : ClassId} (hid : id.index < store.classes.size)
    (held : Held) (args : List Constant) :
    (Construction.ofClass store held id args).2.Numbered root := by
  have hr := hp.registered.grounded.isRoot
  have hu := Unfolds.ofClass none store held id args
  rcases Construction.ofClass_cases store held id args with
    ⟨error, he⟩ | ⟨plan, construction, after, hb, hbg⟩
  · rw [he]
    exact h
  · have hm := (Construction.ofClass_builds hb).made
    obtain ⟨between, base, hbs, had, hmk⟩ := hbg.made
    obtain ⟨owner, ho, rfl⟩ := List.mem_map.mp (List.mem_of_getLast? hbs)
    obtain ⟨file, hf⟩ := (hp.registered.grounded.placed
      (hp.registered.hierarchy_inside hid owner ho)).home
    obtain ⟨hi, hh⟩ := hp.registered.grounded.files hf
    rw [hb] at hu ⊢
    cases hs : plan.scopes with
    | nil =>
      have hlv := hm.levels
      rw [hmk.object_eq] at hlv
      exact absurd hs hlv
    | cons outer rest =>
      have hr' : between.IsRoot root :=
        ⟨Nat.lt_of_lt_of_le hr.inside had.size, by rw [had.kept hr.inside, hr.parent]⟩
      have hpr : (between.scope (store.classAt owner).home).parent = some (.strong root) := by
        rw [had.kept hi, hh.parent]
      have hl := had.chain.leadsTo hr' hpr held
      rw [hs] at hl
      refine h.makes hu hmk had.objects ?_ hm (congrArg List.head? hs) hl
        hr'.inside
      rw [lastSerial, had.kept hr.inside, lastSerial]

theorem ofBehaviour (hp : store.InPlace root) (hin : store.Instances root)
    {owner : ObjectRef} {behaviour : Behaviour} (hmm : store.HostsAll behaviour.members.scopes)
    (hh : .object owner ∈ held ()) (how : (store.object owner).classId.isSome = true) :
    (Construction.ofBehaviour store held behaviour owner).2.Numbered root := by
  have hi := hp.registered.grounded.isRoot.inside
  have hu := Unfolds.ofBehaviour none store held behaviour owner
  rcases Construction.ofBehaviour_cases store held behaviour owner with
    ⟨error, he⟩ | ⟨construction, after, hb, hbg⟩
  · rw [he]
    exact h
  · have hm := (Construction.ofBehaviour_builds hb).made
    obtain ⟨binding, outer, -, ho, -, hmk, -⟩ := hbg.begun
    rw [hb] at hu ⊢
    have hld := hin.leadsTo_behaviour hp hmm hh how ho
    have hl := lastSerial_addScope hi (Construction.behaviourScope behaviour outer)
    refine h.makes hu hmk rfl hl hm rfl hld ?_
    rw [size_addScope]
    exact Nat.lt_succ_of_lt hi

/-- Nothing but a construction makes objects. -/
theorem changed (hp : store.InPlace root) (hin : store.Instances root)
    (hc : Change root own store later) :
    later.Numbered root := by
  have hu := hc.unfolds
  have hi := hp.registered.grounded.isRoot.inside
  cases hc with
  | bind => exact h.of_size_eq hu rfl (lastSerial_modifyScope rfl root)
  | attach =>
    refine h.of_size_eq hu (Array.size_modify ..) ?_
    exact (lastSerial_modifyScope rfl root : (store.attach _ _).lastSerial root = _)
  | enter kind _ => exact h.of_size_eq hu rfl (lastSerial_addScope hi _)
  | file _ =>
    refine h.of_size_eq hu rfl ?_
    exact (lastSerial_modifyScope rfl root).trans (lastSerial_addScope hi _)
  | state held id hk =>
    refine h.of_size_eq hu rfl (lastSerial_modifyState store held id (fun state => ?_) root)
    exact (hk state).serial
  | create held args hkn => exact h.ofClass hp hkn held args
  | begin _ hm hh ho => exact h.ofBehaviour hp hin hm hh ho
  | register held _ =>
    refine h.of_size_eq hu (by rw [Construction.objects_register]) ?_
    unfold Construction.register
    split
    · split
      · refine lastSerial_modifyState store held _ (fun state => ?_) root
        unfold GlobalState.register
        split <;> rfl
      · rfl
    · rfl
  | wait | release => exact h.of_size_eq hu rfl rfl

theorem addUnit (hr : store.Registered root) (files : List Node) :
    (store.addUnit root files).2.Numbered root := by
  have hu := unfolds_addUnit none hr files
  rcases addUnit_cases hr files with hsm | ⟨hk, -, -, -, entries, hrt⟩
  · rw [hsm]
    exact h
  · refine h.of_size_eq hu (by rw [hk.objects]) ?_
    rw [lastSerial, hrt, lastSerial]
    cases hs : (store.scope root).state with
    | none => simp [Scope.declaring, hs]
    | some state => simp [Scope.declaring, Scope.declaringState, hs]

/-- No scope belongs to two objects. -/
theorem disjoint {object other : ObjectRef} (hne : object.key ≠ other.key) :
    (store.object object).scopes.Disjoint (store.object other).scopes := by
  intro id hid ho
  obtain ⟨typeName, hm⟩ := h.made object.key (key_lt_of_scopes (List.ne_nil_of_mem hid))
  obtain ⟨otherName, hm'⟩ := h.made other.key (key_lt_of_scopes (List.ne_nil_of_mem ho))
  have hs := Option.some.inj ((hm.belongs id hid).symm.trans (hm'.belongs id ho))
  exact hne (ObjectRef.mk.inj hs).1

/-- Two objects have two numbers. -/
theorem eq_of_serial {object other : ObjectRef} (ho : store.Made object)
    (hot : store.Made other) (hs : object.serial = other.serial) : object = other := by
  have hn {object : ObjectRef} (ho : store.Made object) : object.serial = object.key + 1 := by
    obtain ⟨typeName, hm⟩ := h.made object.key (key_lt_of_scopes ho.levels)
    exact congrArg ObjectRef.serial (ho.eq hm rfl)
  have hon := hn ho
  have hotn := hn hot
  exact ho.eq hot (by omega)

end Numbered

/-! ## Lookups and assignments -/

/-- A lookup of a member from the scope comes to the place, unless it has found the member before. -/
def VisitsMember (store : Store) (held : Held) (id place : ScopeId) : Prop :=
  (store.findMember held id fun visited _ =>
    if visited = place then some visited else none).isSome = true

/-- The place where a member is bound. -/
def memberPlace? (store : Store) (held : Held) (id : ScopeId) (name : String) : Option ScopeId :=
  store.findMember held id fun place scope => if scope.values.binds name then some place else none

namespace IsInstance

variable {object other : ObjectRef} {id otherId : ClassId} {outer place : ScopeId}

variable (h : store.IsInstance root object id)

include h

theorem kind_eq : ∀ scope ∈ (store.object object).scopes, (store.scope scope).kind = .object := by
  obtain ⟨base, -, -, hc⟩ := h.levels
  exact hc.kind_eq

/-- A lookup of a member of an instance comes to no scope of another one. -/
theorem not_visitsMember (hp : store.InPlace root)
    (ho : store.IsInstance root other otherId)
    (hd : (store.object object).scopes.Disjoint (store.object other).scopes) (held : Held)
    (hot : store.outerScope? object = some outer) (hmem : place ∈ (store.object other).scopes) :
    ¬ store.VisitsMember held outer place := by
  have hk := ho.kind_eq place hmem
  have hw (visited : ScopeId) (hv : (store.scope visited).IsWrapper) :
      (if visited = place then some visited else none) = none := by
    refine if_neg fun heq => ?_
    rw [heq] at hv
    cases hk.symm.trans hv.1
  unfold VisitsMember
  rw [h.findMember_eq hp held hot hw, List.findSome?_isSome_iff]
  rintro ⟨visited, hv, hf⟩
  obtain rfl : visited = place := by
    by_contra hne
    rw [if_neg hne] at hf
    cases hf
  rcases h.place_cases hp hv with ⟨hown, -⟩ | ⟨-, hs⟩
  · exact hd hown hmem
  · cases hk.symm.trans hs

theorem place_hosts (hp : store.InPlace root)
    (hmem : place ∈ levelPlaces (store.object object).scopes (store.ancestry id)) :
    store.Hosts place := by
  rcases h.place_cases hp hmem with ⟨hown, -⟩ | ⟨⟨ancestor, -, hi, rfl⟩, -⟩
  · exact hp.rooted.objects object place hown
  · exact hp.rooted.shared ⟨ancestor, hi, rfl⟩

/-- An assignment to a member binds it in a level or in the shared scope of a class. -/
theorem memberPlace_mem (hp : store.InPlace root) (held : Held)
    (ho : store.outerScope? object = some outer) (name : String) :
    (store.memberPlace? held outer name).getD outer
      ∈ levelPlaces (store.object object).scopes (store.ancestry id) := by
  have hf : store.memberPlace? held outer name
      = (levelPlaces (store.object object).scopes (store.ancestry id)).findSome? fun place =>
          if (store.scope place).values.binds name then some place else none :=
    h.findMember_eq hp held ho fun _ hw => by
      rw [hw.2.1]
      rfl
  cases hpl : store.memberPlace? held outer name with
  | some place =>
    obtain ⟨visited, hv, hb⟩ := List.exists_of_findSome?_eq_some (hf.symm.trans hpl)
    split at hb
    · exact Option.some.inj hb ▸ hv
    · cases hb
  | none =>
    obtain ⟨base, -, -, hc⟩ := h.levels
    have hh : (store.object object).scopes.head? = some outer := ho
    generalize (store.object object).scopes = scopes at hc hh ⊢
    generalize store.ancestry id = classes at hc ⊢
    cases hc with
    | nil => cases hh
    | cons =>
      cases hh
      exact List.mem_cons_self

/-- A variable that is bound somewhere makes a difference to an instance only where its members are
looked up, and no difference to the functions. -/
theorem members_setOwn (hp : store.InPlace root) (hi : store.Instances root)
    (hcl : (store.object object).classId = some id)
    (ho : store.outerScope? object = some outer) (hh : store.Hosts place) (name : String)
    (value : Constant) (before after : Held) (member : String) :
    (store.setOwn place name value).memberFunction? after outer member
        = store.memberFunction? before outer member ∧
      ((store.setOwn place name value).memberValue? after outer member
          ≠ store.memberValue? before outer member →
        member = name ∧
          place ∈ levelPlaces (store.object object).scopes (store.ancestry id)) := by
  have hc : Change root none store (store.setOwn place name value) := .bind hh.plain name value
  have hl := hi.changed hp hc object id hcl
  have hp' := hc.inPlace hp
  have han : (store.setOwn place name value).ancestry id = store.ancestry id :=
    (Changes.continues (.single hc) hp.registered.grounded.isRoot).ancestry h.known
  have ho' : (store.setOwn place name value).outerScope? object = some outer := ho
  have hob : (store.setOwn place name value).object object = store.object object := rfl
  constructor
  · rw [hl.memberFunction?_eq hp' after ho', h.memberFunction?_eq hp before ho, han, hob]
    refine congrArg (List.findSome? · _) (funext fun level => ?_)
    unfold levelFunction? ownFunction? setOwn
    rw [scope_modifyScope]
    split
    · next heq => rw [heq.1]
    · rfl
  · rw [hl.memberValue?_eq hp' after ho', h.memberValue?_eq hp before ho, han, hob]
    intro hch
    by_contra hnot
    rw [← List.head?_filterMap, ← List.head?_filterMap] at hch
    refine hch (congrArg List.head? (List.filterMap_congr fun visited hv => ?_))
    by_cases heq : visited = place
    · subst heq
      have hne : member ≠ name := fun hm => hnot ⟨hm, hv⟩
      rw [scope_setOwn_self hh.inside]
      exact Table.get?_insert_of_ne hne _ _
    · rw [scope_setOwn_of_ne heq]

end IsInstance

/-- An assignment to a member of an instance makes a difference to another instance only if it binds
a variable of a class that both of them have. -/
theorem IsInstance.members_setMember {object other : ObjectRef} {id otherId : ClassId}
    {outer otherOuter : ScopeId} (h : store.IsInstance root object id)
    (ho : store.IsInstance root other otherId) (hp : store.InPlace root)
    (hin : store.Instances root) (hcl : (store.object other).classId = some otherId)
    (hd : (store.object object).scopes.Disjoint (store.object other).scopes)
    (hot : store.outerScope? object = some outer)
    (hoo : store.outerScope? other = some otherOuter) (held before after : Held)
    (name member : String) (value : Constant) :
    (store.setMember held outer name value).memberFunction? after otherOuter member
        = store.memberFunction? before otherOuter member ∧
      ((store.setMember held outer name value).memberValue? after otherOuter member
          ≠ store.memberValue? before otherOuter member →
        member = name ∧ ∃ common ∈ store.hierarchy id, common ∈ store.hierarchy otherId ∧
          store.memberPlace? held outer name = some (store.classAt common).sharedScope) := by
  have hmem := h.memberPlace_mem hp held hot name
  obtain ⟨hfn, hv⟩ := ho.members_setOwn hp hin hcl hoo
    (h.place_hosts hp hmem) name value before after member
  refine ⟨hfn, fun hc => ?_⟩
  obtain ⟨hm, hmem'⟩ := hv hc
  refine ⟨hm, ?_⟩
  rcases h.place_cases hp hmem with ⟨hown, hk⟩ | ⟨⟨common, hcm, hi, hpl⟩, hk⟩
  · rcases ho.place_cases hp hmem' with ⟨hown', -⟩ | ⟨-, hk'⟩
    · exact absurd hown' (hd hown)
    · cases hk.symm.trans hk'
  · rcases ho.place_cases hp hmem' with
      ⟨-, hk'⟩ | ⟨⟨ancestor, han, hi', hpl'⟩, -⟩
    · cases hk.symm.trans hk'
    · have hs := hp.registered.grounded.apart hi hi' (hpl.symm.trans hpl')
      refine ⟨common, hcm, hs ▸ han, ?_⟩
      cases hf : store.memberPlace? held outer name with
      | some place =>
        rw [hf] at hpl
        exact congrArg some hpl
      | none =>
        -- Then the variable would be new in the outermost scope, which is no shared scope.
        rw [hf] at hk
        have hok := h.kind_eq outer (List.mem_of_head? hot)
        cases hok.symm.trans hk

end Store

namespace System

variable {σ τ : Type} {host : Host σ τ} {system : System σ τ} {moves : List (Move σ τ)}

theorem History.numbered (h : History host moves system) :
    system.store.Numbered system.program.root := by
  refine And.right (h.keeps (P := fun root store => store.Instances root ∧ store.Numbered root) ?_
    (fun files hp hs => ?_) fun hp hs hc => ?_)
  · exact ⟨Store.instances_newGlobal, rfl, fun key hkey => absurd hkey (Nat.not_lt_zero key)⟩
  · exact ⟨hs.1.addUnit hp files, hs.2.addUnit hp.registered files⟩
  · exact ⟨hs.1.changed hp hc, hs.2.changed hp hs.1 hc⟩

/-- **Instances apart from each other.**  Whatever has happened to a program, what is constructed has
been made under a reference, every object has been made under one, and no two of them have the same
number.  The scopes of two instances are disjoint, and a lookup of a member of one comes to no scope
of the other.  An assignment to a member of one makes a difference to members of the other only if
it is the variable of that name in the shared scope of a class that both of them have. -/
theorem History.instances_apart (h : History host moves system) :
    (∀ machine ∈ system.running, ∀ frame ∈ machine.stack.frames, ∀ object,
      frame.own = some object → system.store.Made object) ∧
    (∀ key, key < system.store.objects.size →
      ∃ object : ObjectRef, object.key = key ∧ system.store.Made object) ∧
    (∀ object other, system.store.Made object → system.store.Made other →
      object.serial = other.serial → object = other) ∧
    ∀ (object other : ObjectRef) (id otherId : ClassId),
      (system.store.object object).classId = some id →
      (system.store.object other).classId = some otherId → object.key ≠ other.key →
      (system.store.object object).scopes.Disjoint (system.store.object other).scopes ∧
      ∃ outer otherOuter, system.store.outerScope? object = some outer ∧
        system.store.outerScope? other = some otherOuter ∧
        (∀ held : Held, ∀ place ∈ (system.store.object other).scopes,
          ¬ system.store.VisitsMember held outer place) ∧
        ∀ (held before after : Held) (name member : String) (value : Constant),
          (system.store.setMember held outer name value).memberFunction? after otherOuter member
              = system.store.memberFunction? before otherOuter member ∧
            ((system.store.setMember held outer name value).memberValue? after otherOuter member
                ≠ system.store.memberValue? before otherOuter member →
              member = name ∧ ∃ common ∈ system.store.hierarchy id,
                common ∈ system.store.hierarchy otherId ∧
                system.store.memberPlace? held outer name
                  = some (system.store.classAt common).sharedScope) := by
  have hplace := h.inPlace.store
  have hinstances := h.instances
  have hnumbered := h.numbered
  refine ⟨fun machine hmachine frame hframe object hown => ?_, fun key hkey => ?_,
    fun object other hobject hother => hnumbered.eq_of_serial hobject hother,
    fun object other id otherId hclass hotherClass hne => ?_⟩
  · have hbuilds := (h.inPlace.machines machine hmachine).builds frame hframe
    cases frame with
    | construct begun => exact Option.some.inj hown ▸ (hbuilds begun rfl).made
    | _ => cases hown
  · obtain ⟨typeName, hmade⟩ := hnumbered.made key hkey
    exact ⟨_, rfl, hmade⟩
  · have hinstance := hinstances object id hclass
    have hother := hinstances other otherId hotherClass
    have hdisjoint := hnumbered.disjoint hne
    obtain ⟨outer, rest, hscopes⟩ := hinstance.exists_outer
    obtain ⟨otherOuter, otherRest, hotherScopes⟩ := hother.exists_outer
    have houter : system.store.outerScope? object = some outer := congrArg List.head? hscopes
    have hotherOuter : system.store.outerScope? other = some otherOuter :=
      congrArg List.head? hotherScopes
    refine ⟨hdisjoint, outer, otherOuter, houter, hotherOuter, fun held place hmem => ?_, ?_⟩
    · exact hinstance.not_visitsMember hplace hother hdisjoint held houter hmem
    · exact hinstance.members_setMember hother hplace hinstances hotherClass hdisjoint houter
        hotherOuter

/-- A source that creates an instance of a class and one of a class derived from it. -/
def pairedFiles : List Node :=
  (Grammar.parseText ("class A\nshared property s\nend\nclass B of type A\nend\nnew A\n" ++
    "new B\n") "pairs").toOption.toList

/-- The source runs, and both of the instances have been made. -/
def pairedSystem : System Unit Standard.Sleep :=
  (advance Standard.host)^[17] (launch pairedFiles { state := () })

/-- The instances share the variable of the class, and what is bound to another member of one of them
makes no difference to the other. -/
theorem History.instances_apart_paired :
    ∃ moves, History Standard.host moves pairedSystem ∧
      (pairedSystem.store.object ⟨0, "A", 1⟩).scopes.Disjoint
        (pairedSystem.store.object ⟨1, "B", 2⟩).scopes ∧
      ∃ outer otherOuter, pairedSystem.store.outerScope? ⟨0, "A", 1⟩ = some outer ∧
        pairedSystem.store.outerScope? ⟨1, "B", 2⟩ = some otherOuter ∧
        (pairedSystem.store.memberPlace? (fun _ => []) outer "s"
          = some (pairedSystem.store.classAt ⟨0⟩).sharedScope) ∧
        ∀ member, member ≠ "s" →
          (pairedSystem.store.setMember (fun _ => []) outer "s" (.boolean true)).memberValue?
              (fun _ => []) otherOuter member
            = pairedSystem.store.memberValue? (fun _ => []) otherOuter member := by
  have hhistory : History Standard.host _ pairedSystem :=
    (History.launch (by decide +kernel)).advance 17
  have hclass : (pairedSystem.store.object ⟨0, "A", 1⟩).classId = some ⟨0⟩ := by decide +kernel
  have hotherClass : (pairedSystem.store.object ⟨1, "B", 2⟩).classId = some ⟨1⟩ := by
    decide +kernel
  obtain ⟨-, -, -, hapart⟩ := hhistory.instances_apart
  obtain ⟨hdisjoint, outer, otherOuter, houter, hotherOuter, -, hassigned⟩ :=
    hapart _ _ _ _ hclass hotherClass (by decide)
  refine ⟨_, hhistory, hdisjoint, outer, otherOuter, houter, hotherOuter, ?_, fun member hne => ?_⟩
  · have hplaced : (pairedSystem.store.outerScope? ⟨0, "A", 1⟩).bind
        (pairedSystem.store.memberPlace? (fun _ => []) · "s")
          = some (pairedSystem.store.classAt ⟨0⟩).sharedScope := by decide +kernel
    rwa [houter] at hplaced
  · by_contra hchanged
    exact hne ((hassigned _ _ _ _ _ _).2 hchanged).1

end System

end StepScript
