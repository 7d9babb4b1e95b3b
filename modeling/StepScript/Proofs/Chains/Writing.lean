import StepScript.Proofs.Chains.Rooted
import StepScript.Proofs.Registration.Members
set_option autoImplicit false

/-!
# Scopes stay in their places

New scopes go under scopes that exist, scopes and objects are changed without moving them, and what
a lookup finds refers to scopes of the store.  So scopes keep their places when the store is written
to, and when a unit is registered (`Store.Rooted.addUnit`).
-/

namespace StepScript

variable {name owner : String} {function : Function}

namespace Store

variable {store later : Store} {root id : ScopeId} {held : Held}

/-! ## New scopes and objects -/

/-- What is asked of a new scope. -/
structure Admits (store : Store) (scope : Scope) : Prop where
  parent : ∃ link, scope.parent = some link ∧ link.target.index < store.scopes.size
  delegate : ∀ shared, scope.delegate = some shared → store.IsShared shared ∧ scope.IsWrapper
  classes : scope.classes = []
  behaviours : scope.behaviours = []
  declared : store.HostsAll scope.declaredScopes

/-- A scope without entries under a scope of the store. -/
theorem admits_newScope {parent : ScopeId} (hp : parent.index < store.scopes.size)
    (kind : ScopeKind) : store.Admits { kind, parent := some (.strong parent) } where
  parent := ⟨_, rfl, hp⟩
  delegate _ hs := nomatch hs
  classes := rfl
  behaviours := rfl
  declared := hostsAll_nil _

namespace Rooted

variable (h : store.Rooted root)

include h

theorem addScope {scope : Scope} (hs : store.Admits scope) :
    (store.addScope scope).2.Rooted root := by
  obtain ⟨⟨link, hl, ht⟩, hd, hcl, hb, hdc⟩ := hs
  have hk : store.KeepsDelegates (store.addScope scope).2 := keepsDelegates_addScope scope
  have hc (id : ScopeId) : (id.index = store.scopes.size ∧
      (store.addScope scope).2.scope id = scope) ∨
      (store.addScope scope).2.scope id = store.scope id := by
    rw [scope_addScope]
    split
    · next heq => exact .inl ⟨heq, rfl⟩
    · exact .inr rfl
  refine ⟨fun {id} hid hn => ?_, fun {id link'} hl' => ?_, fun {id shared} hsh => ?_,
    fun {id shared} hsh => ?_, h.host.kept hk, fun hid => (h.shared hid).kept hk,
    fun {id} hne => ?_, fun id => ?_, fun id => (h.functions id).kept hk, fun id => ?_,
    fun object => (h.objects object).kept hk⟩
  · rcases hc id with ⟨-, hs⟩ | hs
    · rw [hs, hl] at hn
      cases hn
    · rw [hs] at hn
      by_cases hnew : id.index = store.scopes.size
      · rw [scope_addScope, if_pos hnew] at hs
        rw [← hs, hl] at hn
        cases hn
      · rw [size_addScope] at hid
        exact h.orphan (by omega) hn
  · rcases hc id with ⟨hnew, hs⟩ | hs
    · rw [hs, hl] at hl'
      obtain rfl := Option.some.inj hl'
      exact .inl (hnew ▸ ht)
    · exact h.parents (hs ▸ hl')
  · rcases hc id with ⟨-, hs⟩ | hs
    · exact (hd shared (hs ▸ hsh)).1
    · exact h.delegates (hs ▸ hsh)
  · rcases hc id with ⟨-, hs⟩ | hs
    · rw [hs]
      exact (hd shared (hs ▸ hsh)).2
    · rw [hs] at hsh ⊢
      exact h.wrappers hsh
  · rcases hc id with ⟨-, hs⟩ | hs
    · rw [hs, hcl]
    · rw [hs]
      exact h.classes hne
  · rcases hc id with ⟨-, hs⟩ | hs
    · rw [hs]
      exact hdc.kept hk
    · rw [hs]
      exact (h.declared id).kept hk
  · rcases hc id with ⟨-, hs⟩ | hs
    · rw [hs, hb]
      simp
    · rw [hs]
      exact fun entry he => (h.behaviours id entry he).kept hk

theorem addObject (typeName : String) (serial : Nat) {object : Object}
    (ho : store.HostsAll object.scopes) :
    (store.addObject typeName serial object).2.Rooted root := by
  refine { h with objects := fun ref => ?_ }
  rw [object_addObject]
  split
  · exact ho
  · exact h.objects ref

/-! ## Changes -/

theorem of_eq (hs : later.scopes = store.scopes) (hc : later.classes = store.classes)
    (ho : later.objects = store.objects) :
    later.Rooted root := by
  obtain ⟨scopes, objects, classes, released⟩ := later
  obtain rfl := hs
  obtain rfl := hc
  obtain rfl := ho
  exact ⟨h.orphan, h.parents, h.delegates, h.wrappers, h.host, h.shared, h.classes, h.declared,
    h.functions, h.behaviours, h.objects⟩

/-- A change of a scope that leaves it in its place. -/
theorem modifyScope {change : Scope → Scope}
    (hp : (change (store.scope id)).parent = (store.scope id).parent)
    (hd : (change (store.scope id)).delegate = (store.scope id).delegate)
    (hw : ∀ shared, (store.scope id).delegate = some shared →
      (change (store.scope id)).IsWrapper)
    (hcl : id ≠ root → (change (store.scope id)).classes = [])
    (hb : ∀ entry ∈ (change (store.scope id)).behaviours, store.HostsAll entry.2.members.scopes)
    (hdc : store.HostsAll (change (store.scope id)).declaredScopes) :
    (store.modifyScope id change).Rooted root := by
  have hsz := size_modifyScope store id change
  have hc (place : ScopeId) : (place = id ∧
      (store.modifyScope id change).scope place = change (store.scope id)) ∨
      (store.modifyScope id change).scope place = store.scope place := by
    rw [scope_modifyScope]
    split
    · next heq => exact .inl ⟨heq.1, rfl⟩
    · exact .inr rfl
  have hk : store.KeepsDelegates (store.modifyScope id change) := keepsDelegates_modifyScope hd
  refine ⟨fun {place} hpl hn => ?_, fun {place link} hl => ?_,
    fun {place shared} hsh => ?_, fun {place shared} hsh => ?_, h.host.kept hk,
    fun hid => (h.shared hid).kept hk, fun {place} hne => ?_, fun place => ?_,
    fun declared => (h.functions declared).kept hk, fun place => ?_,
    fun object => (h.objects object).kept hk⟩
  · refine h.orphan (hsz ▸ hpl) ?_
    rcases hc place with ⟨rfl, hs⟩ | hs
    · rw [← hp, ← hs, hn]
    · rw [← hs, hn]
  · refine h.parents ?_
    rcases hc place with ⟨rfl, hs⟩ | hs
    · rw [← hp, ← hs, hl]
    · rw [← hs, hl]
  · refine @Rooted.delegates _ _ h place _ ?_
    rcases hc place with ⟨rfl, hs⟩ | hs
    · rw [← hd, ← hs, hsh]
    · rw [← hs, hsh]
  · rcases hc place with ⟨rfl, hs⟩ | hs
    · rw [hs]
      rw [hs, hd] at hsh
      exact hw shared hsh
    · rw [hs] at hsh ⊢
      exact h.wrappers hsh
  · rcases hc place with ⟨rfl, hs⟩ | hs
    · rw [hs]
      exact hcl hne
    · rw [hs]
      exact h.classes hne
  · rcases hc place with ⟨-, hs⟩ | hs
    · rw [hs]
      exact hdc.kept hk
    · rw [hs]
      exact (h.declared place).kept hk
  · rcases hc place with ⟨rfl, hs⟩ | hs
    · rw [hs]
      exact fun entry he => (hb entry he).kept hk
    · rw [hs]
      exact fun entry he => (h.behaviours place entry he).kept hk

theorem modifyObject (ref : ObjectRef) {change : Object → Object}
    (hs : ∀ object, (change object).scopes = object.scopes) :
    (store.modifyObject ref change).Rooted root := by
  refine { h with objects := fun other => ?_ }
  have ho := h.objects other
  unfold Store.modifyObject Store.object at *
  dsimp only
  rw [Array.getElem?_modify]
  split
  · cases hf : store.objects[other.key]? with
    | none => exact hostsAll_nil _
    | some object =>
      rw [hf] at ho
      rw [Option.map_some, Option.getD_some, hs]
      exact ho
  · exact ho

/-- Nothing is bound in the class level of an object. -/
theorem setOwn (hid : (store.scope id).delegate = none) (name : String) (value : Constant) :
    (store.setOwn id name value).Rooted root := by
  refine h.modifyScope rfl rfl (fun shared hs => ?_) h.classes (h.behaviours _) (h.declared id)
  cases hid.symm.trans hs

theorem setAllOwn (hid : store.Hosts id) (values : Table Constant) :
    (store.setAllOwn id values).Rooted root := by
  unfold Store.setAllOwn
  induction values generalizing store with
  | nil => exact h
  | cons entry rest ih =>
    exact ih (h.setOwn hid.plain entry.1 entry.2) (hid.kept (keepsDelegates_modifyScope rfl))

theorem setObjects (scopes : List ScopeId) (object : ObjectRef) :
    (scopes.foldl (fun store scope => store.setObject scope object) store).Rooted root := by
  induction scopes generalizing store with
  | nil => exact h
  | cons id rest ih =>
    exact ih (h.modifyScope rfl rfl (fun _ => h.wrappers) h.classes (h.behaviours _)
      (h.declared id))

theorem attach (id : ScopeId) (behaviour : ObjectRef) : (store.attach id behaviour).Rooted root :=
  h.modifyScope rfl rfl (fun _ => h.wrappers) h.classes (h.behaviours _) (h.declared id)

theorem setFunctions (hid : (store.scope id).delegate = none) {functions : Table Function}
    (hf : store.HostsAll functions.scopes) :
    (store.setFunctions id functions).Rooted root := by
  refine h.modifyScope rfl rfl (fun shared hs => ?_) h.classes (h.behaviours _) ?_
  · cases hid.symm.trans hs
  exact hostsAll_append.mpr ⟨hf, (hostsAll_append.mp (h.declared id)).2⟩

/-- The state of the program keeps its files. -/
theorem withState {α : Type} (held : Held) (id : ScopeId) {use : GlobalState → α × GlobalState}
    (hf : ∀ state, (use state).2.files = state.files) :
    (store.withState held id use).2.Rooted root := by
  refine h.modifyScope rfl rfl (fun _ => h.wrappers) h.classes (h.behaviours _) ?_
  have hd := hostsAll_append.mp (h.declared (store.root held id))
  refine hostsAll_append.mpr ⟨hd.1, ?_⟩
  dsimp only
  rw [Option.toList_some, List.flatMap_singleton, hf]
  cases hs : (store.scope (store.root held id)).state with
  | none => exact hostsAll_nil _
  | some state =>
    have hold := hd.2
    rw [hs, Option.toList_some, List.flatMap_singleton] at hold
    exact hold

end Rooted

/-! ## What lookups find -/

/-- What a walk finds is found somewhere. -/
theorem exists_of_walkFrom {α : Type} {membersOnly : Bool} {visit : ScopeId → Scope → Option α}
    {bound : Nat} {answer : α}
    (h : store.walkFrom held membersOnly visit bound id = some answer) :
    ∃ place, visit place (store.scope place) = some answer := by
  induction bound generalizing id with
  | zero => cases h
  | succ bound ih =>
    unfold walkFrom at h
    split at h
    · cases h
    · split at h
      · next found hf =>
        obtain rfl := Option.some.inj h
        exact ⟨id, hf⟩
      · split at h
        · next found hf =>
          obtain rfl := Option.some.inj h
          obtain ⟨shared, -, hs⟩ := Option.bind_eq_some_iff.mp hf
          exact ⟨shared, hs⟩
        · split at h
          · exact ih h
          · cases h

namespace Rooted

section

variable (h : store.Rooted root)

include h

/-- Only the class levels of objects have delegates. -/
theorem plain_of_kind (hk : (store.scope id).kind ≠ .classLevel) :
    (store.scope id).delegate = none := by
  cases hd : (store.scope id).delegate with
  | none => rfl
  | some shared => exact absurd (h.wrappers hd).1 hk

/-- A class level binds nothing. -/
theorem plain_of_binds (hb : (store.scope id).values.binds name = true) :
    (store.scope id).delegate = none := by
  cases hd : (store.scope id).delegate with
  | none => rfl
  | some shared =>
    rw [(h.wrappers hd).2.1] at hb
    cases hb

/-- A function refers to scopes of the store, and so is the place where it is declared. -/
theorem function_declared (hget : store.ownFunction? id name = some function) :
    store.HostsAll (id :: function.scopes) := by
  unfold ownFunction? at hget
  refine hostsAll_cons.mpr ⟨⟨inside_of_ne_default fun hd => ?_, ?_⟩, ?_⟩
  · rw [hd] at hget
    cases hget
  · cases hdl : (store.scope id).delegate with
    | none => rfl
    | some shared =>
      rw [(h.wrappers hdl).2.2] at hget
      cases hget
  · refine (hostsAll_append.mp (h.declared id)).1.subset ?_
    have hmem : function ∈ (store.scope id).functions.entries :=
      List.mem_map.mpr ⟨_, Table.mem_of_get? hget, rfl⟩
    exact fun home hh => List.mem_flatMap.mpr ⟨function, hmem, hh⟩

theorem function_found {membersOnly : Bool} {bound : Nat} {found : ScopeId}
    (hf : store.walkFrom held membersOnly (fun place scope =>
      (scope.functions.get? name).map (·, place)) bound id = some (function, found)) :
    store.HostsAll (found :: function.scopes) := by
  obtain ⟨place, hp⟩ := exists_of_walkFrom hf
  obtain ⟨function, hget, heq⟩ := Option.map_eq_some_iff.mp hp
  obtain ⟨rfl, rfl⟩ := Prod.mk.inj heq
  exact h.function_declared hget

end

/-- The scope that a call of a function runs under. -/
theorem callParent_hosts {found : ScopeId} (h : store.HostsAll (found :: function.scopes)) :
    store.Hosts (function.callParent found) := by
  obtain ⟨hf, hs⟩ := hostsAll_cons.mp h
  unfold Function.callParent
  cases hh : function.home with
  | none => exact hf
  | some home => exact hs home (by simp [Function.scopes, hh])

variable (h : store.Rooted root)

include h

/-- A class that is found is registered. -/
theorem class_found (hg : store.Grounded root) {declared : ClassId}
    (hf : store.class? held id name = some declared) :
    declared.index < store.classes.size := by
  obtain ⟨place, hp⟩ := exists_of_walkFrom hf
  by_cases hr : place = root
  · subst hr
    exact (hg.get?_class_iff.mp hp).1
  · rw [h.classes hr] at hp
    cases hp

theorem behaviour_found {behaviour : Behaviour}
    (hf : store.behaviour? held id name = some behaviour) :
    store.HostsAll behaviour.members.scopes := by
  obtain ⟨place, hp⟩ := exists_of_walkFrom hf
  exact h.behaviours place _ (Table.mem_of_get? hp)

theorem outer_hosts {object : ObjectRef} {outer : ScopeId}
    (ho : store.outerScope? object = some outer) : store.Hosts outer :=
  h.objects object outer (List.mem_of_head? ho)

end Rooted

end Store

/-! ## Registration -/

/-- Functions of the body of a class or a behaviour have no home of their own. -/
theorem Node.home_of_member {node : Node} {member : Member} (h : node.member? owner = some member)
    {shared : Bool}
    (hf : member.function? shared = some function ∨
      member.constructor? shared = some function) : function.home = none := by
  obtain ⟨kind, token⟩ := node
  cases kind <;> simp only [Node.member?, Option.some.injEq, reduceCtorEq] at h <;> subst h <;>
    simp_all <;> grind

theorem DeclareMembers.exists_node {kind : OwnerKind} {statements : List Node}
    {members : List Member} (h : DeclareMembers owner kind statements members) :
    ∀ member ∈ members, ∃ node : Node, node.member? owner = some member := by
  obtain ⟨he, -⟩ := h
  induction he with
  | nil => simp
  | cons hm _ ih => exact List.forall_mem_cons.mpr ⟨⟨_, hm⟩, ih⟩

/-- Nothing that has been collected refers to a scope. -/
structure Collected.Homeless (collected : Collected) : Prop where
  members : collected.members.scopes = []
  sharedFunctions : collected.sharedFunctions.scopes = []
  sharedConstructor : collected.sharedConstructor.toList.flatMap Function.scopes = []

theorem Collected.homeless {kind : OwnerKind} {body : Node} {collected : Collected}
    (h : Collected.ofBody owner kind body = .ok collected) :
    collected.Homeless := by
  obtain ⟨-, members, hmm, hh⟩ := Collected.ofBody_holds h
  have hhm {read : Member → Option Function} (hr : ∀ (node : Node) (member : Member)
      (function : Function), node.member? owner = some member → read member = some function →
      function.home = none) : (members.filterMap read).flatMap Function.scopes = [] := by
    refine List.flatMap_eq_nil_iff.mpr fun function hf => ?_
    obtain ⟨member, hm, hr'⟩ := List.mem_filterMap.mp hf
    obtain ⟨node, hn⟩ := hmm.exists_node member hm
    rw [Function.scopes, hr node member function hn hr']
    rfl
  have ht (functions : List Function) :
      (Table.ofFunctions functions).scopes = functions.flatMap Function.scopes := by
    simp [Table.scopes, Table.ofFunctions, Table.entries, List.flatMap_map]
  refine ⟨?_, ?_, ?_⟩
  · rw [Members.scopes, hh.functions, hh.constructor, ht,
      hhm fun _ _ _ hn hr => Node.home_of_member hn (.inl hr),
      hhm fun _ _ _ hn hr => Node.home_of_member hn (.inr hr)]
    rfl
  · rw [hh.sharedFunctions, ht, hhm fun _ _ _ hn hr => Node.home_of_member hn (.inl hr)]
  · rw [hh.sharedConstructor, hhm fun _ _ _ hn hr => Node.home_of_member hn (.inr hr)]

namespace Store

variable {store later : Store} {root file : ScopeId}

/-- What entries of the Global scope refer to. -/
structure AdmitsEntries (store : Store) (entries : Entries) : Prop where
  files : store.HostsAll entries.files.entries
  functions : ∀ function ∈ entries.functions, store.HostsAll function.scopes
  behaviours : ∀ behaviour ∈ entries.behaviours, store.HostsAll behaviour.members.scopes

namespace Rooted

variable (h : store.Rooted root)

include h

theorem declare {entries : Entries} (he : store.AdmitsEntries entries) :
    (store.declare root entries).Rooted root := by
  have hd := hostsAll_append.mp (h.declared root)
  refine h.modifyScope rfl rfl (fun shared hsh => ?_) (fun hne => absurd rfl hne)
    (fun entry hen => ?_) ?_
  · cases h.host.plain.symm.trans hsh
  · rcases List.mem_append.mp hen with hold | hnew
    · exact h.behaviours root entry hold
    · obtain ⟨behaviour, hb, rfl⟩ := List.mem_map.mp hnew
      exact he.behaviours behaviour hb
  · refine hostsAll_append.mpr ⟨?_, ?_⟩
    · have hbt := hostsAll_append.mpr ⟨hd.1, hostsAll_flatMap.mpr he.functions⟩
      simpa [Scope.declaring, Table.scopes, Table.entries, List.flatMap_map] using hbt
    · cases hs : (store.scope root).state with
      | none => simp [Scope.declaring, hs]
      | some state =>
        have hold := hd.2
        simp only [hs, Option.toList_some, List.flatMap_singleton] at hold
        simpa [Scope.declaring, Scope.declaringState, hs, Table.entries] using
          ⟨hold, he.files⟩

theorem openFile (name : String) : (store.openFile root name).2.Rooted root := by
  unfold Store.openFile
  split
  · exact h
  · refine (h.addScope (admits_newScope h.host.inside .file)).declare ⟨?_, by simp, by simp⟩
    exact hostsAll_cons.mpr ⟨hosts_addScope rfl, hostsAll_nil _⟩

theorem addClass {declared : Class} (hnew : store.Hosts declared.sharedScope)
    (hd : store.HostsAll declared.functionScopes) :
    (store.addClass declared).2.Rooted root := by
  have hs {id : ScopeId} (hid : store.IsShared id) : (store.addClass declared).2.IsShared id := by
    obtain ⟨owner, ho, hsc⟩ := hid
    refine ⟨owner, ?_, ?_⟩
    · exact Nat.lt_of_lt_of_le ho (by simp [Store.addClass])
    · rw [classAt_addClass, if_neg (Nat.ne_of_lt ho), hsc]
  refine ⟨h.orphan, fun hl => (h.parents hl).imp_right hs,
    fun hdl => hs (h.delegates hdl), h.wrappers, h.host, fun {id} hid => ?_,
    h.classes, h.declared, fun id => ?_, h.behaviours, h.objects⟩
  · obtain ⟨owner, ho, rfl⟩ := hid
    rw [classAt_addClass]
    split
    · exact hnew
    · next hold =>
      have ho' : owner.index < store.classes.size := by
        simp only [Store.addClass, Array.size_push] at ho
        omega
      exact h.shared ⟨owner, ho', rfl⟩
  · rw [classAt_addClass]
    split
    · exact hd
    · exact h.functions id

theorem makeClass (hf : store.Hosts file) (name : String) (parentName : Option String)
    {collected : Collected} (hc : collected.Homeless) (token : Token) :
    (store.makeClass file name parentName collected token).2.Rooted root := by
  have had : store.Admits (collected.toShared file) := by
    refine ⟨⟨.strong file, rfl, hf.inside⟩, (fun _ hs => nomatch hs), rfl, rfl, ?_⟩
    simp [Scope.declaredScopes, Collected.toShared, hc.sharedFunctions]
  refine (h.addScope had).addClass (hosts_addScope rfl) ?_
  simp [Class.functionScopes, Collected.toClass, hc.members, hc.sharedConstructor]

theorem declareItem (hf : store.Hosts file) {statement : Node} {item : Item}
    (hi : item.IsOf statement) (hd : store.declareItem root file item = some later) :
    later.Rooted root := by
  cases hi with
  | ofClass _ hc =>
    dsimp only [Store.declareItem] at hd
    split at hd
    · cases hd
    · obtain rfl := Option.some.inj hd
      exact (h.makeClass hf _ _ (Collected.homeless hc) _).declare
        ⟨hostsAll_nil _, by simp, by simp⟩
  | ofBehaviour _ hc =>
    dsimp only [Store.declareItem] at hd
    split at hd
    · cases hd
    · obtain rfl := Option.some.inj hd
      refine h.declare ⟨hostsAll_nil _, by simp, ?_⟩
      simp [Collected.toBehaviour, (Collected.homeless hc).members]
  | ofFunction _ _ =>
    dsimp only [Store.declareItem] at hd
    split at hd
    · cases hd
    · obtain rfl := Option.some.inj hd
      refine h.declare ⟨hostsAll_nil _, ?_, by simp⟩
      simpa [Function.scopes] using hf
  | nothing _ _ =>
    obtain rfl := Option.some.inj hd
    exact h

theorem declareFile (hg : store.Grounded root) {file : Node}
    (hd : store.declareFile root file = some later) : later.Rooted root := by
  unfold Store.declareFile at hd
  split at hd
  · next name body hk =>
    obtain ⟨ho, hf⟩ := hg.openFile name
    refine (foldlM_keeps (P := fun between => (between.Grounded root ∧
      between.IsHome root (store.openFile root name).1) ∧ between.Rooted root) ?_
      ⟨⟨ho, name, hf⟩, h.openFile name⟩ hd).2
    rintro statement - before after ⟨⟨hb, hh⟩, hr⟩ haf
    refine ⟨hb.declareStatement hh haf, ?_⟩
    obtain ⟨item, hit, hd⟩ := Option.bind_eq_some_iff.mp haf
    obtain ⟨file, hf⟩ := hh
    obtain ⟨hi, hif⟩ := hb.files hf
    exact hr.declareItem ⟨hi, hif.delegate⟩ (Item.isOf_of_ofStatement? hit) hd
  · cases hd

theorem declareUnit (hg : store.Grounded root) {files : List Node}
    (hd : store.declareUnit root files = some later) : later.Rooted root := by
  refine (foldlM_keeps (P := fun between => between.Grounded root ∧ between.Rooted root) ?_
    ⟨hg, h⟩ hd).2
  rintro file - before after ⟨hb, hr⟩ haf
  exact ⟨hb.declareFile haf, hr.declareFile hb haf⟩

/-- Links between classes move shared scopes only. -/
theorem relinked (hr : store.Relinked later) (hln : later.Linked root) : later.Rooted root := by
  have hs {id : ScopeId} (hid : store.IsShared id) : later.IsShared id := by
    obtain ⟨owner, ho, hsc⟩ := hid
    exact ⟨owner, hr.classesSize ▸ ho, (hr.sharedScope owner).trans hsc⟩
  have hkp {id : ScopeId} (hid : ¬ store.IsShared id) : later.scope id = store.scope id :=
    hr.kept fun {owner} ho heq => hid ⟨owner, ho, heq⟩
  have hk : store.KeepsDelegates later := by
    intro id hid
    rw [hr.size, hr.scopes]
    exact ⟨hid, rfl⟩
  refine ⟨fun {id} hid hn => ?_, fun {id link} hl => ?_, fun {id shared} hd => ?_,
    fun {id shared} hd => ?_, h.host.kept hk, fun {id} hid => ?_, fun {id} hne => ?_,
    fun id => ?_, fun id => ?_, fun id entry he => ?_, fun object => ?_⟩
  · by_cases hid' : store.IsShared id
    · obtain ⟨owner, ho, rfl⟩ := hid'
      have hp := hln.shared (hr.classesSize ▸ ho)
      rw [SharedLinked, hr.sharedScope, hn] at hp
      cases hp
    · rw [hkp hid'] at hn
      exact h.orphan (hr.size ▸ hid) hn
  · by_cases hid : store.IsShared id
    · exact .inr (hs hid)
    · rw [hkp hid] at hl
      exact (h.parents hl).imp_right hs
  · rw [hr.scopes] at hd
    exact hs (h.delegates hd)
  · rw [hr.scopes] at hd ⊢
    exact h.wrappers hd
  · obtain ⟨owner, ho, rfl⟩ := hid
    rw [hr.sharedScope]
    exact (h.shared ⟨owner, hr.classesSize ▸ ho, rfl⟩).kept hk
  · rw [hr.scopes]
    exact h.classes hne
  · rw [hr.scopes]
    exact (h.declared id).kept hk
  · rw [hr.classes]
    exact (h.functions id).kept hk
  · rw [hr.scopes] at he
    exact (h.behaviours id entry he).kept hk
  · unfold Store.object
    rw [hr.objects]
    exact (h.objects object).kept hk

/-- Scopes keep their places when a unit is registered or refused. -/
theorem addUnit (hr : store.Registered root) (files : List Node) :
    (store.addUnit root files).2.Rooted root := by
  generalize hu : store.addUnit root files = answer
  obtain ⟨error | classes, after⟩ := answer
  · rw [addUnit_error hu]
    exact h
  · obtain ⟨declared, hd, hrl, haf, -⟩ := (addUnit_ok_iff hr).mp hu
    exact (h.declareUnit hr.grounded hd).relinked hrl haf.linked

end Rooted

end Store

end StepScript
