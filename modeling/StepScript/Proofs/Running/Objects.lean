import StepScript.Proofs.Registration.Exactness
import StepScript.Proofs.Running.Changes
set_option autoImplicit false

/-!
# What becomes of objects

An object keeps its scopes for good, and a scope keeps its object and its variables.  Nothing but
the construction of an object attaches behaviours to it or registers it for updates
(`Store.Unfolds`).  A link that does not keep its target alive leads from the scope of a behaviour
to the outermost scope of the owner, and nothing else has such a link (`Store.Owned`).
-/

namespace StepScript

variable {object : ObjectRef} {id : ScopeId} {scope : Scope}

theorem Construction.objects_register (store : Store) (held : Held) (object : ObjectRef) :
    (register store held object).objects = store.objects := by
  unfold register
  split
  · split <;> rfl
  · rfl

namespace Store

variable {root : ScopeId} {own : Option ObjectRef} {store later last : Store}

/-! ## Later stores -/

/-- The object is not the one that is being constructed. -/
def Apart (own : Option ObjectRef) (object : ObjectRef) : Prop :=
  ∀ constructed, own = some constructed → constructed.key ≠ object.key

/-- The store after something has happened, for the construction of `own` if for that of any
object. -/
structure Unfolds (own : Option ObjectRef) (store later : Store) : Prop where
  size : store.scopes.size ≤ later.scopes.size
  known : store.objects.size ≤ later.objects.size
  owners : ∀ {id : ScopeId}, id.index < store.scopes.size →
    (later.scope id).object = (store.scope id).object
  levels : ∀ {object : ObjectRef}, object.key < store.objects.size →
    (later.object object).scopes = (store.object object).scopes
  fresh : ∀ {object : ObjectRef}, store.objects.size ≤ object.key →
    ∀ id ∈ (later.object object).scopes, store.scopes.size ≤ id.index
  classId : ∀ {object : ObjectRef}, object.key < store.objects.size →
    (later.object object).classId = (store.object object).classId
  behaviours : ∀ {object : ObjectRef}, object.key < store.objects.size → Apart own object →
    (later.object object).behaviours = (store.object object).behaviours
  binds : ∀ {id : ScopeId} {name : String}, store.bindsVariable id name = true →
    later.bindsVariable id name = true
  updates : ∀ {object : ObjectRef}, Apart own object → ∀ id order,
    (later.updates id order).count (.ofObject object)
      = (store.updates id order).count (.ofObject object)

theorem object_of_size_le (h : store.objects.size ≤ object.key) :
    store.object object = default := by
  unfold Store.object
  rw [Array.getElem?_eq_none h]
  rfl

/-- There are no levels where there is no object. -/
theorem no_level (h : store.objects.size ≤ object.key) : id ∉ (store.object object).scopes := by
  rw [object_of_size_le h]
  exact List.not_mem_nil

theorem object_modifyObject (store : Store) (owner : ObjectRef) (change : Object → Object)
    (object : ObjectRef) : (store.modifyObject owner change).object object
      = if owner.key = object.key ∧ object.key < store.objects.size then
          change (store.object object) else store.object object := by
  unfold Store.object Store.modifyObject
  rw [Array.getElem?_modify]
  by_cases heq : owner.key = object.key
  · by_cases hi : object.key < store.objects.size
    · simp [heq, hi]
    · simp [heq, hi]
  · simp [heq]

namespace Unfolds

theorem of_eq (hsc : later.scopes = store.scopes) (hob : later.objects = store.objects) :
    store.Unfolds own later := by
  have hs (id : ScopeId) : later.scope id = store.scope id := by
    unfold Store.scope
    rw [hsc]
  have ho (object : ObjectRef) : later.object object = store.object object := by
    unfold Store.object
    rw [hob]
  refine ⟨Nat.le_of_eq (by rw [hsc]), Nat.le_of_eq (by rw [hob]), ?_, ?_, ?_, ?_, ?_, ?_, ?_⟩
  · exact fun _ => by rw [hs]
  · exact fun _ => by rw [ho]
  · exact fun hnew id hid => absurd (ho _ ▸ hid) (no_level hnew)
  · exact fun _ => by rw [ho]
  · exact fun _ _ => by rw [ho]
  · exact fun hb => by rwa [bindsVariable, hs]
  · exact fun _ id order => by rw [Store.updates, hs, Store.updates]

theorem refl (own : Option ObjectRef) (store : Store) : store.Unfolds own store := of_eq rfl rfl

theorem trans (h : store.Unfolds own later) (hn : later.Unfolds own last) :
    store.Unfolds own last where
  size := Nat.le_trans h.size hn.size
  known := Nat.le_trans h.known hn.known
  owners hid := (hn.owners (Nat.lt_of_lt_of_le hid h.size)).trans (h.owners hid)
  levels ho := (hn.levels (Nat.lt_of_lt_of_le ho h.known)).trans (h.levels ho)
  fresh {object} ho id hid := by
    by_cases hm : object.key < later.objects.size
    · exact h.fresh ho id (hn.levels hm ▸ hid)
    · exact Nat.le_trans h.size (hn.fresh (Nat.le_of_not_lt hm) id hid)
  classId ho := (hn.classId (Nat.lt_of_lt_of_le ho h.known)).trans (h.classId ho)
  behaviours ho hap :=
    (hn.behaviours (Nat.lt_of_lt_of_le ho h.known) hap).trans
      (h.behaviours ho hap)
  binds hb := hn.binds (h.binds hb)
  updates hap id order := (hn.updates hap id order).trans (h.updates hap id order)

theorem addScope (hs : scope.state = none) : store.Unfolds own (store.addScope scope).2 := by
  have hr := store.scope_addScope scope
  refine ⟨by simp, Nat.le_refl _, ?_, fun _ => rfl, fun hnew _ hid => absurd hid (no_level hnew),
    fun _ => rfl, fun _ _ => rfl, ?_, ?_⟩
  · intro id hid
    rw [scope_addScope_of_lt hid]
  · intro id name hb
    have hi := inside_of_binds hb
    rwa [bindsVariable, scope_addScope_of_lt hi]
  · intro object _ id order
    rw [Store.updates, Store.updates, hr]
    split
    · next hid => rw [hs, scope_of_size_le (Nat.le_of_eq hid.symm)]; rfl
    · rfl

/-- A scope changes, but keeps its object, its variables and the updates. -/
theorem modifyScope {change : Scope → Scope}
    (ho : (change (store.scope id)).object = (store.scope id).object)
    (hv : ∀ name, (store.scope id).values.binds name = true →
      (change (store.scope id)).values.binds name = true)
    (hs : ∀ object, Apart own object → ∀ order,
      (((change (store.scope id)).state.getD {}).registry order).count (.ofObject object)
        = (store.updates id order).count (.ofObject object)) :
    store.Unfolds own (store.modifyScope id change) := by
  have hr (other : ScopeId) := store.scope_modifyScope id other change
  refine ⟨by simp, Nat.le_refl _, ?_, fun _ => rfl, fun hnew _ hid => absurd hid (no_level hnew),
    fun _ => rfl, fun _ _ => rfl, ?_, ?_⟩
  · intro other _
    rw [hr]
    split
    · next heq => rw [ho, heq.1]
    · rfl
  · intro other name hb
    rw [bindsVariable, hr]
    split
    · next heq => exact hv name (heq.1 ▸ hb)
    · exact hb
  · intro object hap other order
    rw [Store.updates, hr]
    split
    · next heq => rw [hs object hap order, heq.1]
    · rfl

theorem modifyState (held : Held) (id : ScopeId) {change : GlobalState → GlobalState}
    (hc : ∀ state object, Apart own object → ∀ order,
      ((change state).registry order).count (.ofObject object)
        = (state.registry order).count (.ofObject object)) :
    store.Unfolds own (store.modifyState held id change) :=
  modifyScope rfl (fun _ hb => hb) fun object hap order => hc _ object hap order

/-- The construction of an object works on its behaviours. -/
theorem modifyObject {owner : ObjectRef} (ho : own = some owner) {change : Object → Object}
    (hsc : ∀ object : Object, (change object).scopes = object.scopes)
    (hci : ∀ object : Object, (change object).classId = object.classId) :
    store.Unfolds own (store.modifyObject owner change) := by
  have hr := store.object_modifyObject owner change
  refine ⟨Nat.le_refl _, by simp [Store.modifyObject], fun _ => rfl, ?_, ?_, ?_, ?_,
    fun hb => hb, fun _ _ _ => rfl⟩
  · intro object _
    rw [hr]
    split
    · exact hsc _
    · rfl
  · intro object hnew id hid
    rw [hr, if_neg fun hs => Nat.not_lt_of_le hnew hs.2] at hid
    exact absurd hid (no_level hnew)
  · intro object _
    rw [hr]
    split
    · exact hci _
    · rfl
  · intro object _ hap
    rw [hr, if_neg fun hs => hap owner ho hs.1]

theorem addsLevels {home : ScopeId} {scopes : List ScopeId} {levels : List Construction.Level}
    (h : store.AddsLevels later home scopes levels) : store.Unfolds own later := by
  have ho (object : ObjectRef) : later.object object = store.object object := by
    unfold Store.object
    rw [h.objects]
  refine ⟨h.size, Nat.le_of_eq (by rw [h.objects]), ?_, ?_, ?_, ?_, ?_, ?_, ?_⟩
  · intro id hid
    rw [h.kept hid]
  · exact fun _ => by rw [ho]
  · exact fun hnew id hid => absurd (ho _ ▸ hid) (no_level hnew)
  · exact fun _ => by rw [ho]
  · exact fun _ _ => by rw [ho]
  · intro id name hb
    have hi := inside_of_binds hb
    rwa [bindsVariable, h.kept hi]
  · intro object _ id order
    rw [Store.updates, Store.updates]
    by_cases hid : id.index < store.scopes.size
    · rw [h.kept hid]
    · have hot := Nat.le_of_not_lt hid
      rw [(h.plain hot).2, scope_of_size_le hot]
      rfl

theorem makes {held : Held} {record : Object} (h : Makes held store later object record)
    (hf : ∀ id ∈ record.scopes, last.scopes.size ≤ id.index) (hl : last.Unfolds own store) :
    last.Unfolds own later := by
  have hob {other : ObjectRef} (ho : other.key < last.objects.size) :
      later.object other = store.object other := by
    have hi := Nat.lt_of_lt_of_le ho hl.known
    unfold Store.object
    rw [h.objects, Array.getElem?_push, if_neg (Nat.ne_of_lt hi)]
  refine ⟨h.size ▸ hl.size, ?_, ?_, ?_, ?_, ?_, ?_, ?_, ?_⟩
  · rw [h.objects, Array.size_push]
    exact Nat.le_succ_of_le hl.known
  · intro id hid
    rw [h.scopes]
    dsimp only
    rw [if_neg fun hmem => Nat.lt_irrefl _ (Nat.lt_of_lt_of_le hid (hf id hmem.1))]
    exact hl.owners hid
  · exact fun ho => by rw [hob ho, hl.levels ho]
  · intro other hnew id hid
    unfold Store.object at hid
    rw [h.objects, Array.getElem?_push] at hid
    split at hid
    · exact hf id hid
    · exact hl.fresh hnew id hid
  · exact fun ho => by rw [hob ho, hl.classId ho]
  · exact fun ho hap => by rw [hob ho, hl.behaviours ho hap]
  · intro id name hb
    rw [bindsVariable, h.scopes]
    exact hl.binds hb
  · intro other hap id order
    rw [h.updates, hl.updates hap]

theorem ofClass (own : Option ObjectRef) (store : Store) (held : Held) (id : ClassId)
    (args : List Constant) : store.Unfolds own (Construction.ofClass store held id args).2 := by
  rcases Construction.ofClass_cases store held id args with
    ⟨error, he⟩ | ⟨plan, construction, after, hbg, hb⟩
  · rw [he]
    exact .refl own store
  · rw [hbg]
    obtain ⟨between, base, -, had, hm⟩ := hb.made
    exact .makes hm (fun id hid => (had.fresh id hid).1) (.addsLevels had)

theorem ofBehaviour (own : Option ObjectRef) (store : Store) (held : Held) (behaviour : Behaviour)
    (owner : ObjectRef) :
    store.Unfolds own (Construction.ofBehaviour store held behaviour owner).2 := by
  rcases Construction.ofBehaviour_cases store held behaviour owner with
    ⟨error, he⟩ | ⟨construction, after, hbg, hb⟩
  · rw [he]
    exact .refl own store
  · rw [hbg]
    obtain ⟨binding, outer, -, -, -, hm, -⟩ := hb.begun
    refine .makes hm (fun id hid => ?_) (.addScope rfl)
    rw [List.mem_singleton.mp hid]

end Unfolds

/-! ## Objects that have been made -/

/-- An object has been made under the reference: it has scopes, and all of them belong to it. -/
structure Made (store : Store) (object : ObjectRef) : Prop where
  levels : (store.object object).scopes ≠ []
  belongs : ∀ id ∈ (store.object object).scopes, (store.scope id).object = some object

/-- An object with scopes is in the store. -/
theorem key_lt_of_scopes (h : (store.object object).scopes ≠ []) :
    object.key < store.objects.size := by
  by_contra ho
  rw [object_of_size_le (Nat.le_of_not_lt ho)] at h
  exact h rfl

theorem key_lt_of_classId {id : ClassId} (h : (store.object object).classId = some id) :
    object.key < store.objects.size := by
  by_contra ho
  rw [object_of_size_le (Nat.le_of_not_lt ho)] at h
  cases h

/-- What belongs to an object is a scope of the store. -/
theorem inside_of_object (h : (store.scope id).object = some object) :
    id.index < store.scopes.size := by
  refine inside_of_ne_default fun hd => ?_
  rw [hd] at h
  cases h

theorem Made.unfolded (h : store.Made object) (hu : store.Unfolds own later) :
    later.Made object := by
  have hl := hu.levels (key_lt_of_scopes h.levels)
  refine ⟨hl ▸ h.levels, fun id hid => ?_⟩
  have hb := h.belongs id (hl ▸ hid)
  exact (hu.owners (inside_of_object hb)).trans hb

/-- An object has been made under one reference. -/
theorem Made.eq {object other : ObjectRef} (h : store.Made object) (ho : store.Made other)
    (hkey : object.key = other.key) : object = other := by
  have hs : store.object object = store.object other := by
    unfold Store.object
    rw [hkey]
  obtain ⟨id, hid⟩ := List.exists_mem_of_ne_nil _ h.levels
  exact Option.some.inj ((h.belongs id hid).symm.trans (ho.belongs id (hs ▸ hid)))

theorem Makes.made {held : Held} {record : Object} (h : Makes held store later object record)
    (hl : record.scopes ≠ []) (hi : ∀ id ∈ record.scopes, id.index < store.scopes.size) :
    later.Made object := by
  refine ⟨h.object_eq ▸ hl, fun id hid => ?_⟩
  rw [h.object_eq] at hid
  rw [h.scopes]
  exact if_pos ⟨hid, hi id hid⟩

/-! ## Running code -/

theorem Change.unfolds (h : Change root own store later) : store.Unfolds own later := by
  cases h with
  | bind _ name value =>
    refine .modifyScope rfl (fun other hb => ?_) fun _ _ _ => rfl
    rw [Table.binds_insert, hb, Bool.true_or]
  | enter kind _ => exact .addScope rfl
  | file _ =>
    refine .trans (.addScope rfl) (.modifyScope rfl (fun _ hb => hb) ?_)
    intro object _ order
    cases order <;> rfl
  | state held id hk =>
    exact .modifyState held id fun state object _ order => (hk state).objects order object
  | create held args _ => exact .ofClass own store held _ args
  | begin => exact .ofBehaviour own store _ _ _
  | attach id behaviour ho =>
    exact .trans (.modifyScope rfl (fun _ hb => hb) fun _ _ _ => rfl)
      (.modifyObject ho (fun _ => rfl) fun _ => rfl)
  | register held ho =>
    unfold Construction.register
    split
    · split
      · refine .modifyState held _ fun state object hap order => ?_
        rw [GlobalState.count_register, if_neg, Nat.add_zero]
        rintro ⟨-, heq⟩
        exact hap _ ho (congrArg ObjectRef.key (UpdateTarget.ofObject.inj heq)).symm
      · exact .refl own store
    · exact .refl own store
  | wait => exact .of_eq rfl rfl
  | release ticket => exact .of_eq rfl rfl

theorem Changes.unfolds (h : Changes root own store later) : store.Unfolds own later := by
  induction h with
  | refl => exact .refl own store
  | tail _ hc ih => exact ih.trans hc.unfolds

end Store

/-! ## Registration -/

/-- The scope belongs to no object, keeps no books, and keeps its parent alive. -/
structure Scope.IsPlain (scope : Scope) : Prop where
  object : scope.object = none
  state : scope.state = none
  strong : ∀ parent, scope.parent ≠ some (.weak parent)

namespace Store

variable {root file : ScopeId} {own : Option ObjectRef} {store later : Store} {bound : Nat}

/-- The scopes from a place on are plain. -/
def PlainFrom (bound : Nat) (store : Store) : Prop :=
  ∀ id : ScopeId, bound ≤ id.index → (store.scope id).IsPlain

theorem plainFrom_size (store : Store) : store.PlainFrom store.scopes.size := by
  intro id hid
  rw [scope_of_size_le hid]
  exact ⟨rfl, rfl, fun _ hp => nomatch hp⟩

namespace PlainFrom

variable (h : store.PlainFrom bound)

include h

theorem addScope (hs : scope.IsPlain) : (store.addScope scope).2.PlainFrom bound := by
  intro id hid
  rw [scope_addScope]
  split
  · exact hs
  · exact h id hid

theorem newScope (kind : ScopeKind) (parent : ScopeId) :
    (store.newScope kind parent).2.PlainFrom bound :=
  h.addScope ⟨rfl, rfl, fun _ hl => nomatch hl⟩

theorem declare (hr : root.index < bound) (entries : Entries) :
    (store.declare root entries).PlainFrom bound := by
  intro id hid
  have hne : id ≠ root := by
    rintro rfl
    exact Nat.not_lt_of_le hid hr
  rw [scope_declare_of_ne hne]
  exact h id hid

theorem openFile (hr : root.index < bound) (name : String) :
    (store.openFile root name).2.PlainFrom bound := by
  unfold Store.openFile
  split
  · exact h
  · exact (h.newScope .file root).declare hr _

theorem declareItem (hr : root.index < bound) {item : Item}
    (hd : store.declareItem root file item = some later) : later.PlainFrom bound := by
  cases item with
  | ofClass name parentName collected token =>
    dsimp only [Store.declareItem] at hd
    split at hd
    · cases hd
    · obtain rfl := Option.some.inj hd
      have hm : (store.makeClass file name parentName collected token).2.PlainFrom bound :=
        h.addScope ⟨rfl, rfl, fun _ hl => nomatch hl⟩
      exact hm.declare hr _
  | ofBehaviour behaviour =>
    dsimp only [Store.declareItem] at hd
    split at hd
    · cases hd
    · obtain rfl := Option.some.inj hd
      exact h.declare hr _
  | ofFunction function =>
    dsimp only [Store.declareItem] at hd
    split at hd
    · cases hd
    · obtain rfl := Option.some.inj hd
      exact h.declare hr _
  | nothing =>
    obtain rfl := Option.some.inj hd
    exact h

theorem declareUnit (hr : root.index < bound) {files : List Node}
    (hd : store.declareUnit root files = some later) : later.PlainFrom bound := by
  refine foldlM_keeps (fun file _ before after hb haf => ?_) h hd
  unfold Store.declareFile at haf
  split at haf
  · refine foldlM_keeps (fun statement _ between next hbt hn => ?_)
      (hb.openFile hr _) haf
    obtain ⟨item, -, hd⟩ := Option.bind_eq_some_iff.mp hn
    exact hbt.declareItem hr hd
  · cases haf

theorem relinked (hr : store.Relinked later) (hln : later.Linked root) : later.PlainFrom bound := by
  intro id hid
  obtain ⟨hob, hst, hsr⟩ := h id hid
  refine ⟨?_, ?_, fun parent hp => ?_⟩
  · rw [hr.scopes]
    exact hob
  · rw [hr.scopes]
    exact hst
  · by_cases hs : store.IsShared id
    · obtain ⟨owner, ho, rfl⟩ := hs
      have hl := hln.shared (hr.classesSize ▸ ho)
      rw [SharedLinked, hr.sharedScope, hp] at hl
      cases hl
    · rw [hr.kept fun {owner} ho heq => hs ⟨owner, ho, heq⟩] at hp
      exact hsr parent hp

end PlainFrom

/-- A unit is refused, or registered beside what has been there. -/
theorem addUnit_cases (h : store.Registered root) (files : List Node) :
    (store.addUnit root files).2 = store ∨
      store.Keeps root (store.addUnit root files).2 ∧
      store.scopes.size ≤ (store.addUnit root files).2.scopes.size ∧
      store.classes.size ≤ (store.addUnit root files).2.classes.size ∧
      (store.addUnit root files).2.PlainFrom store.scopes.size ∧
      ∃ entries, (store.addUnit root files).2.scope root
        = (store.scope root).declaring entries := by
  generalize hu : store.addUnit root files = answer
  obtain ⟨error | classes, after⟩ := answer
  · exact .inl (addUnit_error hu)
  · obtain ⟨declared, hd, hr, haf, -⟩ := (addUnit_ok_iff h).mp hu
    have hg := h.grounded.grows_unit hd
    have hgr := h.grounded.declareUnit hd
    obtain ⟨entries, he⟩ := hg.entries
    refine .inr ⟨hg.keeps h hgr hr haf, ?_, ?_, ?_, entries, ?_⟩
    · exact Nat.le_trans hg.size (Nat.le_of_eq hr.size.symm)
    · exact Nat.le_trans hg.classesSize (Nat.le_of_eq hr.classesSize.symm)
    · exact (store.plainFrom_size.declareUnit h.grounded.isRoot.inside hd).relinked hr
        haf.linked
    · exact (hr.scope_root hgr).trans he

theorem keepsDelegates_addUnit (h : store.Registered root) (files : List Node) :
    store.KeepsDelegates (store.addUnit root files).2 := by
  rcases addUnit_cases h files with hs | ⟨hk, hsz, -, -, entries, hr⟩
  · rw [hs]
    exact fun _ hid => ⟨hid, rfl⟩
  · intro id hid
    refine ⟨Nat.lt_of_lt_of_le hid hsz, ?_⟩
    by_cases heq : id = root
    · rw [heq, hr]
      rfl
    · rw [hk.scopes hid heq]

/-- Registration leaves objects, variables and updates as they were. -/
theorem unfolds_addUnit (own : Option ObjectRef) (h : store.Registered root) (files : List Node) :
    store.Unfolds own (store.addUnit root files).2 := by
  rcases addUnit_cases h files with hsm | ⟨hk, hs, -, hp, entries, hr⟩
  · rw [hsm]
    exact .refl own store
  · generalize (store.addUnit root files).2 = later at hk hs hp hr ⊢
    have ho (object : ObjectRef) : later.object object = store.object object := by
      unfold Store.object
      rw [hk.objects]
    refine ⟨hs, Nat.le_of_eq (by rw [hk.objects]), ?_, ?_, ?_, ?_, ?_, ?_, ?_⟩
    · intro id hid
      by_cases heq : id = root
      · rw [heq, hr]
        rfl
      · rw [hk.scopes hid heq]
    · exact fun _ => by rw [ho]
    · exact fun hnew id hid => absurd (ho _ ▸ hid) (no_level hnew)
    · exact fun _ => by rw [ho]
    · exact fun _ _ => by rw [ho]
    · intro id name hb
      have hi := inside_of_binds hb
      by_cases heq : id = root
      · rw [bindsVariable, heq, hr]
        exact heq ▸ hb
      · rwa [bindsVariable, hk.scopes hi heq]
    · intro object _ id order
      unfold Store.updates
      by_cases hid : id.index < store.scopes.size
      · by_cases heq : id = root
        · rw [heq, hr]
          cases hst : (store.scope root).state with
          | none => simp [Scope.declaring, hst]
          | some state => cases order <;> simp [Scope.declaring, hst] <;> rfl
        · rw [hk.scopes hid heq]
      · have hot := Nat.le_of_not_lt hid
        rw [(hp id hot).state, scope_of_size_le hot]
        rfl

/-! ## Owners -/

/-- The scope is that of a behaviour, and its link leads to the outermost scope of the owner. -/
structure OwnedBy (store : Store) (id parent : ScopeId) (behaviour owner : ObjectRef) : Prop where
  object : (store.scope id).object = some behaviour
  scopes : (store.object behaviour).scopes = [id]
  classId : (store.object behaviour).classId = none
  outer : store.outerScope? owner = some parent

/-- Only scopes of behaviours have a link that does not keep its target alive. -/
def Owned (store : Store) : Prop :=
  ∀ id parent : ScopeId, (store.scope id).parent = some (.weak parent) →
    ∃ behaviour owner, store.OwnedBy id parent behaviour owner

theorem key_lt_of_outer {outer : ScopeId} (h : store.outerScope? object = some outer) :
    object.key < store.objects.size := by
  refine key_lt_of_scopes fun hnil => ?_
  rw [outerScope?, hnil] at h
  cases h

theorem OwnedBy.unfolded {id parent : ScopeId} {behaviour owner : ObjectRef}
    (h : store.OwnedBy id parent behaviour owner) (hu : store.Unfolds own later) :
    later.OwnedBy id parent behaviour owner := by
  have hb : behaviour.key < store.objects.size :=
    key_lt_of_scopes (by rw [h.scopes]; exact List.cons_ne_nil _ _)
  refine ⟨(hu.owners (inside_of_object h.object)).trans h.object, (hu.levels hb).trans h.scopes,
    (hu.classId hb).trans h.classId, ?_⟩
  rw [outerScope?, hu.levels (key_lt_of_outer h.outer)]
  exact h.outer

/-- It is enough to look at new scopes. -/
theorem Owned.unfolded (h : store.Owned) (hu : store.Unfolds own later)
    (hp : ∀ {id : ScopeId}, id.index < store.scopes.size →
      (later.scope id).parent = (store.scope id).parent)
    (hf : ∀ {id parent : ScopeId}, store.scopes.size ≤ id.index →
      (later.scope id).parent = some (.weak parent) →
      ∃ behaviour owner, later.OwnedBy id parent behaviour owner) : later.Owned := by
  intro id parent hl
  by_cases hid : id.index < store.scopes.size
  · rw [hp hid] at hl
    obtain ⟨behaviour, owner, ho⟩ := h id parent hl
    exact ⟨behaviour, owner, ho.unfolded hu⟩
  · exact hf (Nat.le_of_not_lt hid) hl

theorem Owned.addUnit (h : store.Owned) (hr : store.Registered root)
    (files : List Node) : (store.addUnit root files).2.Owned := by
  have hu := unfolds_addUnit none hr files
  rcases addUnit_cases hr files with hs | ⟨hk, -, -, hp, entries, hrt⟩
  · rw [hs]
    exact h
  · refine h.unfolded hu (fun {id} hid => ?_) fun {id parent} hid hl => ?_
    · by_cases heq : id = root
      · rw [heq, hrt]
        rfl
      · rw [hk.scopes hid heq]
    · exact absurd hl ((hp id hid).strong parent)

/-- A change that makes no scope keeps the rule. -/
theorem Owned.of_size_eq (h : store.Owned) (hu : store.Unfolds own later)
    (he : store.Evolves later) (hs : later.scopes.size = store.scopes.size) :
    later.Owned := by
  refine h.unfolded hu (fun hid => (he.scopes hid).parent) ?_
  intro id parent hid hl
  have hi := inside_of_parent hl
  omega

theorem Owned.addScope (h : store.Owned) (hs : scope.IsPlain)
    (hb : scope.behaviours = []) : (store.addScope scope).2.Owned := by
  have he : store.Evolves (store.addScope scope).2 := .addScope hb
  have hp := store.plainFrom_size.addScope hs
  have hu : store.Unfolds none (store.addScope scope).2 := .addScope hs.state
  refine h.unfolded hu (fun hid => (he.scopes hid).parent) ?_
  intro id parent hid hl
  exact absurd hl ((hp id hid).strong parent)

theorem Owned.ofClass (h : store.Owned) (hr : store.IsRoot root) (held : Held) {id : ClassId}
    (args : List Constant) (hid : id.index < store.classes.size) :
    (Construction.ofClass store held id args).2.Owned := by
  have hc : Change root none store (Construction.ofClass store held id args).2 :=
    .create held args hid
  have hev := hc.evolves hr
  refine h.unfolded hc.unfolds (fun hid => (hev.scopes hid).parent) ?_
  intro scope parent hs hl
  rcases Construction.ofClass_cases store held id args with
    ⟨error, he⟩ | ⟨plan, construction, after, hbg, hb⟩
  · rw [he, scope_of_size_le hs] at hl
    cases hl
  · obtain ⟨between, base, -, had, hm⟩ := hb.made
    rw [hbg, hm.scopes] at hl
    exact absurd hl (had.strong hs)

theorem Owned.ofBehaviour (h : store.Owned) (held : Held) (owner : ObjectRef)
    (behaviour : Behaviour) : (Construction.ofBehaviour store held behaviour owner).2.Owned := by
  have hev := Construction.ofBehaviour_evolves store held behaviour owner
  have hu := Unfolds.ofBehaviour none store held behaviour owner
  refine h.unfolded hu (fun hid => (hev.scopes hid).parent) ?_
  intro scope parent hs hl
  have hi := inside_of_parent hl
  rcases Construction.ofBehaviour_cases store held behaviour owner with
    ⟨error, he⟩ | ⟨construction, after, hbg, hb⟩
  · rw [he, scope_of_size_le hs] at hl
    cases hl
  · rw [hbg] at hl hi hu ⊢
    obtain ⟨binding, outer, -, ho, -, hm, -⟩ := hb.begun
    -- The one new scope is that of the behaviour.
    have hin : scope = ⟨store.scopes.size⟩ := by
      have hsz : after.scopes.size = store.scopes.size + 1 := hm.size.trans (by simp)
      cases scope
      dsimp only at hi hs
      rw [hsz] at hi
      congr 1
      omega
    subst hin
    rw [hm.scopes, scope_addScope, if_pos rfl] at hl
    obtain rfl : outer = parent := ParentLink.weak.inj (Option.some.inj hl)
    have hr := hm.object_eq
    refine ⟨construction.object, owner, ?_, ?_, ?_, ?_⟩
    · rw [hm.scopes]
      exact if_pos ⟨List.mem_singleton_self _, by simp⟩
    · rw [hr]
    · rw [hr]
    · rw [outerScope?, hu.levels (key_lt_of_outer ho)]
      exact ho

/-- Running code keeps the rule. -/
theorem Change.owned (h : Change root own store later) (hr : store.IsRoot root)
    (ho : store.Owned) : later.Owned := by
  have he := h.evolves hr
  have hu := h.unfolds
  cases h with
  | bind id name value => exact ho.of_size_eq hu he (by simp)
  | enter kind _ => exact ho.addScope ⟨rfl, rfl, fun _ hl => nomatch hl⟩ rfl
  | file _ =>
    refine Owned.unfolded ho hu (fun hid => (he.scopes hid).parent) ?_
    intro id parent hid hl
    have hne : id ≠ root := by
      rintro rfl
      exact Nat.not_lt_of_le hid hr.inside
    rw [scope_modifyScope_of_ne hne] at hl
    exact absurd hl ((store.plainFrom_size.newScope .file root id hid).strong parent)
  | state held id _ => exact ho.of_size_eq hu he (size_modifyScope ..)
  | create held args hk => exact ho.ofClass hr held args hk
  | begin => exact ho.ofBehaviour _ _ _
  | attach id behaviour _ => exact ho.of_size_eq hu he (size_modifyScope ..)
  | register held _ =>
    refine ho.of_size_eq hu he ?_
    unfold Construction.register
    split
    · split
      · exact size_modifyScope ..
      · rfl
    · rfl
  | wait => exact ho.of_size_eq hu he rfl
  | release ticket => exact ho.of_size_eq hu he rfl

theorem Changes.owned (h : Changes root own store later) (hr : store.IsRoot root)
    (ho : store.Owned) : later.Owned := by
  induction h with
  | refl => exact ho
  | tail hb hc ih => exact hc.owned (hr.evolved (Changes.evolves hb hr)) ih

end Store

end StepScript
