import StepScript.Proofs.Members.Isolation
set_option autoImplicit false

/-!
# Assignments and lookups

A lookup goes along a chain, and from each scope to its delegate before its parent
(`Store.visits`), and gives what the first scope binds that binds the name (`Store.binder?`).  An
assignment binds the name in that scope, or else in the scope that it is made in, and leaves all
other names and scopes as they are.  So it is seen from every scope whose lookup comes to that scope
first, and from no other one.

The link of a behaviour to its owner ends with the owner, and an assignment can drop the last value
that holds an owner.  Lookups are followed along chains that no such end cuts short
(`Store.KeepsOwners`).
-/

namespace StepScript.Store

variable {store later : Store} {held : Held} {membersOnly : Bool} {id place : ScopeId}
  {name : String} {value : Constant} {path : List ScopeId}

/-! ## What a lookup visits -/

/-- Chains have no cycles and stay in the store, and a delegate is a scope of a class. -/
structure Chained (store : Store) : Prop where
  acyclic : WellFounded store.IsParent
  parents : ∀ {id parent : ScopeId}, store.IsParent parent id →
    parent.index < store.scopes.size
  delegates : ∀ {id other : ScopeId}, (store.scope id).delegate = some other →
    other.index < store.scopes.size ∧ (store.scope other).kind = .classLevel

/-- The stores that programs work on are such. -/
theorem InPlace.chained {root : ScopeId} (h : store.InPlace root) : store.Chained where
  acyclic := h.rooted.wellFounded h.registered
  parents := h.rooted.parent_inside h.registered
  delegates := by
    intro id other hd
    obtain ⟨declared, hc, rfl⟩ := h.rooted.delegates hd
    have hp := h.registered.grounded.placed hc
    exact ⟨hp.inside, hp.kind⟩

/-- The first scope that a lookup visits and that binds the name. -/
def binder? (store : Store) (membersOnly : Bool) (path : List ScopeId) (name : String) :
    Option ScopeId :=
  (store.visits membersOnly path).find? fun id => (store.scope id).values.binds name

/-! ## Both kinds of names -/

/-- The value of a variable, or that of a property only. -/
def lookup? (store : Store) (held : Held) (membersOnly : Bool) (id : ScopeId) (name : String) :
    Option Constant :=
  if membersOnly then store.memberValue? held id name else store.value? held id name

/-- Bind a variable, or a property only. -/
def assign (store : Store) (held : Held) (membersOnly : Bool) (id : ScopeId) (name : String)
    (value : Constant) : Store :=
  if membersOnly then store.setMember held id name value
  else store.setVariable held id name value

theorem Ascent.lookup?_eq (h : store.Ascent held id path) (hb : path.length ≤ store.scopes.size) :
    store.lookup? held membersOnly id name
      = (store.visits membersOnly path).findSome? fun id => (store.scope id).values.get? name := by
  rw [← h.walkFrom_eq_findSome? hb membersOnly fun _ scope => scope.values.get? name]
  cases membersOnly <;> rfl

theorem Ascent.assign_eq (h : store.Ascent held id path) (hb : path.length ≤ store.scopes.size) :
    store.assign held membersOnly id name value
      = store.setOwn ((store.binder? membersOnly path name).getD id) name value := by
  have hf : (store.visits membersOnly path).findSome? (fun id =>
      if (store.scope id).values.binds name then some id else none)
        = store.binder? membersOnly path name := List.findSome?_guard
  rw [← hf, ← h.walkFrom_eq_findSome? hb membersOnly fun place scope =>
    if scope.values.binds name then some place else none]
  cases membersOnly <;> rfl

/-- The value of a name is what its first binder binds it to. -/
theorem findSome?_get? (store : Store) (name : String) (list : List ScopeId) :
    (list.findSome? fun id => (store.scope id).values.get? name)
      = (list.find? fun id => (store.scope id).values.binds name).bind fun id =>
        (store.scope id).values.get? name := by
  induction list with
  | nil => rfl
  | cons id rest ih =>
    rw [List.findSome?_cons, List.find?_cons, Table.binds]
    cases hv : (store.scope id).values.get? name with
    | some found => exact hv.symm
    | none => exact ih

/-! ## What an assignment changes -/

/-- One variable of one scope is bound, and all else is as it was. -/
structure Binds (store later : Store) (place : ScopeId) (name : String) (value : Constant) :
    Prop where
  size : later.scopes.size = store.scopes.size
  elsewhere : ∀ other ≠ place, later.scope other = store.scope other
  within : later.scope place = { store.scope place with values := (later.scope place).values }
  bound : (later.scope place).values.get? name = some value
  others : ∀ other ≠ name,
    (later.scope place).values.get? other = (store.scope place).values.get? other

theorem binds_setOwn (h : place.index < store.scopes.size) (name : String) (value : Constant) :
    store.Binds (store.setOwn place name value) place name value where
  size := size_modifyScope store place _
  elsewhere other hne := scope_setOwn_of_ne hne name value
  within := by rw [scope_setOwn_self h]
  bound := by rw [scope_setOwn_self h, Table.get?_insert_self]
  others other hne := by rw [scope_setOwn_self h, Table.get?_insert_of_ne hne]

/-- The owners that behaviours of the chain have are as alive as before. -/
def KeepsOwners (store later : Store) (held : Held) (path : List ScopeId) : Prop :=
  ∀ id ∈ path, ∀ owner, (store.scope id).parent = some (.weak owner) →
    later.alive held (.scope owner) = store.alive held (.scope owner)

namespace Binds

variable (h : store.Binds later place name value)

include h

/-- All scopes keep their kinds and links. -/
theorem links (id : ScopeId) : (later.scope id).kind = (store.scope id).kind ∧
    (later.scope id).parent = (store.scope id).parent ∧
    (later.scope id).delegate = (store.scope id).delegate := by
  by_cases hid : id = place
  · rw [hid, h.within]
    exact ⟨rfl, rfl, rfl⟩
  · rw [h.elsewhere id hid]
    exact ⟨rfl, rfl, rfl⟩

theorem ascent (hp : store.Ascent held id path) (hk : store.KeepsOwners later held path) :
    later.Ascent held id path := by
  have hlink (id : ScopeId) (hown : ∀ owner, (store.scope id).parent = some (.weak owner) →
      later.alive held (.scope owner) = store.alive held (.scope owner)) :
      later.parentOf held id = store.parentOf held id := by
    unfold parentOf
    rw [(h.links id).2.1]
    cases hl : (store.scope id).parent with
    | none => rfl
    | some link =>
      cases link with
      | strong parent => rfl
      | weak owner => simp only [hown owner hl]
  induction hp with
  | @last id hn => exact .last ((hlink id (hk id (List.mem_singleton_self _))).trans hn)
  | @under id parent path hl _ ih =>
    obtain ⟨hid, hrest⟩ := List.forall_mem_cons.mp hk
    exact .under ((hlink id hid).trans hl) (ih hrest)

theorem visits_eq (path : List ScopeId) :
    later.visits membersOnly path = store.visits membersOnly path := by
  induction path with
  | nil => rfl
  | cons id rest ih =>
    unfold visits isFileLevel
    rw [(h.links id).1, (h.links id).2.2, ih]

theorem get?_of_ne {other : String} (hne : other ≠ name) (id : ScopeId) :
    (later.scope id).values.get? other = (store.scope id).values.get? other := by
  by_cases hid : id = place
  · rw [hid, h.others other hne]
  · rw [h.elsewhere id hid]

/-- The value is found where the scope comes first, and otherwise what was found before. -/
theorem findSome?_eq (list : List ScopeId) :
    (list.findSome? fun id => (later.scope id).values.get? name)
      = if (list.find? fun id => (later.scope id).values.binds name) = some place then some value
        else list.findSome? fun id => (store.scope id).values.get? name := by
  induction list with
  | nil => rfl
  | cons id rest ih =>
    rw [List.findSome?_cons, List.findSome?_cons, List.find?_cons, Table.binds]
    by_cases hid : id = place
    · simp [hid, h.bound]
    · rw [h.elsewhere id hid, ih]
      cases (store.scope id).values.get? name with
      | some found => simp [hid]
      | none => simp

theorem binds_place : (later.scope place).values.binds name = true := by
  rw [Table.binds, h.bound, Option.isSome_some]

theorem find?_eq {list : List ScopeId}
    (hf : (list.find? fun id => (store.scope id).values.binds name) = some place) :
    (list.find? fun id => (later.scope id).values.binds name) = some place := by
  induction list with
  | nil => cases hf
  | cons id rest ih =>
    rw [List.find?_cons] at hf ⊢
    by_cases hid : id = place
    · rw [hid, h.binds_place]
    · rw [h.elsewhere id hid]
      split at hf
      · exact absurd (Option.some.inj hf) hid
      · exact ih hf

/-- The scope that the name was bound in, or else the one where the lookup starts, comes first
afterwards. -/
theorem binder?_eq {rest : List ScopeId} (hv : store.visits membersOnly path = id :: rest)
    (hp : place = (store.binder? membersOnly path name).getD id) :
    later.binder? membersOnly path name = some place := by
  unfold binder? at hp ⊢
  rw [h.visits_eq]
  cases hb : (store.visits membersOnly path).find? fun id => (store.scope id).values.binds name with
  | some found =>
    obtain rfl : place = found := by rw [hp, hb, Option.getD_some]
    exact h.find?_eq hb
  | none =>
    obtain rfl : place = id := by rw [hp, hb, Option.getD_none]
    rw [hv, List.find?_cons, h.binds_place]

/-- A lookup that no owner's end cuts short. -/
theorem lookup?_eq (hp : store.Ascent held id path) (hl : path.length ≤ store.scopes.size)
    (hk : store.KeepsOwners later held path) (other : String) :
    later.lookup? held membersOnly id other
      = (store.visits membersOnly path).findSome? fun id => (later.scope id).values.get? other := by
  rw [(h.ascent hp hk).lookup?_eq (by rw [h.size]; exact hl), h.visits_eq]

end Binds

/-- What a lookup visits is a scope of the chain, of an object or a class if it is a lookup of
members, or it is a delegate. -/
theorem of_mem_visits (hp : place ∈ store.visits membersOnly path) :
    (place ∈ path ∧ (membersOnly && store.isFileLevel place) = false) ∨
      ∃ id, (store.scope id).delegate = some place := by
  induction path with
  | nil => cases hp
  | cons id rest ih =>
    rw [visits] at hp
    split at hp
    · cases hp
    · next hf =>
      rcases List.mem_cons.mp hp with rfl | hmem
      · exact .inl ⟨List.mem_cons_self, Bool.eq_false_iff.mpr hf⟩
      · rcases List.mem_append.mp hmem with hd | hr
        · exact .inr ⟨id, Option.mem_toList.mp hd⟩
        · exact (ih hr).imp_left (And.imp_left (List.mem_cons_of_mem _))

theorem Chained.visits_inside (h : store.Chained) (hin : store.Contains path)
    (hp : place ∈ store.visits membersOnly path) : place.index < store.scopes.size := by
  rcases of_mem_visits hp with ⟨hm, -⟩ | ⟨id, hd⟩
  · exact hin place hm
  · exact (h.delegates hd).1

theorem Chained.isFileLevel_eq_false (h : store.Chained) (hp : place ∈ store.visits true path) :
    store.isFileLevel place = false := by
  rcases of_mem_visits hp with ⟨-, hk⟩ | ⟨id, hd⟩
  · exact hk
  · rw [isFileLevel, (h.delegates hd).2]

/-- An assignment binds the name where a lookup finds it, or else in the scope where it is made.  A
lookup of another name finds what it found, and one of this name finds the value if it comes to that
scope first, and otherwise what it found.  An assignment to a member changes no scope of a file or of
the whole program. -/
theorem Chained.assign_seen (h : store.Chained) {held : Held} {membersOnly : Bool} {id : ScopeId}
    (hid : id.index < store.scopes.size)
    (hm : membersOnly = true → store.isFileLevel id = false) {name : String} {value : Constant}
    {later : Store} (hl : later = store.assign held membersOnly id name value) :
    ∃ path place, store.Ascent held id path ∧
      place = (store.binder? membersOnly path name).getD id ∧
      store.lookup? held membersOnly id name
        = (store.binder? membersOnly path name).bind (fun found =>
          (store.scope found).values.get? name) ∧
      store.Binds later place name value ∧
      (store.KeepsOwners later held path →
        later.lookup? held membersOnly id name = some value) ∧
      (∀ other chain, other.index < store.scopes.size → store.Ascent held other chain →
        store.KeepsOwners later held chain → ∀ members : Bool,
          (∀ unlike ≠ name, later.lookup? held members other unlike
            = store.lookup? held members other unlike) ∧
          later.lookup? held members other name
            = if later.binder? members chain name = some place then some value
              else store.lookup? held members other name) ∧
      (membersOnly = true → ∀ other, store.isFileLevel other = true →
        later.scope other = store.scope other) := by
  obtain ⟨path, hp⟩ := exists_ascent h.acyclic held id
  have hin := hp.contains h.parents hid
  obtain ⟨rest, hv⟩ : ∃ rest, store.visits membersOnly path = id :: rest := by
    have hf : (membersOnly && store.isFileLevel id) = false := by
      cases membersOnly <;> simp_all
    cases hp <;> exact ⟨_, by rw [visits, if_neg (by simp [hf])]⟩
  have hplace : (store.binder? membersOnly path name).getD id ∈ store.visits membersOnly path := by
    cases hb : store.binder? membersOnly path name with
    | none => rw [hv]; exact List.mem_cons_self ..
    | some found => exact List.mem_of_find?_eq_some hb
  have hbinds : store.Binds later ((store.binder? membersOnly path name).getD id) name value := by
    rw [hl, hp.assign_eq (hp.length_le hin)]
    exact binds_setOwn (h.visits_inside hin hplace) name value
  refine ⟨path, _, hp, rfl, ?_, hbinds, fun hk => ?_, fun other chain ho hc hk members => ?_,
    fun hmo other hf => ?_⟩
  · rw [hp.lookup?_eq (hp.length_le hin), findSome?_get?]
    rfl
  · rw [hbinds.lookup?_eq hp (hp.length_le hin) hk, hbinds.findSome?_eq, if_pos]
    have hb := hbinds.binder?_eq hv rfl
    rwa [binder?, hbinds.visits_eq] at hb
  · have hlen := hc.length_le (hc.contains h.parents ho)
    constructor
    · intro unlike hne
      simp only [hbinds.lookup?_eq hc hlen hk, hc.lookup?_eq hlen, hbinds.get?_of_ne hne]
    · have hb : later.binder? members chain name = (store.visits members chain).find? fun id =>
          (later.scope id).values.binds name := by
        rw [binder?, hbinds.visits_eq]
      rw [hbinds.lookup?_eq hc hlen hk, hbinds.findSome?_eq, hc.lookup?_eq hlen, hb]
  · subst hmo
    refine hbinds.elsewhere other fun heq => ?_
    rw [heq, h.isFileLevel_eq_false hplace] at hf
    cases hf

/-- What is assigned to the variable of a class through an instance of a derived class is seen from
an instance of the class. -/
theorem Chained.assign_seen_paired :
    ∃ later, later = System.pairedSystem.store.assign (fun _ => []) true ⟨9⟩ "s" (.boolean true) ∧
      System.pairedSystem.store.Binds later ⟨2⟩ "s" (.boolean true) ∧
      later.lookup? (fun _ => []) true ⟨9⟩ "s" = some (.boolean true) ∧
      later.lookup? (fun _ => []) true ⟨5⟩ "s" = some (.boolean true) := by
  have hhistory : System.History Standard.host _ System.pairedSystem :=
    (System.History.launch (by decide +kernel)).advance 17
  have hup : ([9, 8, 7, 6, 5, 4, 1, 0].map fun index =>
      System.pairedSystem.store.parentOf (fun _ => []) ⟨index⟩)
        = [some ⟨8⟩, some ⟨7⟩, some ⟨6⟩, some ⟨1⟩, some ⟨4⟩, some ⟨1⟩, some ⟨0⟩, none] := by
    decide +kernel
  simp only [List.map_cons, List.map_nil, List.cons.injEq, and_true] at hup
  obtain ⟨h9, h8, h7, h6, h5, h4, h1, h0⟩ := hup
  have hfile := Ascent.under h1 (.last h0)
  have hstrong : System.pairedSystem.store.scopes.toList.all (fun scope =>
      scope.parent.all fun link => link == .strong link.target) = true := by decide +kernel
  have hkeeps (later : Store) (chain : List ScopeId) :
      System.pairedSystem.store.KeepsOwners later (fun _ => []) chain := by
    intro id _ owner hw
    have hin := inside_of_parent hw
    have hmem : System.pairedSystem.store.scope id ∈ System.pairedSystem.store.scopes.toList := by
      rw [scope, Array.getElem?_eq_getElem hin]
      exact Array.getElem_mem_toList hin
    have hs := List.all_eq_true.mp hstrong _ hmem
    rw [hw] at hs
    simp [ParentLink.target] at hs
  obtain ⟨path, place, hp, hplace, -, hbinds, hseen, hothers, -⟩ :=
    (hhistory.inPlace.store.chained).assign_seen (by decide +kernel) (by decide +kernel)
      (rfl : _ = System.pairedSystem.store.assign (fun _ => []) true ⟨9⟩ "s" (.boolean true))
  obtain rfl := hp.unique (.under h9 (.under h8 (.under h7 (.under h6 hfile))))
  obtain rfl : place = ⟨2⟩ := hplace.trans (by decide +kernel)
  refine ⟨_, rfl, hbinds, hseen (hkeeps _ _), ?_⟩
  rw [(hothers ⟨5⟩ _ (by decide +kernel) (.under h5 (.under h4 hfile)) (hkeeps _ _) true).2,
    if_pos (by decide +kernel)]

/-- A variable of the program holds an object, and a function of its behaviour runs. -/
def ownedStore : Store where
  scopes := #[
    { kind := .global, values := [("a", .object ⟨0, "A", 1⟩)] },
    { kind := .object, parent := some (.strong ⟨0⟩) },
    { kind := .object, parent := some (.weak ⟨1⟩) },
    { kind := .function, parent := some (.strong ⟨2⟩) }]
  objects := #[{ scopes := [⟨1⟩] }]

theorem chained_ownedStore : ownedStore.Chained := by
  have hlow : ∀ index, index < 4 → ∀ link, (ownedStore.scope ⟨index⟩).parent = some link →
      link.target.index < index := by
    intro index hi link hl
    interval_cases index <;> cases hl <;> decide
  have hdown {parent id : ScopeId} (hp : ownedStore.IsParent parent id) :
      parent.index < id.index ∧ id.index < 4 := by
    obtain ⟨link, hl, rfl⟩ := hp
    have hin : id.index < 4 := inside_of_parent hl
    exact ⟨hlow id.index hin link hl, hin⟩
  have hplain : ∀ index, index < 4 → (ownedStore.scope ⟨index⟩).delegate = none := by decide
  exact
    { acyclic := Subrelation.wf (fun hp => (hdown hp).1) (measure ScopeId.index).wf
      parents := fun hp => Nat.lt_trans (hdown hp).1 (hdown hp).2
      delegates := by
        intro id other hd
        have hin : id.index < 4 := inside_of_ne_default fun heq => by
          rw [heq] at hd
          cases hd
        cases (hplain id.index hin).symm.trans hd }

/-- What drops the last value that holds an owner is not seen from the behaviour afterwards: its
chain has come to end below the variable. -/
theorem assign_unseen_behind_owner :
    ¬ ∀ (store : Store) (held : Held) (id : ScopeId) (name : String) (value : Constant),
      store.Chained → id.index < store.scopes.size →
        (store.setVariable held id name value).value? held id name = some value := by
  intro hall
  have hseen := hall ownedStore (fun _ => [.scope ⟨0⟩, .scope ⟨3⟩]) ⟨3⟩ "a" .none
    chained_ownedStore (by decide)
  have hlost : ((ownedStore.setVariable (fun _ => [.scope ⟨0⟩, .scope ⟨3⟩]) ⟨3⟩ "a"
      .none).value? (fun _ => [.scope ⟨0⟩, .scope ⟨3⟩]) ⟨3⟩ "a").isNone = true := by
    decide +kernel
  rw [hseen] at hlost
  cases hlost

end StepScript.Store
