import StepScript.Proofs.Members.Levels
set_option autoImplicit false

/-!
# The file that a class sees

The scopes of a class and of its instances are in the file of the last ancestor of the class
(`Store.Enters`), whichever file the class itself is in.  So a name that is not bound on the way to
that file is one of the file or of the whole program (`System.History.code_sees_base_file`).
-/

namespace StepScript

namespace Store

variable {root home id parent : ScopeId} {store : Store} {held : Held} {before : List ScopeId}

/-! ## The way to a file -/

/-- The scopes before the file `home`, which is the first one on the chain of the scope. -/
structure Enters (root home : ScopeId) (store : Store) (held : Held) (id : ScopeId)
    (before : List ScopeId) : Prop where
  file : (store.scope home).IsFile root
  ascent : store.Ascent held id (before ++ [home, root])
  apart : ∀ scope ∈ before, store.isFileLevel scope = false

/-- Code that belongs to the scope `level` runs in the scope itself or in local scopes under it. -/
inductive RunsIn (store : Store) (held : Held) (level : ScopeId) : ScopeId → Prop where
  | here : RunsIn store held level level
  | under {id parent : ScopeId} (linked : store.parentOf held id = some parent)
      (isLocal : store.isFileLevel id = false) (above : RunsIn store held level parent) :
      RunsIn store held level id

theorem IsRoot.enters (h : store.IsRoot root) (hh : (store.scope home).IsFile root) :
    store.Enters root home held home [] := by
  have hl : store.parentOf held root = none := by
    unfold parentOf
    rw [h.parent]
  exact ⟨hh, .under (parentOf_strong held hh.parent) (.last hl), by simp⟩

theorem Enters.under (h : store.Enters root home held parent before)
    (hl : store.parentOf held id = some parent) (hid : store.isFileLevel id = false) :
    store.Enters root home held id (id :: before) :=
  ⟨h.file, .under hl h.ascent, List.forall_mem_cons.mpr ⟨hid, h.apart⟩⟩

theorem RunsIn.exists_enters {level place : ScopeId} (h : store.RunsIn held level place)
    (hl : ∃ before, store.Enters root home held level before) :
    ∃ before, store.Enters root home held place before := by
  induction h with
  | here => exact hl
  | under hln hlc _ ih =>
    obtain ⟨before, he⟩ := ih
    exact ⟨_, he.under hln hlc⟩

/-- All levels are in the file of the last one. -/
theorem LevelChain.exists_enters {scopes : List ScopeId} {classes : List Class}
    (h : store.LevelChain home scopes classes) (hrt : store.Rooted root)
    (hr : store.IsRoot root) (hhm : (store.scope home).IsFile root) :
    ∀ level ∈ home :: scopes, ∃ before, store.Enters root home held level before := by
  induction h with
  | nil => exact List.forall_mem_singleton.mpr ⟨_, hr.enters hhm⟩
  | @cons scope wrapper scopes declared classes hk _ hp hd hab _ ih =>
    have hh : scopes.headD home ∈ home :: scopes := by cases scopes <;> simp
    obtain ⟨before, he⟩ := ih _ hh
    have hw : store.isFileLevel wrapper = false := by
      rw [isFileLevel, (hrt.wrappers hd).1]
    have hs : store.isFileLevel scope = false := by rw [isFileLevel, hk]
    have hl := (he.under (parentOf_strong held hab) hw).under
      (parentOf_strong held hp) hs
    rw [List.forall_mem_cons, List.forall_mem_cons]
    rw [List.forall_mem_cons] at ih
    exact ⟨ih.1, ⟨_, hl⟩, ih.2⟩

/-- The shared scopes of a lineage are in the file of the last ancestor. -/
theorem Registered.exists_enters (h : store.Registered root) {declared : ClassId}
    (hd : declared.index < store.classes.size) :
    ∃ base before, (store.ancestry declared).getLast? = some base ∧
      store.Enters root base.home held (store.classAt declared).sharedScope before := by
  have hk := kinship h.grounded h.linked.parents
  obtain ⟨chain, hc⟩ := h.exists_lineage hd
  rw [ancestry, hk.hierarchy_eq hc hd]
  induction hc with
  | @last declared hn =>
    obtain ⟨file, hf⟩ := (h.grounded.placed hd).home
    have he : store.Enters root _ held _ [] := h.grounded.isRoot.enters (h.grounded.files hf).2
    have hl := parentOf_strong held (h.linked.shared hd)
    rw [sharedParent, hn] at hl
    refine ⟨_, _, rfl, he.under hl ?_⟩
    rw [isFileLevel, (h.grounded.placed hd).kind]
  | @under declared above chain hp _ ih =>
    obtain ⟨base, before, hb, he⟩ := ih (hk.parents hd hp)
    have hl := parentOf_strong held (h.linked.shared hd)
    rw [sharedParent, hp] at hl
    refine ⟨base, _, ?_, he.under hl ?_⟩
    · rw [List.map_cons, List.getLast?_cons, hb]
      rfl
    · rw [isFileLevel, (h.grounded.placed hd).kind]

/-! ## Names -/

/-- Neither the scope nor its delegate binds the name. -/
def Unbound (store : Store) (name : String) (scope : ScopeId) : Prop :=
  ∀ place ∈ scope :: (store.scope scope).delegate.toList,
    (store.scope place).values.get? name = none

/-- A walk goes on from where it has found nothing. -/
theorem Ascent.walkFrom_append {α : Type} {after : List ScopeId}
    (h : store.Ascent held id (before ++ home :: after)) {visit : ScopeId → Scope → Option α}
    (hv : ∀ scope ∈ before, ∀ place ∈ scope :: (store.scope scope).delegate.toList,
      visit place (store.scope place) = none) (bound : Nat) :
    store.walkFrom held false visit (bound + before.length) id
      = store.walkFrom held false visit bound home := by
  induction before generalizing id with
  | nil => cases h <;> rfl
  | cons scope rest ih =>
    obtain ⟨hs, hr⟩ := List.forall_mem_cons.mp hv
    rw [List.cons_append] at h
    generalize hp : rest ++ home :: after = path at h
    cases h with
    | last => simp at hp
    | under hl hab =>
      subst hp
      have hown := hs scope List.mem_cons_self
      have hsh : (store.scope scope).delegate.bind
          (fun other => visit other (store.scope other)) = none := by
        cases hd : (store.scope scope).delegate with
        | none => rfl
        | some other => exact hs other (by simp [hd])
      rw [List.length_cons, ← Nat.add_assoc, walkFrom, hown, hsh, hl]
      exact ih hab hr

/-- A walk that finds nothing on the way ends with the file and the whole program. -/
theorem Enters.find_eq {α : Type} (h : store.Enters root home held id before)
    (hp : store.InPlace root) {visit : ScopeId → Scope → Option α}
    (hv : ∀ scope ∈ before, ∀ place ∈ scope :: (store.scope scope).delegate.toList,
      visit place (store.scope place) = none) :
    store.find held id visit
      = (visit home (store.scope home)).or (visit root (store.scope root)) := by
  have hr := hp.registered.grounded.isRoot
  have hi : id.index < store.scopes.size := by
    obtain ⟨scopes, hpt⟩ : ∃ scopes, before ++ [home, root] = scopes := ⟨_, rfl⟩
    have has := hpt ▸ h.ascent
    cases has with
    | last => simpa using congrArg List.length hpt
    | under hld _ =>
      obtain ⟨link, hlk, -⟩ := isParent_of_parentOf hld
      exact inside_of_parent hlk
  have hln := hp.rooted.length_le hp.registered h.ascent hi
  have hl : store.parentOf held root = none := by
    unfold parentOf
    rw [hr.parent]
  have hpl := hp.rooted.plain_of_kind (ne_of_eq_of_ne h.file.kind (by decide))
  have he : (before ++ [home, root]).length ≤ 2 + before.length := by
    simp [Nat.add_comm]
  rw [find, h.ascent.walkFrom_eq hln he, h.ascent.walkFrom_append hv]
  simp only [walkFrom, hpl, hp.rooted.host.plain, parentOf_strong held h.file.parent, hl, Bool.false_and,
    Bool.false_eq_true, if_false, Option.bind_none]
  cases visit home (store.scope home) <;> cases visit root (store.scope root) <;> rfl

end Store

namespace System

variable {σ τ : Type} {host : Host σ τ} {system : System σ τ} {moves : List (Move σ τ)}

/-- **The file that a class sees.**  Whatever has happened to a program, the first file on the way up
from the code of a class, for itself or for its instances, is the file of the last ancestor.  A name
that is not bound before has its value in that file or else in the whole program, and an assignment
binds it there or else where the code runs. -/
theorem History.code_sees_base_file (h : History host moves system) {id : ClassId}
    (hid : id.index < system.store.classes.size) {level : ScopeId}
    (hlevel : level = (system.store.classAt id).sharedScope ∨ ∃ object,
      (system.store.object object).classId = some id ∧ level ∈ (system.store.object object).scopes)
    {held : Held} {place : ScopeId} (hruns : system.store.RunsIn held level place) :
    ∃ base before, (system.store.ancestry id).getLast? = some base ∧
      system.store.Enters system.program.root base.home held place before ∧
      ∀ name, (∀ scope ∈ before, system.store.Unbound name scope) →
        system.store.value? held place name = ((system.store.scope base.home).values.get? name).or
                ((system.store.scope system.program.root).values.get? name) ∧
          ∀ value, system.store.setVariable held place name value = system.store.setOwn
                (if system.store.bindsVariable base.home name then base.home
                  else if system.store.bindsVariable system.program.root name
                    then system.program.root else place) name value := by
  have hplace := h.inPlace.store
  obtain ⟨base, hbase, hlevel⟩ : ∃ base, (system.store.ancestry id).getLast? = some base ∧
      ∃ before, system.store.Enters system.program.root base.home held level before := by
    rcases hlevel with rfl | ⟨object, hclass, hmem⟩
    · obtain ⟨base, before, hbase, henters⟩ := @hplace.registered.exists_enters _ _ held _ hid
      exact ⟨base, hbase, before, henters⟩
    · obtain ⟨-, base, hbase, hhome, hchain⟩ := h.instances object id hclass
      exact ⟨base, hbase, hchain.exists_enters hplace.rooted hplace.registered.grounded.isRoot hhome
        level (List.mem_cons_of_mem _ hmem)⟩
  obtain ⟨before, henters⟩ := hruns.exists_enters hlevel
  refine ⟨base, before, hbase, henters, fun name hunbound => ⟨?_, fun value => ?_⟩⟩
  · exact henters.find_eq hplace hunbound
  · have hfound : system.store.find held place (fun place scope =>
        if scope.values.binds name then some place else none) = _ :=
      henters.find_eq hplace fun scope hscope visited hvisited => by
        rw [Table.binds, hunbound scope hscope visited hvisited]
        rfl
    unfold Store.setVariable Store.bindsVariable
    dsimp only
    rw [hfound]
    cases (system.store.scope base.home).values.binds name <;>
      cases (system.store.scope system.program.root).values.binds name <;> rfl

/-- Two files with a variable of one name.  The class in the second one has a parent in the first. -/
def twoFiles : List Node :=
  (Grammar.parseText "x = True\nclass A\nend\n" "first").toOption.toList ++
    (Grammar.parseText "x = False\nclass B of type A\nend\nnew B\n" "second").toOption.toList

/-- The files run, and the instance has been made. -/
def twoFilesSystem : System Unit Standard.Sleep :=
  (advance Standard.host)^[22] (launch twoFiles { state := () })

/-- The code of the class sees the variable of the first file, and not that of its own file. -/
theorem History.code_sees_base_file_twoFiles :
    ∃ moves, History Standard.host moves twoFilesSystem ∧ ∃ level base before,
      level ∈ (twoFilesSystem.store.object ⟨0, "B", 1⟩).scopes ∧
      (twoFilesSystem.store.ancestry ⟨1⟩).getLast? = some base ∧
      twoFilesSystem.store.Enters twoFilesSystem.program.root base.home (fun _ => []) level before ∧
      twoFilesSystem.store.value? (fun _ => []) level "x" = some (.boolean true) ∧
      (twoFilesSystem.store.scope (twoFilesSystem.store.classAt ⟨1⟩).home).values.get? "x"
        = some (.boolean false) := by
  have hhistory : History Standard.host _ twoFilesSystem :=
    (History.launch (by decide +kernel)).advance 22
  have hclass : (twoFilesSystem.store.object ⟨0, "B", 1⟩).classId = some ⟨1⟩ := by decide +kernel
  have hlevel : ⟨8⟩ ∈ (twoFilesSystem.store.object ⟨0, "B", 1⟩).scopes := by decide +kernel
  have hid : (⟨1⟩ : ClassId).index < twoFilesSystem.store.classes.size := by decide +kernel
  obtain ⟨base, before, hbase, henters, -⟩ := hhistory.code_sees_base_file hid
    (.inr ⟨_, hclass, hlevel⟩) (.here : twoFilesSystem.store.RunsIn (fun _ => []) ⟨8⟩ ⟨8⟩)
  exact ⟨_, hhistory, ⟨8⟩, base, before, hlevel, hbase, henters, by decide +kernel,
    by decide +kernel⟩

end System

end StepScript
