import StepScript.Proofs.System.Faultless
set_option autoImplicit false

/-!
# Programs that grow

A Global scope starts empty.  Units are registered in it, accepted or refused, and between them
code runs (`System.Grown`).  Whatever happens in which order, the Global scope stays in order and
so do the machines that run over it (`System.Grown.inOrder`).
-/

namespace StepScript

namespace Store

variable {root : ScopeId} {store later : Store}

/-! ## Running code -/

theorem Evolves.registry_eq (h : store.Evolves later) (hg : store.Grounded root) :
    later.registry root = store.registry root := by
  have hk := h.scopes hg.isRoot.inside
  unfold registry
  simp only [hk.classes, hk.behaviours, h.classAt]

theorem Linked.evolved (hl : store.Linked root) (hg : store.Grounded root)
    (h : store.Evolves later) : later.Linked root := by
  have hkp := h.scopes hg.isRoot.inside
  refine ⟨fun {id} hid => ?_, fun {id} hid => ?_⟩
  · rw [h.classes] at hid
    obtain ⟨hp, hk⟩ := hl.parents hid
    rw [← hkp.classes] at hp hk
    rw [h.classAt]
    exact ⟨hp, hk⟩
  · rw [h.classes] at hid
    have hs := hl.shared hid
    have hi := (hg.placed hid).inside
    unfold SharedLinked sharedParent at hs ⊢
    simp only [h.classAt]
    rw [(h.scopes hi).parent]
    exact hs

/-- Running code leaves the Global scope in order. -/
theorem Registered.evolved (h : store.Registered root) (he : store.Evolves later) :
    later.Registered root where
  grounded := h.grounded.evolved he
  linked := h.linked.evolved h.grounded he
  sound := he.registry_eq h.grounded ▸ h.sound

/-! ## Units -/

theorem registered_newGlobal : (newGlobal {}).2.Registered (newGlobal {}).1 where
  grounded := grounded_newGlobal
  linked := ⟨(fun hid => nomatch hid), (fun hid => nomatch hid)⟩
  sound := ⟨(fun hk => nomatch hk), (fun hk => nomatch hk)⟩

end Store

/-- Sources are refused before anything is registered, or they are registered as a unit. -/
theorem Program.register_cases (store : Store) (root : ScopeId) (sources : List Source) :
    (∃ error, register store root sources = (.error error, store)) ∨
      ∃ files, register store root sources
        = ((store.addUnit root files).1.map fun classes => ⟨files, classes⟩,
          (store.addUnit root files).2) := by
  unfold register
  split
  · exact .inl ⟨_, rfl⟩
  · next files _ =>
    refine .inr ⟨files, ?_⟩
    generalize store.addUnit root files = answer
    obtain ⟨_ | _, after⟩ := answer <;> rfl

theorem Store.Registered.register {root : ScopeId} {store : Store} (h : store.Registered root)
    (sources : List Source) : (Program.register store root sources).2.Registered root := by
  rcases Program.register_cases store root sources with ⟨error, hr⟩ | ⟨files, hu⟩
  · rw [hr]
    exact h
  · rw [hu]
    exact h.addUnit files

variable {σ τ : Type} {host : Host σ τ}

/-! ## Machines -/

/-- The machine starts units in the Global scope, and what it has still to attach can be
constructed. -/
structure Machine.InOrder (root : ScopeId) (machine : Machine τ) : Prop where
  starts : machine.StartsAt root
  attachable : machine.Attachable

namespace Machine

variable {root : ScopeId} {machine : Machine τ} {world : World σ} {outside : Held}

/-- A move leaves the Global scope and the machine in order. -/
theorem move_inOrder (host : Host σ τ) (h : machine.InOrder root)
    (hs : world.store.Registered root) (outside : Held) :
    (machine.move host outside world).machine.InOrder root ∧
      (machine.move host outside world).world.store.Registered root := by
  have he := move_evolves host h.starts hs.grounded.isRoot outside
  exact ⟨⟨move_startsAt host h.starts outside world, move_attachable h.attachable hs outside⟩,
    hs.evolved he⟩

theorem goesOn_inOrder {later : Machine τ × World σ}
    (hmv : Relation.ReflTransGen (GoesOn host outside) (machine, world) later)
    (h : machine.InOrder root) (hs : world.store.Registered root) :
    later.1.InOrder root ∧ later.2.store.Registered root := by
  induction hmv with
  | refl => exact ⟨h, hs⟩
  | tail _ hm ih =>
    have hn := move_inOrder host ih.1 ih.2 outside
    rwa [hm] at hn

theorem step_inOrder {moves : Nat} {moved : Moved σ τ (Except Error Status)}
    (hs : machine.step host outside moves world = some moved) (h : machine.InOrder root)
    (hst : world.store.Registered root) :
    moved.machine.InOrder root ∧ moved.world.store.Registered root := by
  obtain ⟨last, before, hmv, hl⟩ := moves_of_step hs
  obtain ⟨hm, hb⟩ := goesOn_inOrder hmv h hst
  have hn := move_inOrder host hm hb outside
  rwa [hl] at hn

theorem ofCode_inOrder {store : Store} (h : store.IsRoot root) (held : Held) (code : Code) :
    (ofCode store held code root : Machine τ).InOrder root := by
  have hs : (Start.ofCode store held code root).root = root := h.root_eq held
  refine ⟨fun frame hf => ?_, fun frame hf => ?_⟩
  · obtain rfl := List.mem_singleton.mp hf
    exact hs
  · obtain rfl := List.mem_singleton.mp hf
    trivial

theorem ofCall_inOrder (function : Function) (args : List Constant) (parent : ScopeId) :
    (ofCall function args parent : Machine τ).InOrder root := by
  refine ⟨fun frame hf => ?_, fun frame hf => ?_⟩
  · obtain rfl := List.mem_singleton.mp hf
    trivial
  · obtain rfl := List.mem_singleton.mp hf
    trivial

end Machine

/-! ## Systems -/

namespace System

/-- The system of a Global scope that nothing has been registered in. -/
def empty (code : Code) (context : Context σ) : System σ τ where
  program := { root := (Store.newGlobal {}).1, code }
  units := []
  running := []
  results := []
  world := ⟨(Store.newGlobal {}).2, context⟩

/-- The system after a unit has been registered or refused. -/
def withUnit (system : System σ τ) (files : List Node) : System σ τ :=
  let (answer, store) := system.store.addUnit system.program.root files
  { system with
    units := system.units ++ (answer.toOption.map fun classes => ⟨files, classes⟩).toList
    world := { system.world with store } }

/-- A state that a Global scope can get into when units are registered in it, accepted or
refused, and code of the accepted ones runs. -/
inductive Grown (host : Host σ τ) : System σ τ → Prop where
  | empty (code : Code) (context : Context σ) : Grown host (empty code context)
  | unit {system : System σ τ} (before : Grown host system) (files : List Node) :
      Grown host (system.withUnit files)
  | step {system next : System σ τ} (before : Grown host system)
      (step : Step host system next) : Grown host next

/-- The Global scope and the machines are in order. -/
structure InOrder (system : System σ τ) : Prop where
  registered : system.store.Registered system.program.root
  machines : ∀ machine ∈ system.running, machine.InOrder system.program.root

variable {system next : System σ τ}

theorem Step.inOrder (hs : Step host system next) (h : system.InOrder) : next.InOrder := by
  cases hs with
  | register sources => exact ⟨h.registered.register sources, h.machines⟩
  | begin accepted =>
    refine ⟨h.registered, fun machine hm => ?_⟩
    rcases List.mem_append.mp hm with hold | hnew
    · exact h.machines machine hold
    · obtain rfl := List.mem_singleton.mp hnew
      exact Machine.ofCode_inOrder h.registered.grounded.isRoot _ _
  | call declared known =>
    refine ⟨h.registered, fun machine hm => ?_⟩
    rcases List.mem_append.mp hm with hold | hnew
    · exact h.machines machine hold
    · obtain rfl := List.mem_singleton.mp hnew
      exact Machine.ofCall_inOrder _ _ _
  | @turn before after machine outside moves moved running covers stepped =>
    have hmem {other : Machine τ} (ho : other ∈ before ++ machine :: after) :
        other.InOrder system.program.root := h.machines other (running ▸ ho)
    obtain ⟨hmv, hst⟩ := Machine.step_inOrder stepped (hmem (by simp)) h.registered
    refine ⟨hst, fun other ho => ?_⟩
    rcases List.mem_append.mp ho with ho | haf
    · rcases List.mem_append.mp ho with hb | hr
      · exact hmem (List.mem_append_left _ hb)
      · rw [(Machine.Moved.of_mem_remaining hr).1]
        exact hmv
    · exact hmem (List.mem_append_right _ (List.mem_cons_of_mem _ haf))
  | drop fewer forgotten =>
    exact ⟨h.registered, fun machine hm => h.machines machine (fewer.subset hm)⟩
  | endFrame =>
    exact ⟨h.registered.evolved (system.program.endFrame_evolves system.store), h.machines⟩
  | surroundings context => exact ⟨h.registered, h.machines⟩

/-- Whatever has happened, the Global scope and the machines are in order. -/
theorem Grown.inOrder (h : Grown host system) : system.InOrder := by
  induction h with
  | empty code context => exact ⟨Store.registered_newGlobal, fun _ hm => nomatch hm⟩
  | unit _ files ih => exact ⟨ih.registered.addUnit files, ih.machines⟩
  | step _ hs ih => exact hs.inOrder ih

end System

end StepScript
