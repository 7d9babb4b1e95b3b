import StepScript.Proofs.Phases.Deeds
import StepScript.Proofs.Safety.Constructing
set_option autoImplicit false

/-!
# Plans of constructions

The steps of a construction are planned when the object is made.  The plan fits the object
(`Construction.Plan.Fits`), and goes on to fit it whatever happens then, because objects keep their
scopes and classes keep their ancestors (`Store.Continues`).
-/

namespace StepScript

variable {scopes : List ScopeId} {classes : List Class} {held : Held}

namespace Store

variable {root home : ScopeId} {own : Option ObjectRef} {store later : Store}

/-! ## Ancestors -/

/-- The class and its ancestors. -/
def ancestry (store : Store) (id : ClassId) : List Class := (store.hierarchy id).map store.classAt

theorem updateOrderOf_eq (store : Store) (id : ClassId) :
    store.updateOrderOf id = ((store.ancestry id).findSome? (·.updateOrder)).getD .normal := by
  rw [updateOrderOf, ancestry, List.findSome?_map]
  rfl

theorem hasInstanceUpdate_eq (store : Store) (id : ClassId) :
    store.hasInstanceUpdate id = (store.ancestry id).any (·.members.functions.binds "update") := by
  rw [hasInstanceUpdate, ancestry, List.any_map]
  rfl

theorem allBehaviours_eq_flatMap (store : Store) (id : ClassId) :
    store.allBehaviours id = (store.ancestry id).flatMap (·.behaviours.map (·.1)) := by
  rw [allBehaviours, ancestry, List.flatMap_map]

/-- A class keeps its ancestors when classes are added. -/
theorem ancestry_eq (h : store.Registered root) (hl : later.Registered root)
    (hs : store.classes.size ≤ later.classes.size)
    (hcl : ∀ {id : ClassId}, id.index < store.classes.size →
      later.classAt id = store.classAt id)
    {id : ClassId} (hid : id.index < store.classes.size) :
    later.ancestry id = store.ancestry id := by
  have hk := kinship h.grounded h.linked.parents
  obtain ⟨chain, hc⟩ := h.exists_lineage hid
  have hi := hk.inside hc hid
  have hc' : later.Lineage id chain := by
    clear hi
    induction hc with
    | last hn => exact .last ((congrArg Class.parent (hcl hid)).trans hn)
    | under hln _ ih =>
      refine .under ((congrArg Class.parent (hcl hid)).trans hln) ?_
      exact ih (hk.parents hid hln)
  unfold ancestry
  rw [hk.hierarchy_eq hc hid, (kinship hl.grounded hl.linked.parents).hierarchy_eq
    hc' (Nat.lt_of_lt_of_le hid hs)]
  exact List.map_congr_left fun level hlv => hcl (hi level hlv)

/-! ## Later stores -/

/-- The later store has the objects and classes of the earlier one, and all scopes but the Global
scope are in their place. -/
structure Continues (root : ScopeId) (own : Option ObjectRef) (store later : Store) : Prop where
  unfolds : store.Unfolds own later
  scopes : ∀ {id : ScopeId}, id.index < store.scopes.size → id ≠ root → store.Retains later id
  classes : store.classes.size ≤ later.classes.size
  ancestry : ∀ {id : ClassId}, id.index < store.classes.size →
    later.ancestry id = store.ancestry id

theorem Evolves.continues (h : store.Evolves later) (root : ScopeId)
    (hu : store.Unfolds own later) : store.Continues root own later where
  unfolds := hu
  scopes hid _ := h.retains hid
  classes := Nat.le_of_eq (by rw [h.classes])
  ancestry {id} _ := by
    unfold Store.ancestry
    rw [funext h.classAt, hierarchy_congr h.classes]

theorem Changes.continues (h : Changes root own store later) (hr : store.IsRoot root) :
    store.Continues root own later :=
  (Changes.evolves h hr).continues root (Changes.unfolds h)

theorem continues_addUnit (own : Option ObjectRef) (h : store.Registered root)
    (files : List Node) : store.Continues root own (store.addUnit root files).2 := by
  rcases addUnit_cases h files with hs | ⟨hk, -, hc, -, -⟩
  · rw [hs]
    exact (Evolves.refl store).continues root (.refl own store)
  · refine ⟨unfolds_addUnit own h files, fun hid hne => ?_, hc, ?_⟩
    · have hs := hk.scopes hid hne
      exact ⟨by rw [hs], by rw [hs], by rw [hs], by rw [hs]⟩
    · exact ancestry_eq h (h.addUnit files) hc hk.classes

theorem Continues.isFile (h : store.Continues root own later) (hrt : store.IsRoot root)
    {file : ScopeId} (hf : (store.scope file).IsFile root) : (later.scope file).IsFile root := by
  have hne : file ≠ root := by
    rintro rfl
    cases hrt.parent.symm.trans hf.parent
  have hr := h.scopes (inside_of_parent hf.parent) hne
  exact ⟨hr.kind.trans hf.kind, hr.parent.trans hf.parent, hr.delegate.trans hf.delegate⟩

/-! ## Levels -/

theorem LevelChain.length_eq (h : store.LevelChain home scopes classes) :
    scopes.length = classes.length := by
  induction h with
  | nil => rfl
  | cons _ _ _ _ _ _ ih => rw [List.length_cons, List.length_cons, ih]

theorem LevelChain.continued (h : store.LevelChain home scopes classes) (hr : store.IsRoot root)
    (hc : store.Continues root own later) : later.LevelChain home scopes classes := by
  refine h.retained fun {id link} hl => hc.scopes (inside_of_parent hl) ?_
  rintro rfl
  cases hr.parent.symm.trans hl

theorem parentOf_strong {id parent : ScopeId} (held : Held)
    (h : (store.scope id).parent = some (.strong parent)) : store.parentOf held id = some parent := by
  unfold parentOf
  rw [h]

/-- The chain of the scope goes through scopes of the store and ends at the Global scope. -/
def LeadsTo (store : Store) (held : Held) (id root : ScopeId) : Prop :=
  ∃ path, store.Ascent held id path ∧ store.Contains path ∧ path.getLast? = some root

theorem IsRoot.leadsTo (h : store.IsRoot root) (held : Held) : store.LeadsTo held root root := by
  have hn : store.parentOf held root = none := by
    unfold parentOf
    rw [h.parent]
  exact ⟨[root], .last hn, List.forall_mem_singleton.mpr h.inside, rfl⟩

theorem LeadsTo.under {id parent : ScopeId} (h : store.LeadsTo held parent root)
    (hl : store.parentOf held id = some parent) : store.LeadsTo held id root := by
  obtain ⟨path, hp, hi, hls⟩ := h
  obtain ⟨link, hln, -⟩ := isParent_of_parentOf hl
  refine ⟨_, .under hl hp, List.forall_mem_cons.mpr ⟨inside_of_parent hln, hi⟩, ?_⟩
  rw [List.getLast?_cons, hls]
  rfl

theorem LeadsTo.root_eq {id : ScopeId} (h : store.LeadsTo held id root) :
    store.root held id = root := by
  obtain ⟨path, hp, hi, hl⟩ := h
  have hr := hp.rootFrom_eq (hp.length_le hi)
  exact Option.some.inj (hr.symm.trans hl)

/-- Objects live under the Global scope of the program. -/
theorem LevelChain.leadsTo (h : store.LevelChain home scopes classes) (hr : store.IsRoot root)
    (hh : (store.scope home).parent = some (.strong root)) (held : Held) :
    store.LeadsTo held (scopes.headD home) root := by
  induction h with
  | nil => exact (hr.leadsTo held).under (parentOf_strong held hh)
  | cons _ _ hs _ hw _ ih =>
    exact (ih.under (parentOf_strong held hw)).under (parentOf_strong held hs)

/-- Behaviours are known by their names. -/
theorem Grounded.behaviour_name (h : store.Grounded root) {id : ScopeId} {name : String}
    {behaviour : Behaviour} (hf : store.behaviour? held id name = some behaviour) :
    behaviour.name = name := by
  obtain ⟨place, hp⟩ := exists_of_walkFrom hf
  by_cases hr : place = root
  · obtain ⟨state, -, -, hb⟩ := h.state
    subst hr
    have hmem := Table.mem_of_get? hp
    rw [hb] at hmem
    obtain ⟨known, -, heq⟩ := List.mem_map.mp hmem
    obtain ⟨hn, rfl⟩ := Prod.mk.inj heq
    exact hn
  · rw [h.elsewhere hr] at hp
    cases hp

end Store

/-! ## Parameters -/

/-- The binding accounts for a parameter. -/
def Binding.Covers (binding : Binding) (param : Parameter) : Prop :=
  binding.bound.binds param.name = true ∨ ∃ initial, (param.name, initial) ∈ binding.left

theorem Binding.covers_collect {callee : Callee} {params : List Parameter}
    {args : List Constant} {given binding : Binding}
    (h : collect callee given params args = .ok binding) (param : Parameter)
    (hp : param ∈ params ∨ given.Covers param) : binding.Covers param := by
  fun_induction collect callee given params args with
  | case1 given args =>
    obtain rfl := Except.ok.inj h
    exact hp.resolve_left List.not_mem_nil
  | case2 given first params value args ih =>
    refine ih h ?_
    rcases hp with hp | hb | hl
    · rcases List.mem_cons.mp hp with rfl | hp
      · exact .inr (.inl (by simp [Table.binds_insert]))
      · exact .inl hp
    · exact .inr (.inl (by rw [Table.binds_insert, hb, Bool.true_or]))
    · exact .inr (.inr hl)
  | case3 given first params initial hi ih =>
    refine ih h ?_
    rcases hp with hp | hb | ⟨initial, hl⟩
    · rcases List.mem_cons.mp hp with rfl | hp
      · exact .inr (.inr ⟨initial, by simp⟩)
      · exact .inl hp
    · exact .inr (.inl hb)
    · exact .inr (.inr ⟨initial, List.mem_append_left _ hl⟩)
  | case4 => cases h

namespace Construction

/-- The binding of the level accounts for all parameters of its constructor. -/
def Level.Covers (level : Level) : Prop :=
  ∀ constructor ∈ level.declared.members.constructor, ∀ param ∈ constructor.params,
    level.binding.Covers param

theorem covers_levels {args : List Constant} {checked checked' : Bool} {planned : List Level}
    (h : levels args checked classes = .ok (checked', planned)) :
    ∀ level ∈ planned, level.Covers := by
  fun_induction levels args checked classes generalizing checked' planned with
  | case1 =>
    obtain ⟨-, rfl⟩ := Prod.mk.inj (Except.ok.inj h)
    exact fun _ hl => absurd hl List.not_mem_nil
  | case3 checked declared rest hn last planned hr ih =>
    obtain ⟨-, rfl⟩ := Prod.mk.inj (Except.ok.inj h)
    refine List.forall_mem_cons.mpr ⟨fun constructor hc => ?_, ih hr⟩
    cases hn.symm.trans hc
  | case6 checked declared rest constructor hs given binding hb last planned hr =>
    rename_i ih
    obtain ⟨-, rfl⟩ := Prod.mk.inj (Except.ok.inj h)
    refine List.forall_mem_cons.mpr ⟨fun other ho param hp => ?_, ih hr⟩
    obtain rfl := Option.some.inj (hs.symm.trans ho)
    unfold Binding.ofArguments at hb
    split at hb
    · cases hb
    · exact Binding.covers_collect hb param (.inl hp)
  | case2 | case4 | case5 => cases h

end Construction

/-! ## Steps of a plan -/

/-- The name of the behaviour that the step attaches. -/
def ConstructionStep.attaches? : ConstructionStep → Option String
  | .behaviour _ attached => some attached.name
  | _ => none

/-- What computes the answers leaves something unchanged. -/
theorem map_of_mapM_ok {α β γ ε : Type} {compute : α → Except ε β} {before : α → γ}
    {after : β → γ} (hs : ∀ {item answer}, compute item = .ok answer → after answer = before item)
    {items : List α} {answers : List β} (h : items.mapM compute = .ok answers) :
    answers.map after = items.map before := by
  induction items generalizing answers with
  | nil =>
    obtain rfl := Except.ok.inj h
    rfl
  | cons item rest ih =>
    rw [List.mapM_cons] at h
    cases hi : compute item with
    | error error =>
      rw [hi] at h
      cases h
    | ok answer =>
      rw [hi] at h
      cases hr : rest.mapM compute with
      | error error =>
        rw [hr] at h
        cases h
      | ok others =>
        rw [hr] at h
        obtain rfl := Except.ok.inj h
        rw [List.map_cons, List.map_cons, hs hi, ih hr]

namespace Construction

variable {root : ScopeId} {store later : Store} {held : Held} {object : ObjectRef} {id : ClassId}
  {args : List Constant} {plan : Plan}

/-- Registration is the last step and no other one. -/
theorem Plan.steps_eq (plan : Plan) :
    ∃ work, plan.steps = work ++ [.register] ∧ .register ∉ work := by
  refine ⟨_, rfl, ?_⟩
  simp [parameterSteps, propertySteps, bodySteps]

theorem Plan.attaches_eq (plan : Plan) (hl : plan.attached.length ≤ plan.scopes.length) :
    plan.steps.filterMap ConstructionStep.attaches? = plan.attached.flatMap (·.map (·.name)) := by
  have hn (steps : ScopeId × Level → List ConstructionStep)
      (hst : ∀ placed, ∀ step ∈ steps placed, step.attaches? = none) :
      ((plan.scopes.zip plan.planned).flatMap steps).filterMap ConstructionStep.attaches? = [] := by
    refine List.filterMap_eq_nil_iff.mpr fun step hs => ?_
    obtain ⟨placed, -, hpl⟩ := List.mem_flatMap.mp hs
    exact hst placed step hpl
  have hp := hn (fun placed => parameterSteps placed.1 placed.2.binding)
    (fun _ _ hs => by obtain ⟨_, -, rfl⟩ := List.mem_map.mp hs; rfl)
  have hpr := hn (fun placed => propertySteps placed.1 placed.2.declared.members)
    (fun _ _ hs => by obtain ⟨_, -, rfl⟩ := List.mem_map.mp hs; rfl)
  have hb := hn (fun placed => bodySteps placed.1 placed.2.declared.members)
    (fun _ _ hs => by obtain ⟨_, -, rfl⟩ := List.mem_map.mp hs; rfl)
  have hac : ((plan.scopes.zip plan.attached).flatMap fun placed =>
      placed.2.map fun behaviour => ConstructionStep.behaviour placed.1 behaviour).filterMap
        ConstructionStep.attaches? = plan.attached.flatMap (·.map (·.name)) := by
    conv_rhs => rw [← List.map_snd_zip hl, List.flatMap_map]
    rw [List.filterMap_flatMap]
    simp [List.filterMap_map, Function.comp_def, ConstructionStep.attaches?]
  unfold Plan.steps classSteps
  have hph : [ConstructionStep.phase].filterMap ConstructionStep.attaches? = [] := rfl
  have hr : [ConstructionStep.register].filterMap ConstructionStep.attaches? = [] := rfl
  simp only [List.filterMap_append, hp, hpr, hb, hac, hph, hr, List.nil_append, List.append_nil]

/-- What the construction of the object has been planned with fits the object. -/
structure Plan.Fits (plan : Plan) (root : ScopeId) (store : Store) (object : ObjectRef)
    (id : ClassId) (args : List Constant) : Prop where
  known : id.index < store.classes.size
  levels : ∃ checked, levels args false (store.ancestry id) = .ok (checked, plan.planned)
  attached : plan.attached.map (·.map (·.name)) = (store.ancestry id).map (·.behaviours.map (·.1))
  classId : (store.object object).classId = some id
  scopes : (store.object object).scopes = plan.scopes
  chain : ∃ home, (store.scope home).IsFile root ∧
    store.LevelChain home plan.scopes (store.ancestry id)
  arguments : List.Forall₂ store.BindsArguments plan.scopes plan.planned

namespace Plan.Fits

variable (h : plan.Fits root store object id args)

include h

theorem key_lt : object.key < store.objects.size := by
  by_contra ho
  have hci := h.classId
  rw [Store.object_of_size_le (Nat.le_of_not_lt ho)] at hci
  cases hci

theorem continued {own : Option ObjectRef} (hr : store.IsRoot root)
    (hc : store.Continues root own later) :
    plan.Fits root later object id args := by
  have han := hc.ancestry h.known
  obtain ⟨home, hh, hch⟩ := h.chain
  refine
    { known := Nat.lt_of_lt_of_le h.known hc.classes
      levels := han ▸ h.levels
      attached := han ▸ h.attached
      classId := (hc.unfolds.classId h.key_lt).trans h.classId
      scopes := (hc.unfolds.levels h.key_lt).trans h.scopes
      chain := ⟨home, hc.isFile hr hh, han ▸ hch.continued hr hc⟩
      arguments := h.arguments.imp fun _ _ hb name hn => hc.unfolds.binds (hb name hn) }

theorem exists_outer : ∃ outer, store.outerScope? object = some outer := by
  obtain ⟨home, -, hc⟩ := h.chain
  have hl := hc.length_eq
  have hne : 0 < (store.hierarchy id).length :=
    List.length_pos_of_ne_nil (ancestorsFrom_ne_nil store _ _ id)
  rw [Store.outerScope?, h.scopes]
  cases hs : plan.scopes with
  | nil =>
    rw [hs, Store.ancestry, List.length_map] at hl
    exact absurd hl (Nat.ne_of_lt hne)
  | cons scope scopes => exact ⟨scope, rfl⟩

/-- The object lives under the Global scope. -/
theorem root_eq (hp : store.InPlace root) (held : Held) {outer : ScopeId}
    (ho : store.outerScope? object = some outer) :
    store.root held outer = root := by
  obtain ⟨home, hh, hc⟩ := h.chain
  rw [Store.outerScope?, h.scopes] at ho
  have hr := (hc.leadsTo hp.registered.grounded.isRoot hh.parent held).root_eq
  rwa [List.headD_eq_head?_getD, ho] at hr

end Plan.Fits

/-- The levels of a new instance are in the file of the last ancestor. -/
theorem Plan.Begins.levelChain {construction : Construction} {own : Option ObjectRef}
    (h : Plan.Begins plan store held id args construction later) (hp : store.InPlace root)
    (hid : id.index < store.classes.size) (hc : store.Continues root own later) :
    ∃ base, (later.ancestry id).getLast? = some base ∧ (later.scope base.home).IsFile root ∧
      later.LevelChain base.home plan.scopes (later.ancestry id) := by
  obtain ⟨⟨checked, hll⟩, -, -, between, base, hb, had, hm⟩ := h
  rw [hc.ancestry hid]
  refine ⟨base, hb, ?_, ?_⟩
  · obtain ⟨level, hlv, rfl⟩ := List.mem_map.mp (List.mem_of_getLast? hb)
    obtain ⟨file, hf⟩ := (hp.registered.grounded.placed
      (hp.registered.hierarchy_inside hid level hlv)).home
    exact hc.isFile hp.registered.grounded.isRoot
      (hp.registered.grounded.files hf).2
  · have hl : later.LevelChain base.home plan.scopes (plan.planned.map (·.declared)) := by
      refine had.chain.retained fun {id link} _ => ?_
      have hs := hm.scopes id
      exact ⟨by rw [hs], by rw [hs], by rw [hs], by rw [hs]⟩
    rwa [levels_declared hll] at hl

/-- The construction of an instance begins with a plan that fits it. -/
theorem ofClass_fits (hp : store.InPlace root) (hid : id.index < store.classes.size)
    {construction : Construction} (h : ofClass store held id args = (.ok construction, later)) :
    ∃ plan, construction = { object := construction.object, steps := Plan.steps plan } ∧
      construction.object.key = store.objects.size ∧
      (later.object construction.object).behaviours = [] ∧
      plan.Fits root later construction.object id args := by
  have hc : store.Continues root none later := by
    have he := ofClass_evolves store held id args
    have hu := Store.Unfolds.ofClass none store held id args
    rw [h] at he hu
    exact he.continues root hu
  have han := hc.ancestry hid
  rcases ofClass_cases store held id args with ⟨error, her⟩ | ⟨plan, begun, after, hb, hpl⟩
  · cases her.symm.trans h
  obtain ⟨hs, rfl⟩ := Prod.mk.inj (hb.symm.trans h)
  obtain rfl := Except.ok.inj hs
  obtain ⟨base, -, hh, hch⟩ := hpl.levelChain hp hid hc
  obtain ⟨hl, hac, hst, between, _, -, had, hmk⟩ := hpl
  have hr := hmk.object_eq
  have hkey : begun.object.key = store.objects.size := by rw [hmk.key, had.objects]
  refine ⟨plan, hst, hkey, by rw [hr], ?_⟩
  refine
    { known := Nat.lt_of_lt_of_le hid hc.classes
      levels := han ▸ hl
      attached := ?_
      classId := by rw [hr]
      scopes := by rw [hr]
      chain := ⟨base.home, hh, hch⟩
      arguments := had.bound.imp fun scope level hbn name hn => ?_ }
  · rw [han]
    refine map_of_mapM_ok (fun hi => map_of_mapM_ok (fun {mention _} hm => ?_) hi)
      hac
    obtain ⟨name, token⟩ := mention
    dsimp only at hm
    split at hm
    · next behaviour hbh =>
      obtain rfl := Except.ok.inj hm
      exact hp.registered.grounded.behaviour_name hbh
    · cases hm
  · rw [Store.bindsVariable, hmk.scopes]
    exact hbn name hn

end Construction

end StepScript
