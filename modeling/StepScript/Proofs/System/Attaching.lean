import StepScript.Proofs.Failures
import StepScript.Proofs.Registration.Acceptance
set_option autoImplicit false

/-!
# Behaviours can always be attached

A construction attaches the behaviours of its class by name, and constructs each of them without
arguments.  In a Global scope that is in order the names are known and the constructors need no
arguments, so the construction can be planned (`Construction.ofClass_attaches`) and carried out
(`Construction.resume_goesOn`) without attachment faults.
-/

namespace StepScript

variable {α β : Type}

/-! ## Faults -/

/-- A behaviour that is to be attached is unknown, or its constructor does not get the arguments
that it needs. -/
def Error.IsAttachmentFault (error : Error) : Prop :=
  match error.cause with
  | .undefinedName (.behaviourName _) => True
  | .arity (.missing _ (.behaviourConstructor _)) => True
  | .arity (.tooMany (.behaviourConstructor _) _ _) => True
  | _ => False

/-- The computation does not fail with an attachment fault. -/
structure FaultFree (outcome : Except Error α) : Prop where
  not_fault : ∀ error, outcome = .error error → ¬ error.IsAttachmentFault

theorem FaultFree.of_ok (answer : α) : FaultFree (.ok answer : Except Error α) :=
  ⟨fun _ h => nomatch h⟩

theorem FaultFree.of_error {error : Error} (h : ¬ error.IsAttachmentFault) :
    FaultFree (.error error : Except Error α) := by
  refine ⟨fun other ho => ?_⟩
  obtain rfl := Except.error.inj ho
  exact h

theorem FaultFree.bind {outcome : Except Error α} {next : α → Except Error β}
    (h : FaultFree outcome) (hn : ∀ answer, FaultFree (next answer)) :
    FaultFree (outcome >>= next) := by
  cases outcome with
  | error error => exact .of_error (h.not_fault error rfl)
  | ok answer => exact hn answer

/-- If every item has an answer of a kind, so has the list. -/
theorem exists_mapM_ok {compute : α → Except Error β} {P : β → Prop} {items : List α}
    (h : ∀ item ∈ items, ∃ answer, compute item = .ok answer ∧ P answer) :
    ∃ answers, items.mapM compute = .ok answers ∧ ∀ answer ∈ answers, P answer := by
  induction items with
  | nil => exact ⟨[], rfl, by simp⟩
  | cons item rest ih =>
    obtain ⟨⟨answer, han, hk⟩, hr⟩ := List.forall_mem_cons.mp h
    obtain ⟨answers, has, hkn⟩ := ih hr
    refine ⟨answer :: answers, ?_, List.forall_mem_cons.mpr ⟨hk, hkn⟩⟩
    rw [List.mapM_cons, han, has]
    rfl

/-! ## What is still to be attached -/

/-- The behaviours that are still to be attached can be constructed. -/
def Construction.Attachable (construction : Construction) : Prop :=
  ∀ scope behaviour, .behaviour scope behaviour ∈ construction.steps →
    behaviour.members.Constructible

/-- The flow gives away constructions whose behaviours can be attached, and is no attachment
fault. -/
def Flow.Attaches : Except Error Flow → Prop
  | .error error => ¬ error.IsAttachmentFault
  | .ok (.push (.construct construction)) => construction.Attachable
  | .ok _ => True

/-- The error is no matter of names or of arguments. -/
def Error.IsSettled (error : Error) : Prop := error.cause.kind = .type ∨ error.cause.kind = .runtime

/-- The flow gives away constructions whose behaviours can be attached, and all the arguments have
been taken before. -/
def Flow.Settles : Except Error Flow → Prop
  | .error error => error.IsSettled
  | .ok (.push (.construct construction)) => construction.Attachable
  | .ok _ => True

theorem Flow.Settles.attaches {flow : Except Error Flow} (h : Flow.Settles flow) :
    Flow.Attaches flow := by
  rcases flow with error | flow
  · intro hf
    unfold Error.IsAttachmentFault at hf
    split at hf
    case h_4 => exact hf
    all_goals
      next hc => simp [Flow.Settles, Error.IsSettled, hc, Cause.kind] at h
  · cases flow with
    | push work => cases work <;> exact h
    | _ => trivial

/-! ## Values -/

theorem Outcome.faultFree_received (incoming : Option Outcome) :
    FaultFree (Outcome.received incoming) := by
  unfold Outcome.received
  split
  · exact .of_ok _
  · exact .of_error id

theorem Outcome.faultFree_receivedValue (incoming : Option Outcome) :
    FaultFree (Outcome.receivedValue incoming) := by
  unfold Outcome.receivedValue
  split
  · exact .of_ok _
  · exact .of_error id
  · exact .of_error id

theorem Outcome.settled_of_receivedValue {incoming : Option Outcome} {error : Error}
    (h : Outcome.receivedValue incoming = .error error) : error.IsSettled := by
  unfold Outcome.receivedValue at h
  split at h <;> cases h <;> exact .inr rfl

theorem Ordinary.faultFree {answer : Except Error α} (h : Ordinary answer) : FaultFree answer := by
  refine ⟨fun error he hf => ?_⟩
  have ho := h.of_failure error he
  unfold Error.IsAttachmentFault at hf
  unfold Error.IsOrdinary at ho
  split at hf <;> first | exact hf | simp_all

/-! ## Bindings and calls -/

theorem Error.not_fault_of_callee {fault : ArityFault} {callee : Callee}
    (h : fault.callee? = some callee) (hc : ∀ name, callee ≠ .behaviourConstructor name) :
    ¬ (Error.arity fault).IsAttachmentFault := by
  intro hf
  cases fault with
  | tooMany other limit given | missing param other =>
    obtain rfl := Option.some.inj h
    cases other <;> first | exact hf | exact hc _ rfl
  | noConstructor => cases h

namespace Binding

variable {callee : Callee}

theorem faultFree_ofArguments (hc : ∀ name, callee ≠ .behaviourConstructor name)
    (params : List Parameter) (args : List Constant) :
    FaultFree (ofArguments callee params args) := by
  rcases ofArguments_cases callee params args with
    ⟨⟨fault, he, hf⟩, -⟩ | ⟨⟨bound, hb⟩, -⟩
  · rw [he]
    exact .of_error (Error.not_fault_of_callee hf hc)
  · rw [hb]
    exact .of_ok bound

end Binding

namespace Call

theorem fillNext_attaches (call : Call) (store : Store) (scope : ScopeId)
    (left : List (String × Node)) : Flow.Attaches (call.fillNext store scope left).flow := by
  cases left with
  | nil => trivial
  | cons param rest => trivial

theorem resume_attaches (call : Call) (store : Store) (incoming : Option Outcome) :
    Flow.Attaches (call.resume store incoming).flow := by
  unfold Call.resume
  split
  · split
    · next error he => exact (Binding.faultFree_ofArguments (by simp) _ _).not_fault error he
    · exact fillNext_attaches ..
  · split
    · next error he => exact (Outcome.faultFree_receivedValue _).not_fault error he
    · exact fillNext_attaches ..
  · dsimp only
    split <;> trivial
  · split
    · next error he => exact (Outcome.faultFree_received _).not_fault error he
    · trivial
    · trivial
    · exact id
    · exact id

end Call

/-! ## Constructions -/

namespace Construction

variable {store : Store} {root : ScopeId} {held : Held}

theorem faultFree_levels (args : List Constant) (checked : Bool) (hierarchy : List Class) :
    FaultFree (levels args checked hierarchy) := by
  rcases levels_cases args checked hierarchy with
    ⟨⟨fault, name, he, hf⟩, -⟩ | ⟨⟨planned, hp⟩, -⟩
  · rw [he]
    exact .of_error (Error.not_fault_of_callee hf (by simp))
  · rw [hp]
    exact .of_ok _

/-- A behaviour of the Global scope is in sight in every file. -/
theorem behaviour?_of_isHome (h : store.Grounded root) {home : ScopeId}
    (hh : store.IsHome root home) {name : String} {behaviour : Behaviour}
    (hget : (store.scope root).behaviours.get? name = some behaviour) :
    store.behaviour? held home name = some behaviour := by
  obtain ⟨file, hf⟩ := hh
  obtain ⟨hin, hif⟩ := h.files hf
  have hne : home ≠ root := h.file_ne_root hf
  have hr := h.isRoot.inside
  obtain ⟨bound, hb⟩ : ∃ bound, store.scopes.size = bound + 2 := by
    have hi : home.index ≠ root.index := fun heq => hne (congrArg ScopeId.mk heq)
    exact ⟨store.scopes.size - 2, by omega⟩
  have he : (store.scope home).behaviours = [] := h.elsewhere hne
  unfold Store.behaviour? Store.find
  rw [hb]
  simp [Store.walkFrom, Store.parentOf, he, hif.delegate, hif.parent, hget, Table.get?]

/-- The levels of a class that is not registered have no behaviours. -/
theorem behaviours_of_unregistered {id level : ClassId} (hid : store.classes.size ≤ id.index)
    (hl : level ∈ store.hierarchy id) : (store.classAt level).behaviours = [] := by
  have hc : store.classAt id = default := Store.classAt_of_size_le hid
  have hh : store.hierarchy id = [id] := by
    unfold Store.hierarchy Store.ancestorsFrom
    split
    · rfl
    · rw [hc]
      rfl
  rw [hh, List.mem_singleton] at hl
  rw [hl, hc]
  rfl

/-- The behaviours of a level are known, and they can be constructed. -/
theorem attachments_ok (h : store.Registered root) {id level : ClassId}
    (hl : level ∈ store.hierarchy id) :
    ∃ behaviours, attachments store held (store.classAt level) = .ok behaviours ∧
      ∀ behaviour ∈ behaviours, behaviour.members.Constructible := by
  refine exists_mapM_ok fun ⟨name, token⟩ hm => ?_
  by_cases hid : id.index < store.classes.size
  · obtain ⟨⟨chain, hc⟩, hcm⟩ :=
      ((Store.registry_sound_iff h.grounded h.linked.parents).mp h.sound).1 hid
    have hk := Store.kinship h.grounded h.linked.parents
    have hac : name ∈ store.allBehaviours id :=
      List.mem_flatMap.mpr ⟨level, hl, List.mem_map.mpr ⟨(name, token), hm, rfl⟩⟩
    rw [hk.hierarchy_eq hc hid] at hl
    have hh := (h.grounded.placed (hk.inside hc hid level hl)).home
    obtain ⟨behaviour, hb, -⟩ := hcm.tolerated _ hac
    refine ⟨behaviour, ?_, h.grounded.constructible _ (Table.mem_of_get? hb)⟩
    dsimp only
    rw [behaviour?_of_isHome h.grounded hh hb]
  · rw [behaviours_of_unregistered (Nat.le_of_not_lt hid) hl] at hm
    cases hm

/-- The behaviours of the steps are those that are attached. -/
theorem mem_attached_of_step {scopes : List ScopeId} {planned : List Level}
    {attached : List (List Behaviour)} {scope : ScopeId} {behaviour : Behaviour}
    (h : .behaviour scope behaviour ∈ classSteps scopes planned attached) :
    ∃ behaviours ∈ attached, behaviour ∈ behaviours := by
  have hp (steps : ScopeId × Level → List ConstructionStep)
      (hst : ∀ placed, .behaviour scope behaviour ∉ steps placed) :
      .behaviour scope behaviour ∉ (scopes.zip planned).flatMap steps := by
    intro hmem
    obtain ⟨placed, -, hs⟩ := List.mem_flatMap.mp hmem
    exact hst placed hs
  have hpm := hp (fun placed => parameterSteps placed.1 placed.2.binding) (by simp [parameterSteps])
  have hpp := hp (fun placed => propertySteps placed.1 placed.2.declared.members)
    (by simp [propertySteps])
  have hb := hp (fun placed => bodySteps placed.1 placed.2.declared.members) (by simp [bodySteps])
  simp only [classSteps, List.mem_append, List.mem_singleton, hpm, hpp, hb,
    reduceCtorEq, false_or, or_false] at h
  obtain ⟨⟨other, behaviours⟩, hpr, hs⟩ := List.mem_flatMap.mp h
  obtain ⟨found, hf, heq⟩ := List.mem_map.mp hs
  obtain ⟨-, rfl⟩ := ConstructionStep.behaviour.inj heq
  exact ⟨behaviours, (List.of_mem_zip hpr).2, hf⟩

/-- The construction is no attachment fault, and what it has to attach can be constructed. -/
structure Attaches (planned : Except Error Construction) : Prop where
  faultFree : FaultFree planned
  attachable : ∀ construction, planned = .ok construction → construction.Attachable

theorem Attaches.of_error {error : Error} (h : ¬ error.IsAttachmentFault) :
    Attaches (.error error) :=
  ⟨.of_error h, fun _ hc => nomatch hc⟩

/-- Every class can get its behaviours. -/
theorem ofClass_attaches (h : store.Registered root) (id : ClassId) (args : List Constant) :
    Attaches (ofClass store held id args).1 := by
  obtain ⟨attached, hac, hc⟩ := @exists_mapM_ok _ _
    (attachments store held) (fun behaviours => ∀ behaviour ∈ behaviours,
      behaviour.members.Constructible) ((store.hierarchy id).map store.classAt) (by
      intro declared hd
      obtain ⟨level, hl, rfl⟩ := List.mem_map.mp hd
      exact attachments_ok h hl)
  unfold ofClass
  dsimp only
  split
  · next error he => exact .of_error ((faultFree_levels ..).not_fault error he)
  · split
    · exact .of_error fun hf => hf
    · rw [hac]
      dsimp only
      split
      · exact .of_error fun hf => hf
      · refine ⟨.of_ok _, fun construction hcn => ?_⟩
        obtain rfl := Except.ok.inj hcn
        intro scope behaviour hs
        obtain ⟨behaviours, hb, hmem⟩ := mem_attached_of_step hs
        exact hc behaviours hb behaviour hmem

/-- Parameters that all have defaults need no arguments. -/
theorem exists_behaviourBinding {behaviour : Behaviour} (h : behaviour.members.Constructible) :
    ∃ binding, behaviourBinding behaviour = .ok binding := by
  unfold behaviourBinding
  split
  · next constructor hc =>
    rcases Binding.ofArguments_cases (.behaviourConstructor behaviour.name) constructor.params []
      with ⟨-, hr⟩ | ⟨hb, -⟩
    · rcases hr with hm | ⟨param, hp, hn⟩
      · exact absurd hm (Nat.not_lt_zero _)
      · simpa [hn] using h constructor hc param hp
    · exact hb
  · exact ⟨{}, rfl⟩

/-- A behaviour that needs no arguments can be constructed. -/
theorem ofBehaviour_settles {behaviour : Behaviour} (h : behaviour.members.Constructible)
    (owner : ObjectRef) :
    Flow.Settles ((ofBehaviour store held behaviour owner).1.map fun begun =>
      .push (.construct begun)) := by
  obtain ⟨binding, hb⟩ := exists_behaviourBinding h
  unfold ofBehaviour
  rw [hb]
  dsimp only
  split
  · next hn => cases hn
  · exact .inl rfl
  · intro scope other hs
    simp [parameterSteps, propertySteps, bodySteps] at hs

theorem settled_of_receive {object : ObjectRef} {step : Option ConstructionStep}
    {outcome : Outcome} {error : Error} {later : Store}
    (h : receive store object step outcome = (.error error, later)) : error.IsSettled := by
  unfold receive at h
  split at h
  · split at h
    · next he =>
      cases h
      exact Outcome.settled_of_receivedValue he
    · cases h
  · split at h
    · next he =>
      cases h
      exact Outcome.settled_of_receivedValue he
    · cases h
  · split at h
    · next he =>
      cases h
      exact Outcome.settled_of_receivedValue he
    · cases h
    · cases h
      exact .inr rfl
  · cases h

/-- The resumed construction goes on without attachment faults. -/
structure GoesOn (resumed : Resumed Construction) : Prop where
  flow : Flow.Settles resumed.flow
  attachable : resumed.frame.Attachable

theorem proceed_goesOn (object : ObjectRef) {steps : List ConstructionStep}
    (h : ∀ scope behaviour, .behaviour scope behaviour ∈ steps → behaviour.members.Constructible)
    (store : Store) : GoesOn (proceed held object steps store) := by
  fun_induction proceed held object steps store with
  | case1 => exact ⟨trivial, h⟩
  | case2 | case4 | case8 | case9 =>
    exact ⟨trivial, fun scope behaviour hs => h scope behaviour (List.mem_cons_of_mem _ hs)⟩
  | case3 _ _ _ _ _ _ ih | case5 _ _ _ _ _ ih | case10 _ _ ih =>
    exact ih fun scope behaviour hs => h scope behaviour (List.mem_cons_of_mem _ hs)
  | case6 scope behaviour steps store error later heq
  | case7 scope behaviour steps store construction later heq =>
    have hst := @ofBehaviour_settles store held behaviour
      (h scope behaviour List.mem_cons_self) object
    rw [heq] at hst
    exact ⟨hst, fun scope behaviour hs => h scope behaviour (List.mem_cons_of_mem _ hs)⟩

theorem resume_goesOn {construction : Construction} (h : construction.Attachable) (store : Store)
    (incoming : Option Outcome) : GoesOn (construction.resume store held incoming) := by
  unfold resume
  split
  · exact proceed_goesOn _ h store
  · split
    · next he => exact ⟨settled_of_receive he, h⟩
    · exact proceed_goesOn _ h _

end Construction

end StepScript
