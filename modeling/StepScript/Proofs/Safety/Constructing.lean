import StepScript.Proofs.Safety.Ready
import StepScript.Proofs.Safety.Registered
set_option autoImplicit false

/-!
# Calls, constructions and starts keep to the rules

Bound arguments leave expressions of parameters behind, and a planned construction has steps
whose code comes from the classes and behaviours of the store.  So the frames of calls, of
constructions and of starts never fail internally when they are resumed.
-/

namespace StepScript

variable {args : List Constant}

open Outcome (IsValue IsObject IsResult Suits MayGet Gets)

/-! ## Binding -/

namespace Binding

variable {callee : Callee}

/-- The values of the parameters that are left are expressions. -/
def Fits (binding : Binding) : Prop := ∀ entry ∈ binding.left, Node.Fits .expression entry.2

theorem Fits.collect {binding bound : Binding} {params : List Parameter} (h : binding.Fits)
    (hp : ParametersFit params)
    (hb : Binding.collect callee binding params args = .ok bound) : bound.Fits := by
  fun_induction Binding.collect callee binding params args with
  | case1 =>
    obtain rfl := Except.ok.inj hb
    exact h
  | case2 binding param params value args ih => exact ih h (List.forall_mem_cons.mp hp).2 hb
  | case3 binding param params initial hi ih =>
    obtain ⟨hpr, hr⟩ := List.forall_mem_cons.mp hp
    refine ih (fun entry he => ?_) hr hb
    rcases List.mem_append.mp he with hold | hnew
    · exact h entry hold
    · rw [List.mem_singleton.mp hnew]
      exact hpr initial hi
  | case4 => cases hb

theorem safe_ofArguments (params : List Parameter) (args : List Constant) :
    Safe (ofArguments callee params args) := by
  rcases ofArguments_cases callee params args with ⟨⟨fault, he, -⟩, -⟩ | ⟨⟨bound, hb⟩, -⟩
  · rw [he]
    exact .of_error fun _ h => by cases h
  · rw [hb]
    exact .of_ok bound

theorem fits_ofArguments {params : List Parameter} {bound : Binding}
    (hp : ParametersFit params) (hb : ofArguments callee params args = .ok bound) :
    bound.Fits := by
  unfold ofArguments at hb
  split at hb
  · cases hb
  · exact Fits.collect (by simp [Fits]) hp hb

end Binding

/-! ## Calls -/

namespace Call

variable {store : Store} {call : Call} {incoming : Option Outcome}

theorem fillNext_keeps {scope : ScopeId} {left : List (String × Node)} (hs : store.Fits)
    (hf : call.function.Fits) (hl : ∀ entry ∈ left, Node.Fits .expression entry.2) :
    (call.fillNext store scope left).Keeps IsValue Call.Takes := by
  cases left with
  | nil => exact ⟨hs, hf, rfl⟩
  | cons entry rest =>
    obtain ⟨he, hr⟩ := List.forall_mem_cons.mp hl
    exact ⟨hs, Flow.keeps_node scope he fun _ ho => ⟨hf, ho, hr⟩⟩

/-- The body of a function is a statement outside of any loop, and a native function answers
with a value. -/
theorem resume_keeps (hs : store.Fits) (h : call.Takes incoming) :
    (call.resume store incoming).Keeps IsValue Call.Takes := by
  obtain ⟨hf, hst⟩ := h
  obtain ⟨function, parent, stage⟩ := call
  unfold resume
  cases stage with
  | bind args =>
    dsimp only
    split
    · next error he => exact ⟨hs, (Binding.safe_ofArguments _ _).not_internal error he⟩
    · next binding hb =>
      have hl := Binding.fits_ofArguments hf.params hb
      exact fillNext_keeps ((hs.newScope ..).setAllOwn ..) hf hl
  | fill scope param rest =>
    obtain ⟨value, rfl⟩ := Outcome.receivedValue_of_gets hst.1
    exact fillNext_keeps (hs.setOwn ..) hf hst.2
  | ready scope =>
    dsimp only
    split
    · next body hbd =>
      exact ⟨hs, Flow.keeps_node scope (hf.body body hbd) fun _ ho => ⟨hf, ho⟩⟩
    · exact ⟨hs, IsValue, .native function scope, fun outcome ho =>
        ⟨hf, Outcome.IsValue.suits ho (.statement false)⟩⟩
  | running scope =>
    cases incoming with
    | none => cases hst
    | some outcome =>
      cases outcome with
      | value | giveBack => exact ⟨hs, trivial⟩
      | _ => cases hst

end Call

/-! ## Planning a construction -/

namespace Construction

variable {store : Store} {held : Held}

/-- The code of the level can be evaluated. -/
structure Level.Fits (level : Level) : Prop where
  declared : level.declared.Fits
  binding : level.binding.Fits

theorem safe_levels (args : List Constant) (checked : Bool) (hierarchy : List Class) :
    Safe (levels args checked hierarchy) := by
  rcases levels_cases args checked hierarchy with
    ⟨⟨fault, name, he, -⟩, -⟩ | ⟨⟨planned, hp⟩, -⟩
  · rw [he]
    exact .of_error fun _ h => by cases h
  · rw [hp]
    exact .of_ok _

theorem fits_levels {checked last : Bool} {hierarchy : List Class} {planned : List Level}
    (hc : ∀ declared ∈ hierarchy, declared.Fits)
    (h : levels args checked hierarchy = .ok (last, planned)) : ∀ level ∈ planned, level.Fits := by
  fun_induction levels args checked hierarchy generalizing last planned with
  | case1 =>
    obtain ⟨-, rfl⟩ := Prod.mk.inj (Except.ok.inj h)
    simp
  | case2 => cases h
  | case3 checked declared rest hcn later others hr ih =>
    obtain ⟨-, rfl⟩ := Prod.mk.inj (Except.ok.inj h)
    obtain ⟨hd, ho⟩ := List.forall_mem_cons.mp hc
    refine List.forall_mem_cons.mpr ⟨⟨hd, by simp [Binding.Fits]⟩, ih ho hr⟩
  | case4 => cases h
  | case5 => cases h
  | case6 =>
    rename_i declared rest function hcn given binding hb later others hr ih
    obtain ⟨-, rfl⟩ := Prod.mk.inj (Except.ok.inj h)
    obtain ⟨hd, ho⟩ := List.forall_mem_cons.mp hc
    have hf := hd.members.creation function hcn
    exact List.forall_mem_cons.mpr ⟨⟨hd, Binding.fits_ofArguments hf.params hb⟩, ih ho hr⟩

theorem safe_attachments (store : Store) (held : Held) (declared : Class) :
    Safe (attachments store held declared) := by
  refine Safe.mapM _ fun mention => ?_
  dsimp only
  split
  · exact .of_ok _
  · exact .of_error fun _ h => nomatch h

section

variable (hs : store.Fits)

include hs

theorem fits_attachments {declared : Class} {attached : List Behaviour}
    (h : attachments store held declared = .ok attached) :
    ∀ behaviour ∈ attached, behaviour.members.Fits := by
  intro behaviour hb
  obtain ⟨mention, -, hm⟩ := mem_of_mapM_ok h behaviour hb
  dsimp only at hm
  split at hm
  · next found hf =>
    obtain rfl := Except.ok.inj hm
    exact hs.behaviour? hf
  · cases hm

/-! ## Allocation -/

theorem fits_levelScopes {scopes : List ScopeId} {parent : ScopeId} {planned : List Level}
    (hp : ∀ level ∈ planned, level.Fits) :
    (levelScopes scopes parent planned store).2.Fits := by
  induction planned generalizing scopes parent store with
  | nil => exact hs
  | cons level rest ih =>
    obtain ⟨hl, hr⟩ := List.forall_mem_cons.mp hp
    unfold levelScopes
    refine ih (Store.Fits.setAllOwn (Store.Fits.setFunctions ?_ _ ?_) _ _) hr
    · exact (hs.newWrapper ..).newScope ..
    · exact hl.declared.members.functions

theorem fits_instantiate (typeName : String) (classId : Option ClassId) (outer : ScopeId)
    (scopes : List ScopeId) :
    (instantiate store held typeName classId outer scopes).2.Fits := by
  unfold instantiate
  have hsr : (store.nextSerial held outer).2.Fits := hs.withState ..
  refine Store.Fits.setObjects ?_ _ _
  exact hsr.of_eq rfl rfl

end

/-! ## Steps -/

theorem fits_parameterSteps {binding : Binding} (h : binding.Fits) (scope : ScopeId) :
    ∀ step ∈ parameterSteps scope binding, step.Fits := by
  intro step hst
  obtain ⟨entry, he, rfl⟩ := List.mem_map.mp hst
  exact h entry he

theorem fits_propertySteps {members : Members} (h : members.Fits) (scope : ScopeId) :
    ∀ step ∈ propertySteps scope members, step.Fits := by
  intro step hst
  obtain ⟨property, hp, rfl⟩ := List.mem_map.mp hst
  exact h.properties property hp

theorem fits_bodySteps {members : Members} (h : members.Fits) (scope : ScopeId) :
    ∀ step ∈ bodySteps scope members, step.Fits := by
  intro step hst
  obtain ⟨function, hf, rfl⟩ := List.mem_map.mp hst
  exact h.creation function (Option.mem_toList.mp hf)

/-- The way up from a class starts with the class. -/
theorem ancestorsFrom_ne_nil (store : Store) (bound : Nat) (seen : List String) (id : ClassId) :
    store.ancestorsFrom bound seen id ≠ [] := by
  unfold Store.ancestorsFrom
  split
  · simp
  · split
    · dsimp only
      split <;> simp
    · simp

theorem fits_classSteps {scopes : List ScopeId} {planned : List Level}
    {attached : List (List Behaviour)} (hpn : ∀ level ∈ planned, level.Fits)
    (hac : ∀ behaviours ∈ attached, ∀ behaviour ∈ behaviours, behaviour.members.Fits) :
    ∀ step ∈ classSteps scopes planned attached, step.Fits := by
  have hpl : ∀ (steps : ScopeId × Level → List ConstructionStep),
      (∀ scope, ∀ level ∈ planned, ∀ step ∈ steps (scope, level), step.Fits) →
      ∀ step ∈ (scopes.zip planned).flatMap steps, step.Fits := by
    intro steps hsp step hst
    obtain ⟨⟨scope, level⟩, hp, hst⟩ := List.mem_flatMap.mp hst
    exact hsp scope level (List.of_mem_zip hp).2 step hst
  simp only [classSteps, List.forall_mem_append, List.forall_mem_singleton]
  refine ⟨⟨⟨⟨⟨⟨⟨?_, trivial⟩, ?_⟩, trivial⟩, ?_⟩, trivial⟩, ?_⟩, trivial⟩
  · exact hpl _ fun scope level hl => fits_parameterSteps (hpn level hl).binding scope
  · exact hpl _ fun scope level hl => fits_propertySteps (hpn level hl).declared.members scope
  · intro step hst
    obtain ⟨⟨scope, behaviours⟩, hp, hst⟩ := List.mem_flatMap.mp hst
    obtain ⟨behaviour, hb, rfl⟩ := List.mem_map.mp hst
    exact hac behaviours (List.of_mem_zip hp).2 behaviour hb
  · exact hpl _ fun scope level hl => fits_bodySteps (hpn level hl).declared.members scope

/-- A construction that is planned can begin, and planning it does not fail internally. -/
structure Begins (planned : Except Error Construction × Store) : Prop where
  store : planned.2.Fits
  takes : match planned.1 with
    | .error error => ¬ error.IsInternal
    | .ok construction => construction.Takes none

theorem ofClass_begins (hs : store.Fits) (id : ClassId) (args : List Constant) :
    Begins (ofClass store held id args) := by
  have hc : ∀ declared ∈ (store.hierarchy id).map store.classAt, declared.Fits := by
    intro declared hd
    obtain ⟨level, -, rfl⟩ := List.mem_map.mp hd
    exact hs.classAt level
  have hn : (store.hierarchy id).map store.classAt ≠ [] := by
    rw [ne_eq, List.map_eq_nil_iff]
    exact ancestorsFrom_ne_nil store _ _ id
  unfold ofClass
  dsimp only
  generalize (store.hierarchy id).map store.classAt = hierarchy at hc hn ⊢
  split
  · next error he => exact ⟨hs, (safe_levels ..).not_internal error he⟩
  · next checked planned hp =>
    split
    · exact ⟨hs, Error.not_isInternal fun _ h => nomatch h⟩
    · split
      · next error he =>
        have hsf : Safe (hierarchy.mapM (attachments store held)) :=
          Safe.mapM _ (safe_attachments store held)
        exact ⟨hs, hsf.not_internal error he⟩
      · next attached hac =>
        split
        · next hls => exact absurd (List.getLast?_eq_none_iff.mp hls) hn
        · next base hbs =>
          have hl := fits_levels hc hp
          have hsc := @fits_levelScopes store hs [] base.home planned.reverse
            fun level hlv => hl level (List.mem_reverse.mp hlv)
          refine ⟨fits_instantiate hsc .., fits_classSteps hl ?_, trivial⟩
          intro behaviours hb
          obtain ⟨declared, -, hd⟩ := mem_of_mapM_ok hac _ hb
          exact fits_attachments hs hd

theorem safe_behaviourBinding (behaviour : Behaviour) : Safe (behaviourBinding behaviour) := by
  unfold behaviourBinding
  split
  · exact Binding.safe_ofArguments ..
  · exact .of_ok _

theorem fits_behaviourBinding {behaviour : Behaviour} {binding : Binding}
    (hm : behaviour.members.Fits) (h : behaviourBinding behaviour = .ok binding) :
    binding.Fits := by
  unfold behaviourBinding at h
  split at h
  · next function hf => exact Binding.fits_ofArguments (hm.creation function hf).params h
  · obtain rfl := Except.ok.inj h
    simp [Binding.Fits]

variable (hs : store.Fits)

include hs

theorem ofBehaviour_begins {behaviour : Behaviour} (hm : behaviour.members.Fits)
    (owner : ObjectRef) :
    Begins (ofBehaviour store held behaviour owner) := by
  unfold ofBehaviour
  dsimp only
  split
  · next error he => exact ⟨hs, (safe_behaviourBinding behaviour).not_internal error he⟩
  · exact ⟨hs, Error.not_isInternal fun _ h => nomatch h⟩
  · next binding outer hb ho =>
    have hl : binding.Fits := fits_behaviourBinding hm hb
    have hsc := Store.Fits.setFunctions (hs.newDetached .object outer)
      ⟨store.scopes.size⟩ hm.functions
    refine ⟨fits_instantiate hsc .., ?_, trivial⟩
    simp only [List.forall_mem_append, List.forall_mem_singleton]
    exact ⟨⟨⟨fits_parameterSteps hl _, fits_propertySteps hm _⟩, trivial⟩, fits_bodySteps hm _⟩

/-! ## Resuming a construction -/

theorem fits_register (object : ObjectRef) : (register store held object).Fits := by
  unfold register
  split
  · split
    · exact hs.modifyState ..
    · exact hs
  · exact hs

/-- What comes in is what the current step waits for. -/
theorem receive_keeps {construction : Construction} {outcome : Outcome}
    (h : construction.Takes (some outcome)) :
    (receive store construction.object construction.current outcome).2.Fits ∧
      Safe (receive store construction.object construction.current outcome).1 := by
  obtain ⟨object, current, steps⟩ := construction
  have hc := h.current
  match current, outcome, hc with
  | some (.parameter scope name _), .value value, _ => exact ⟨hs.setOwn .., .of_ok _⟩
  | some (.property scope name _), .value value, _ => exact ⟨hs.setOwn .., .of_ok _⟩
  | some (.behaviour scope _), .value (.object behaviour), _ =>
    exact ⟨(hs.attach scope behaviour).of_eq rfl rfl, .of_ok _⟩
  | some (.body ..), _, _ => exact ⟨hs, .of_ok _⟩
  | some .phase, _, _ => exact ⟨hs, .of_ok _⟩
  | some .register, _, _ => exact ⟨hs, .of_ok _⟩
  | none, _, _ => exact ⟨hs, .of_ok _⟩

theorem proceed_keeps {object : ObjectRef} {steps : List ConstructionStep}
    (hsp : ∀ step ∈ steps, step.Fits) :
    (proceed held object steps store).Keeps IsObject Construction.Takes := by
  induction steps generalizing store with
  | nil => exact ⟨hs, trivial⟩
  | cons step rest ih =>
    obtain ⟨hst, hr⟩ := List.forall_mem_cons.mp hsp
    cases step with
    | parameter scope name initial => exact ⟨hs, Flow.keeps_node scope hst fun _ ho => ⟨hr, ho⟩⟩
    | property scope name initial =>
      unfold proceed
      split
      · exact ih hs hr
      · cases initial with
        | some expression =>
          exact ⟨hs, Flow.keeps_node scope (hst expression rfl) fun _ ho => ⟨hr, ho⟩⟩
        | none => exact ih (hs.setOwn ..) hr
    | behaviour scope attached =>
      have hb := @ofBehaviour_begins store held hs attached hst object
      unfold proceed
      split
      · next error later hp =>
        rw [hp] at hb
        exact ⟨hb.store, hb.takes⟩
      · next construction later hp =>
        rw [hp] at hb
        exact ⟨hb.store, IsObject, .construct hb.takes, fun _ ho => ⟨hr, ho⟩⟩
    | body function scope =>
      exact ⟨hs.newScope .., IsValue, .call ⟨hst, rfl⟩, fun _ _ => ⟨hr, trivial⟩⟩
    | phase => exact ⟨hs, hr, trivial⟩
    | register => exact ih (fits_register hs object) hr

theorem resume_keeps {construction : Construction} {incoming : Option Outcome}
    (h : construction.Takes incoming) :
    (construction.resume store held incoming).Keeps IsObject Construction.Takes := by
  cases incoming with
  | none => exact proceed_keeps hs h.steps
  | some outcome =>
    obtain ⟨hl, hsf⟩ := receive_keeps hs h
    unfold resume
    dsimp only
    split
    · next error later hr =>
      rw [hr] at hl hsf
      exact ⟨hl, hsf.not_internal error rfl⟩
    · next later hr =>
      rw [hr] at hl
      exact proceed_keeps hl h.steps

end Construction

/-! ## The start of a unit -/

namespace Start

variable {store : Store} {held : Held}

variable (hs : store.Fits)

include hs

theorem ofCode_takes {code : Code} (hc : code.Fits) (scope : ScopeId) :
    (ofCode store held code scope).Takes none := by
  refine ⟨?_, trivial⟩
  simp only [ofCode, List.forall_mem_append]
  refine ⟨⟨⟨fun step hst => ?_, fun step hst => ?_⟩, fun step hst => ?_⟩, fun step hst => ?_⟩
  · obtain ⟨id, -, hst⟩ := List.mem_flatMap.mp hst
    obtain ⟨property, hp, rfl⟩ := List.mem_map.mp hst
    exact (hs.classAt id).sharedProperties property hp
  · obtain ⟨id, -, hst⟩ := List.mem_flatMap.mp hst
    unfold constructorSteps at hst
    split at hst
    · rw [List.mem_singleton.mp hst]
      trivial
    · cases hst
  · obtain ⟨id, -, rfl⟩ := List.mem_map.mp hst
    trivial
  · obtain ⟨file, hf, rfl⟩ := List.mem_map.mp hst
    exact hc file hf

theorem fits_register (root : ScopeId) (id : ClassId) : (register store held root id).Fits := by
  unfold register
  split
  · exact hs.modifyState ..
  · exact hs

theorem proceed_keeps {root : ScopeId} {last : Constant} {steps : List StartStep}
    (hsp : ∀ step ∈ steps, step.Fits) :
    (proceed held root last steps store).Keeps IsValue Start.Takes := by
  induction steps generalizing store with
  | nil => exact ⟨hs, trivial⟩
  | cons step rest ih =>
    obtain ⟨hst, hr⟩ := List.forall_mem_cons.mp hsp
    cases step with
    | sharedProperty id name initial =>
      unfold proceed
      dsimp only
      split
      · exact ih hs hr
      · cases initial with
        | some expression =>
          exact ⟨hs, Flow.keeps_node _ (hst expression rfl) fun _ ho =>
            ⟨hr, ho.suits (.statement false)⟩⟩
        | none => exact ih (hs.setOwn ..) hr
    | sharedConstructor id =>
      unfold proceed
      split
      · next function hfn =>
        have hft := (hs.classAt id).sharedConstructor function hfn
        exact ⟨hs, IsValue, .call ⟨hft, rfl⟩, fun _ ho => ⟨hr, ho.suits (.statement false)⟩⟩
      · exact ih hs hr
    | register id => exact ih (fits_register hs root id) hr
    | file source =>
      obtain ⟨⟨name, body, hk⟩, hf⟩ := hst
      unfold proceed
      rw [hk]
      exact ⟨hs.fileScope held root name, Flow.keeps_node _ hf fun _ ho => ⟨hr, ho⟩⟩

/-- A start pauses after each step. -/
theorem resume_keeps {start : Start} {incoming : Option Outcome} (h : start.Takes incoming) :
    (start.resume store held incoming).Keeps IsValue Start.Takes := by
  cases incoming with
  | none => exact proceed_keeps hs h.steps
  | some outcome =>
    obtain ⟨value, hv⟩ : ∃ value, outcomeValue outcome = .ok value := by
      match outcome, h.current with
      | .value value, _ => exact ⟨value, rfl⟩
      | .giveBack value, _ => exact ⟨value, rfl⟩
    unfold resume
    simp only [hv]
    split
    · exact ⟨hs.setOwn .., h.steps, trivial⟩
    · exact ⟨hs, h.steps, trivial⟩
    · exact ⟨hs, h.steps, trivial⟩

end Start

end StepScript
