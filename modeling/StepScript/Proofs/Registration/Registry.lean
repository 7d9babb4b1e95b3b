import StepScript.Proofs.Registration.Grounded
import StepScript.Proofs.Store.Lineage
set_option autoImplicit false

/-!
# What registration knows by name

Whether classes and behaviours fit together is a matter of names: which class each class names
as its parent, which behaviours it attaches, and what these demand.  A registry says that much,
and no more (`Registry`), and it is sound if every class has a finite lineage of known classes along
which the contracts of all behaviours are kept (`Registry.Sound`).
-/

namespace StepScript

/-- The head of a class declaration. -/
structure Heading where
  parentName : Option String
  attached : List String

/-- The head of the declaration of a class. -/
def Class.heading (declared : Class) : Heading :=
  ⟨declared.parentName, declared.behaviours.map (·.1)⟩

/-- Classes and behaviours by their names. -/
structure Registry where
  class? : String → Option Heading
  behaviour? : String → Option Behaviour

namespace Registry

variable {registry larger : Registry}

/-- A class and its ancestors by their headings, up to one that names no parent. -/
inductive Lineage (registry : Registry) : String → List Heading → Prop where
  | last {name : String} {heading : Heading} (known : registry.class? name = some heading)
      (first : heading.parentName = none) : Lineage registry name [heading]
  | under {name parent : String} {heading : Heading} {chain : List Heading}
      (known : registry.class? name = some heading) (extends_ : heading.parentName = some parent)
      (above : Lineage registry parent chain) : Lineage registry name (heading :: chain)

/-- The behaviour goes with all that are attached beside it. -/
structure Tolerates (behaviour : Behaviour) (attached : List String) : Prop where
  requires : ∀ mention ∈ behaviour.requires, mention.1 ∈ attached
  excludes : ∀ mention ∈ behaviour.excludes, mention.1 ∉ attached

/-- The behaviours are known, differ from each other and go together. -/
structure Compatible (registry : Registry) (attached : List String) : Prop where
  nodup : attached.Nodup
  tolerated : ∀ name ∈ attached, ∃ behaviour, registry.behaviour? name = some behaviour ∧
    Tolerates behaviour attached

/-- The contracts of the behaviour name behaviours and do not contradict each other. -/
structure Coherent (registry : Registry) (behaviour : Behaviour) : Prop where
  known : ∀ mention ∈ behaviour.requires ++ behaviour.supports ++ behaviour.excludes,
    (registry.behaviour? mention.1).isSome = true
  consistent : ∀ mention ∈ behaviour.requires, ∀ other ∈ behaviour.excludes, other.1 ≠ mention.1

/-- All classes and behaviours fit together. -/
structure Sound (registry : Registry) : Prop where
  classes : ∀ {name heading}, registry.class? name = some heading →
    ∃ chain, registry.Lineage name chain ∧ registry.Compatible (chain.flatMap (·.attached))
  behaviours : ∀ {name behaviour}, registry.behaviour? name = some behaviour →
    registry.Coherent behaviour

/-! ## More classes and behaviours -/

/-- What the one registry knows, the other knows too. -/
structure Within (registry larger : Registry) : Prop where
  class? : ∀ {name heading}, registry.class? name = some heading →
    larger.class? name = some heading
  behaviour? : ∀ {name behaviour}, registry.behaviour? name = some behaviour →
    larger.behaviour? name = some behaviour

namespace Within

variable (h : registry.Within larger)

include h

theorem lineage {name : String} {chain : List Heading} (hc : registry.Lineage name chain) :
    larger.Lineage name chain := by
  induction hc with
  | last hk hf => exact .last (h.class? hk) hf
  | under hk he _ ih => exact .under (h.class? hk) he ih

theorem compatible {attached : List String} (hac : registry.Compatible attached) :
    larger.Compatible attached where
  nodup := hac.nodup
  tolerated name hn := by
    obtain ⟨behaviour, hk, ht⟩ := hac.tolerated name hn
    exact ⟨behaviour, h.behaviour? hk, ht⟩

theorem coherent {behaviour : Behaviour} (hb : registry.Coherent behaviour) :
    larger.Coherent behaviour where
  known mention hm := by
    obtain ⟨other, ho⟩ := Option.isSome_iff_exists.mp (hb.known mention hm)
    exact Option.isSome_iff_exists.mpr ⟨other, h.behaviour? ho⟩
  consistent := hb.consistent

end Within

/-! ## Checks -/

variable {draft : Draft}

variable (hl : ∀ name, draft.behaviour? name = registry.behaviour? name)

include hl

/-- The check of contracts. -/
theorem checkContracts_ok (behaviour : Behaviour) :
    draft.checkContracts behaviour = .ok () ↔ registry.Coherent behaviour := by
  unfold Draft.checkContracts
  dsimp only
  constructor
  · intro hc
    split at hc
    · cases hc
    · next hk =>
      split at hc
      · cases hc
      · next hcn =>
        refine ⟨fun mention hm => ?_, fun mention hm other ho heq => ?_⟩
        · have hs := List.find?_eq_none.mp hk mention hm
          rw [hl] at hs
          simpa [Option.isSome_iff_ne_none] using hs
        · have hn := List.find?_eq_none.mp hcn mention hm
          exact hn (List.any_eq_true.mpr ⟨other, ho, by simp [heq]⟩)
  · intro hch
    rw [List.find?_eq_none.mpr fun mention hm => ?_]
    · dsimp only
      rw [List.find?_eq_none.mpr fun mention hm => ?_]
      intro hany
      obtain ⟨other, ho, heq⟩ := List.any_eq_true.mp hany
      exact hch.consistent mention hm other ho (by simpa using heq)
    · have hs := hch.known mention hm
      rw [hl]
      simpa [Option.isSome_iff_ne_none] using hs

/-- The check of one attachment. -/
theorem checkAttachment_ok (owner : String) (attached seen : List String) (mention : Mention) :
    draft.checkAttachment owner attached seen mention = .ok () ↔
      mention.1 ∉ seen ∧ ∃ behaviour, registry.behaviour? mention.1 = some behaviour ∧
        Tolerates behaviour attached := by
  obtain ⟨name, token⟩ := mention
  unfold Draft.checkAttachment
  dsimp only
  rw [hl]
  cases registry.behaviour? name with
  | none =>
    dsimp only
    constructor
    · intro hc
      split at hc <;> cases hc
    · rintro ⟨-, behaviour, hn, -⟩
      cases hn
  | some behaviour =>
    dsimp only
    constructor
    · intro hc
      split at hc
      · cases hc
      · next hs =>
        split at hc
        · cases hc
        · next hr =>
          split at hc
          · cases hc
          · next he =>
            refine ⟨by simpa using hs, behaviour, rfl, fun mention hm => ?_, fun mention hm => ?_⟩
            · simpa using List.find?_eq_none.mp hr mention hm
            · simpa using List.find?_eq_none.mp he mention hm
    · rintro ⟨hs, other, ho, hr, he⟩
      obtain rfl := Option.some.inj ho
      rw [if_neg (by simpa using hs), List.find?_eq_none.mpr fun mention hm => ?_]
      · dsimp only
        rw [List.find?_eq_none.mpr fun mention hm => ?_]
        simpa using he mention hm
      · simpa using hr mention hm

/-- The check of attachments. -/
theorem checkAttachmentList_ok (owner : String) (attached seen : List String)
    (mentions : List Mention) :
    draft.checkAttachmentList owner attached seen mentions = .ok () ↔
      (mentions.map (·.1)).Nodup ∧ (∀ name ∈ mentions.map (·.1), name ∉ seen) ∧
        ∀ name ∈ mentions.map (·.1), ∃ behaviour, registry.behaviour? name = some behaviour ∧
          Tolerates behaviour attached := by
  induction mentions generalizing seen with
  | nil => simp [Draft.checkAttachmentList]
  | cons mention rest ih =>
    have hf := checkAttachment_ok hl owner attached seen mention
    unfold Draft.checkAttachmentList
    rw [List.map_cons, List.nodup_cons, List.forall_mem_cons, List.forall_mem_cons]
    constructor
    · intro hc
      split at hc
      · cases hc
      · next hm =>
        obtain ⟨hs, hk⟩ := hf.mp hm
        obtain ⟨hnd, hr, ht⟩ := (ih _).mp hc
        refine ⟨⟨fun hmem => ?_, hnd⟩, ⟨hs, fun name hn hmem => ?_⟩, hk, ht⟩
        · exact hr _ hmem List.mem_cons_self
        · exact hr name hn (List.mem_cons_of_mem _ hmem)
    · rintro ⟨⟨hnew, hnd⟩, ⟨hs, hr⟩, hk, ht⟩
      rw [hf.mpr ⟨hs, hk⟩]
      refine (ih _).mpr ⟨hnd, fun name hn hmem => ?_, ht⟩
      rcases List.mem_cons.mp hmem with rfl | hmem
      · exact hnew hn
      · exact hr name hn hmem

/-- The check of the attachments along the hierarchy of a class. -/
theorem checkAttachments_ok (id : ClassId) :
    draft.checkAttachments id = .ok () ↔ registry.Compatible (draft.store.allBehaviours id) := by
  have hnm : ((draft.store.hierarchy id).flatMap fun level =>
      (draft.store.classAt level).behaviours).map (·.1) = draft.store.allBehaviours id := by
    unfold Store.allBehaviours
    rw [List.map_flatMap]
  unfold Draft.checkAttachments
  dsimp only
  rw [checkAttachmentList_ok hl, hnm]
  constructor
  · rintro ⟨hn, -, ht⟩
    exact ⟨hn, ht⟩
  · rintro ⟨hn, ht⟩
    exact ⟨hn, by simp, ht⟩

end Registry

end StepScript
