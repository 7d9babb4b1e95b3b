import Mathlib
import StepScript.Program
import StepScript.Proofs.Registration.Gathering
set_option autoImplicit false

/-!
# A unit that is refused leaves no trace

Gathering a unit writes only to scopes and classes that it has added itself: the classes of
the unit and their shared scopes lie behind everything that the store had before
(`Draft.Detached`).  So the store of a refused unit, cut back to its former size, is the
former store.
-/

namespace StepScript

variable {id : ClassId} {store : Store}

/-! ## Cutting a store back -/

namespace Store

variable {store before : Store}

theorem cutBack_self (store : Store) : store.cutBack store = store := by
  unfold cutBack
  simp

theorem cutBack_addScope (scope : Scope) (h : before.scopes.size ≤ store.scopes.size) :
    (store.addScope scope).2.cutBack before = store.cutBack before := by
  unfold addScope cutBack
  have hs : (store.scopes.push scope).take before.scopes.size
      = store.scopes.take before.scopes.size := by grind
  simp only [hs]

theorem cutBack_addClass (declared : Class)
    (h : before.classes.size ≤ store.classes.size) :
    (store.addClass declared).2.cutBack before = store.cutBack before := by
  unfold addClass cutBack
  have hc : (store.classes.push declared).take before.classes.size
      = store.classes.take before.classes.size := by grind
  simp only [hc]

/-- A change behind the cut is lost. -/
theorem cutBack_modifyScope {id : ScopeId} (change : Scope → Scope)
    (h : before.scopes.size ≤ id.index) :
    (store.modifyScope id change).cutBack before = store.cutBack before := by
  unfold modifyScope cutBack
  have hs : (store.scopes.modify id.index change).take before.scopes.size
      = store.scopes.take before.scopes.size := by grind
  simp only [hs]

theorem cutBack_modifyClass (change : Class → Class) (h : before.classes.size ≤ id.index) :
    (store.modifyClass id change).cutBack before = store.cutBack before := by
  unfold modifyClass cutBack
  have hc : (store.classes.modify id.index change).take before.classes.size
      = store.classes.take before.classes.size := by grind
  simp only [hc]

/-- A store that can be cut back to another one has all scopes of it. -/
theorem scopes_size_le (h : store.cutBack before = before) :
    before.scopes.size ≤ store.scopes.size := by
  have hs := congrArg (fun cut => cut.scopes.size) h
  simp only [cutBack, Array.take_eq_extract, Array.size_extract] at hs
  omega

theorem classes_size_le (h : store.cutBack before = before) :
    before.classes.size ≤ store.classes.size := by
  have hs := congrArg (fun cut => cut.classes.size) h
  simp only [cutBack, Array.take_eq_extract, Array.size_extract] at hs
  omega

end Store

/-! ## Drafts write only to what they add -/

namespace Draft

/-- The class has been added to the store, and so has the scope that its instances share. -/
structure AddedClass (before store : Store) (id : ClassId) : Prop where
  behind : before.classes.size ≤ id.index
  inside : id.index < store.classes.size
  shared : before.scopes.size ≤ (store.classAt id).sharedScope.index

/-- The draft still has the former store, and its classes lie outside of it. -/
structure Detached (before : Store) (draft : Draft) : Prop where
  former : draft.store.cutBack before = before
  classes : ∀ id ∈ draft.classes, AddedClass before draft.store id

variable {before : Store} {draft : Draft}

theorem detached_start (store : Store) (target : ScopeId) : Detached store { store, target } where
  former := store.cutBack_self
  classes := by simp

/-- What a draft knows of its classes holds in every store with the same classes. -/
theorem AddedClass.of_classes_eq {store later : Store} (h : AddedClass before store id)
    (hc : later.classes = store.classes) :
    AddedClass before later id where
  behind := h.behind
  inside := hc ▸ h.inside
  shared := by
    have hs := h.shared
    unfold Store.classAt at hs ⊢
    rwa [hc]

/-- A class of the draft stays what it is when another one is added. -/
theorem AddedClass.addClass (h : AddedClass before store id) (declared : Class) :
    AddedClass before (store.addClass declared).2 id where
  behind := h.behind
  inside := by
    have hi := h.inside
    simp only [Store.addClass, Array.size_push]
    omega
  shared := by
    have hs := h.shared
    simp only [Store.classAt, Store.addClass] at hs ⊢
    rwa [Array.getElem?_push_lt h.inside, ← Array.getElem?_eq_getElem h.inside]

/-- A class that is added now. -/
theorem addedClass_addClass {declared : Class} (hc : before.classes.size ≤ store.classes.size)
    (hs : before.scopes.size ≤ declared.sharedScope.index) :
    AddedClass before (store.addClass declared).2 (store.addClass declared).1 where
  behind := hc
  inside := by simp [Store.addClass]
  shared := by simpa [Store.classAt, Store.addClass] using hs

/-- A class of the draft stays in it when it gets a parent. -/
theorem AddedClass.modifyClass (h : AddedClass before store id) (changed : ClassId)
    {change : Class → Class}
    (hc : ∀ declared, (change declared).sharedScope = declared.sharedScope) :
    AddedClass before (store.modifyClass changed change) id where
  behind := h.behind
  inside := by simpa [Store.modifyClass] using h.inside
  shared := by
    have hs := h.shared
    have hi := h.inside
    simp only [Store.classAt, Store.modifyClass] at hs ⊢
    rw [Array.getElem?_modify]
    split
    · rw [Array.getElem?_eq_getElem hi] at hs ⊢
      simpa [hc] using hs
    · exact hs

theorem Detached.withFile (h : Detached before draft) (name : String) :
    Detached before (draft.withFile name).2 where
  former := (Store.cutBack_addScope _ (Store.scopes_size_le h.former)).trans h.former
  classes := fun id hid => (h.classes id hid).of_classes_eq rfl

theorem Detached.withClass (h : Detached before draft) (file : ScopeId) (name : String)
    (parentName : Option String) (collected : Collected) (token : Token) :
    Detached before (draft.withClass file name parentName collected token) where
  former := by
    have hs := Store.scopes_size_le h.former
    have hc := Store.classes_size_le h.former
    refine (Store.cutBack_addClass _ ?_).trans ?_
    · exact hc
    · refine (Store.cutBack_modifyScope _ hs).trans ?_
      exact (Store.cutBack_addScope _ hs).trans h.former
  classes := by
    have hs := Store.scopes_size_le h.former
    have hc := Store.classes_size_le h.former
    intro id hid
    rcases List.mem_append.mp hid with hold | hnew
    · refine AddedClass.addClass ?_ _
      exact (h.classes id hold).of_classes_eq rfl
    · obtain rfl := List.mem_singleton.mp hnew
      exact addedClass_addClass hc hs

theorem Detached.withParent (h : Detached before draft) (parent : ClassId)
    (hid : id ∈ draft.classes) : Detached before (draft.withParent id parent) where
  former := (Store.cutBack_modifyClass _ (h.classes id hid).behind).trans h.former
  classes := fun other ho => (h.classes other ho).modifyClass id fun _ => rfl

/-- The shared scope that gets another parent is one of the draft. -/
theorem Detached.withSharedParent (h : Detached before draft) (parent : ClassId)
    (hid : id ∈ draft.classes) :
    Detached before (draft.withSharedParent id parent) where
  former := (Store.cutBack_modifyScope _ (h.classes id hid).shared).trans h.former
  classes := fun other ho => (h.classes other ho).of_classes_eq rfl

/-- No addition touches the former store. -/
theorem Addition.detached {files : List Node} {next : Draft}
    (had : Addition files draft next) (h : Detached before draft) :
    Detached before next := by
  cases had with
  | file name => exact h.withFile name
  | classDecl file declared kind collects => exact h.withClass ..
  | behaviourDecl declared kind collects => exact ⟨h.former, h.classes⟩
  | functionDecl file declared kind checked => exact ⟨h.former, h.classes⟩
  | parent added => exact h.withParent _ added
  | sharedParent added => exact h.withSharedParent _ added

/-- Gathering never touches the former store, whether it fails or not. -/
theorem gather_detached (files : List Node) (store : Store) (target : ScopeId) :
    Leaves (Detached store) (gather files) { store, target } := by
  refine leaves_mono (fun later han => ?_) (gather_additions files _)
  induction han with
  | refl => exact detached_start store target
  | tail _ had ih => exact had.detached ih

end Draft

/-! ## Refused units -/

/-- A refused unit leaves the store as it was. -/
theorem Store.addUnit_error {store after : Store} {target : ScopeId} {files : List Node}
    {error : Error} (h : store.addUnit target files = (.error error, after)) :
    after = store := by
  have hd := Draft.gather_detached files store target
  unfold Store.addUnit at h
  split at h
  case h_1 refusal draft hg =>
      obtain ⟨-, rfl⟩ := Prod.mk.inj h
      unfold Draft.Leaves at hd
      rw [hg] at hd
      exact hd.former
  case h_2 draft hg => cases h

/-- Sources that are refused leave the store as it was, whether they cannot be parsed or
cannot be registered. -/
theorem Program.register_error {store after : Store} {root : ScopeId}
    {sources : List Source} {error : Error}
    (h : register store root sources = (.error error, after)) : after = store := by
  unfold register at h
  split at h
  case h_1 fault hp => exact (Prod.mk.inj h).2.symm
  case h_2 files hp =>
      split at h
      case h_1 refusal later hu =>
          obtain ⟨-, rfl⟩ := Prod.mk.inj h
          exact Store.addUnit_error hu
      case h_2 classes later hu => cases h

/-- Registration is atomic.  Whatever a store has come to hold, a unit or a source that is
refused leaves every scope, class and object of it as it was, and all registries; so every
later unit and source gets the answer, and the store, that it would have got before. -/
theorem Program.refused_leaves_no_trace (store : Store) (error : Error) :
    (∀ target files, (store.addUnit target files).1 = .error error →
      let after := (store.addUnit target files).2
      after = store ∧
        ∀ later unit, after.addUnit later unit = store.addUnit later unit) ∧
    (∀ (program : Program) (source : Source),
      (program.extend store source).1 = .error error →
        let after := (program.extend store source).2
        after = store ∧
          ∀ (other : Program) (next : Source),
            other.extend after next = other.extend store next) := by
  refine ⟨fun target files h => ?_, fun program source h => ?_⟩
  · have hafter : (store.addUnit target files).2 = store := Store.addUnit_error (Prod.ext h rfl)
    exact ⟨hafter, fun later unit => by rw [hafter]⟩
  · have hafter : (program.extend store source).2 = store := register_error (Prod.ext h rfl)
    exact ⟨hafter, fun other next => by rw [hafter]⟩

set_option maxRecDepth 20000 in
/-- A source that declares a class and then jumps out of no loop is refused, and so is the
unit of a class that is declared twice. -/
theorem Program.refused_leaves_no_trace_jump :
    let store := (Store.newGlobal {}).2
    let program : Program := ⟨⟨0⟩, default⟩
    let source : Source := ⟨"late", "class A\nend\nbreak\n"⟩
    let declared : Node := ⟨.classDecl "A" none ⟨.block [], default⟩, default⟩
    let files : List Node := [⟨.file "twice" [declared, declared], default⟩]
    let jump : Token := ⟨.keyword, "break", 3, 1, 5, 5, "late"⟩
    ((program.extend store source).1 = .error (.registration (.outsideLoop "break") jump) ∧
      (program.extend store source).2 = store) ∧
    ((store.addUnit ⟨0⟩ files).1 = .error (.registration (.duplicateClass "A") default) ∧
      (store.addUnit ⟨0⟩ files).2 = store) := by
  intro store program source declared files jump
  have hsource : (program.extend store source).1
      = .error (.registration (.outsideLoop "break") jump) := by cbv
  have hunit : (store.addUnit ⟨0⟩ files).1
      = .error (.registration (.duplicateClass "A") default) := by cbv
  exact ⟨⟨hsource, ((refused_leaves_no_trace store _).2 program source hsource).1⟩,
    hunit, ((refused_leaves_no_trace store _).1 ⟨0⟩ files hunit).1⟩

end StepScript
