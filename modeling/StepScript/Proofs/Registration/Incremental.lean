import StepScript.Host.Standard
import StepScript.Proofs.System.Growing
set_option autoImplicit false

/-!
# One unit after the other

Two units that are registered one after the other leave the store that they leave when they are
registered as one (`System.Grown.incremental_eq_batch`).  The first of them has its classes linked
before the second is declared, but declarations do not depend on links.
-/

namespace StepScript

namespace Store

variable {root : ScopeId} {store middle last : Store} {first second : List Node}
  {classes all : List ClassId}

/-- The classes of a larger store come behind those of the smaller one. -/
theorem exists_allClasses_append (h : store.classes.size ≤ last.classes.size) :
    ∃ more, last.allClasses = store.allClasses ++ more := by
  obtain ⟨count, hc⟩ := Nat.exists_eq_add_of_le h
  unfold allClasses
  rw [hc, List.range_add, List.map_append]
  exact ⟨_, rfl⟩

/-- Units that are registered one after the other can be registered as one, and the other way
round. -/
theorem addUnit_append (h : store.Registered root)
    (hf : store.addUnit root first = (.ok classes, middle)) :
    store.addUnit root (first ++ second) = (.ok all, last) ↔
      ∃ more, all = classes ++ more ∧ middle.addUnit root second = (.ok more, last) := by
  obtain ⟨declared, hd, hrl, hm, hc⟩ := (addUnit_ok_iff h).mp hf
  have hg := h.grounded.declareUnit hd
  -- What the second unit declares does not depend on the links of the first.
  have hs := hrl.declareUnit hg second
  have hb : store.declareUnit root (first ++ second) = declared.declareUnit root second := by
    rw [declareUnit_append, hd, Option.bind_some]
  simp only [addUnit_ok_iff h, addUnit_ok_iff hm, hb]
  constructor
  · rintro ⟨later, hlt, hl, hr, hall⟩
    rw [hlt] at hs
    generalize hown : middle.declareUnit root second = own at hs
    cases hs with
    | some hsm =>
      have hgr := hm.grounded.grows_unit hown
      have hln := hsm.symm.trans hl
      obtain ⟨more, hmr⟩ := exists_allClasses_append
        (Nat.le_trans hgr.classesSize (Nat.le_of_eq hln.classesSize.symm))
      refine ⟨more, ?_, _, rfl, hln, hr, hmr⟩
      rw [hmr, hc, List.append_assoc] at hall
      exact (List.append_cancel_left hall).symm
  · rintro ⟨more, rfl, later, hlt, hl, hr, hall⟩
    rw [hlt] at hs
    generalize declared.declareUnit root second = own at hs
    cases hs with
    | some hsm =>
      refine ⟨_, rfl, hsm.trans hl, hr, ?_⟩
      rw [hall, hc, List.append_assoc]

end Store

/-- Incremental and batch registration agree.  Over every Global scope that units and running code
can lead to, a unit is accepted behind an accepted one exactly if the two are accepted as one, and
then both ways leave the same store and name the same classes in the same order. -/
theorem System.Grown.incremental_eq_batch {σ τ : Type} {host : Host σ τ} {system : System σ τ}
    (h : Grown host system) {first : List Node} {classes : List ClassId} {middle : Store}
    (hfirst : system.store.addUnit system.program.root first = (.ok classes, middle))
    (second : List Node) (all : List ClassId) (last : Store) :
    system.store.addUnit system.program.root (first ++ second) = (.ok all, last) ↔
      ∃ more, all = classes ++ more ∧
        middle.addUnit system.program.root second = (.ok more, last) :=
  Store.addUnit_append h.inOrder.registered hfirst

set_option maxRecDepth 20000 in
/-- A class `B` extends a class `A` of an earlier unit, and a class `C` of the same file but of the
next unit extends `B`. -/
theorem System.Grown.incremental_eq_batch_heirs :
    let heir (name : String) (parent : Option String) : Node :=
      ⟨.classDecl name parent ⟨.block [], default⟩, default⟩
    let empty : System Unit Standard.Sleep := System.empty default { state := () }
    let system := empty.withUnit [⟨.file "base" [heir "A" none], default⟩]
    let first : List Node := [⟨.file "heirs" [heir "B" (some "A")], default⟩]
    let second : List Node := [⟨.file "heirs" [heir "C" (some "B")], default⟩]
    Grown Standard.host system ∧ ∃ middle last,
      system.store.addUnit system.program.root first = (.ok [⟨1⟩], middle) ∧
        middle.addUnit system.program.root second = (.ok [⟨2⟩], last) ∧
        system.store.addUnit system.program.root (first ++ second) = (.ok [⟨1⟩, ⟨2⟩], last) := by
  intro heir empty system first second
  have hgrown : Grown Standard.host system := .unit (.empty _ _) _
  have hfirst : (system.store.addUnit system.program.root first).1 = .ok [⟨1⟩] := by cbv
  have hsecond : ((system.store.addUnit system.program.root first).2.addUnit system.program.root
      second).1 = .ok [⟨2⟩] := by cbv
  generalize hone : system.store.addUnit system.program.root first = one at hfirst hsecond
  obtain ⟨answer, middle⟩ := one
  obtain rfl : answer = .ok [⟨1⟩] := hfirst
  generalize htwo : middle.addUnit system.program.root second = two at hsecond
  obtain ⟨answer, last⟩ := two
  obtain rfl : answer = .ok [⟨2⟩] := hsecond
  exact ⟨hgrown, middle, last, rfl, htwo,
    (hgrown.incremental_eq_batch hone second _ last).mpr ⟨[⟨2⟩], rfl, htwo⟩⟩

end StepScript
