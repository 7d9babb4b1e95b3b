import Mathlib.Data.List.Nodup
import Mathlib.Data.List.Perm.Basic
import StepScript.Proofs.Store.Access
set_option autoImplicit false

/-!
# What is alive keeps alive what it holds

Liveness is computed in two ways: by a search from the roots, and by taking away what nothing
holds.  The search finds exactly what can be reached (`Store.Enclosed.reaches_iff`).  What is taken
away is never held by something that is left, because the holders that are left are counted
(`Store.Peeling`).  So whatever something alive holds is alive too (`Store.Enclosed.alive_of_held`).
-/

namespace StepScript.Store

variable {store : Store} {roots front next dead : List Ref} {ref other target : Ref}

/-! ## Places -/

/-- A scope that is referred to is a scope of the store.  A host may make up objects, which then
hold nothing. -/
def Sees (store : Store) : Ref → Prop
  | .scope id => id.index < store.scopes.size
  | .object _ => True

/-- Scopes that the store refers to are scopes of the store. -/
structure Enclosed (store : Store) : Prop where
  holds : ∀ {ref other : Ref}, other ∈ store.refsOf ref → store.Sees other
  classes : ∀ ref ∈ store.classRefs, store.Sees ref

/-- What stands at one place holds the same, whatever it is called. -/
theorem refsOf_eq_of_cell_eq (href : store.Sees ref) (ho : store.Sees other)
    (h : store.cell ref = store.cell other) : store.refsOf ref = store.refsOf other := by
  unfold Sees at href ho
  unfold cell at h
  cases ref with
  | scope id =>
    cases other with
    | scope id' =>
      have hid : id = id' := by
        cases id
        cases id'
        exact congrArg ScopeId.mk h
      rw [hid]
    | object object =>
      dsimp only at h href
      omega
  | object object =>
    cases other with
    | scope id =>
      dsimp only at h ho
      omega
    | object object' =>
      have hkey : object.key = object'.key := Nat.add_left_cancel h
      simp only [refsOf, Store.object, hkey]

/-- What stands nowhere holds nothing. -/
theorem refsOf_eq_nil (href : store.Sees ref) (h : store.cellCount ≤ store.cell ref) :
    store.refsOf ref = [] := by
  unfold Sees at href
  unfold cellCount cell at h
  cases ref with
  | scope id =>
    dsimp only at h href
    omega
  | object object =>
    have hkey : store.objects.size ≤ object.key := Nat.le_of_add_le_add_left h
    simp only [refsOf, Store.object, Array.getElem?_eq_none hkey]
    rfl

/-! ## Rounds of the search -/

/-- The place is marked. -/
def Marked (marks : Array Bool) (place : Nat) : Prop := marks.getD place false = true

/-- The scope or object is marked, or there is no place to mark. -/
def Covered (store : Store) (marks : Array Bool) (ref : Ref) : Prop :=
  marks.getD (store.cell ref) true = true

variable {marks later : Array Bool}

theorem Marked.covered (h : Marked marks (store.cell ref)) : store.Covered marks ref := by
  unfold Marked at h
  unfold Covered
  rw [Array.getD_eq_getD_getElem?] at h ⊢
  cases hm : marks[store.cell ref]? with
  | none => rfl
  | some mark =>
    rw [hm] at h
    exact h

theorem Covered.marked (h : store.Covered marks ref) (hi : store.cell ref < marks.size) :
    Marked marks (store.cell ref) := by
  unfold Covered at h
  unfold Marked
  rw [Array.getD_eq_getD_getElem?, Array.getElem?_eq_getElem hi] at h ⊢
  exact h

theorem marked_setIfInBounds {place : Nat} (hp : place < marks.size) (index : Nat) :
    Marked (marks.setIfInBounds place true) index ↔ Marked marks index ∨ index = place := by
  unfold Marked
  simp only [Array.getD_eq_getD_getElem?, Array.getElem?_setIfInBounds]
  by_cases heq : place = index
  · simp [heq, heq ▸ hp]
  · simp [heq, Ne.symm heq]

/-- Marking one more place. -/
theorem count_setIfInBounds {place : Nat} (hp : place < marks.size)
    (hf : ¬ marks.getD place true = true) :
    (marks.setIfInBounds place true).count false < marks.count false := by
  have hm : marks[place] = false := by simpa [hp] using hf
  have hmem : false ∈ marks := hm ▸ Array.getElem_mem hp
  have hps := Array.count_pos_iff.mpr hmem
  rw [Array.setIfInBounds, dif_pos hp, Array.count_set]
  simp only [hm]
  simp
  omega

/-- What marking a front does. -/
structure MarksFront (store : Store) (front next : List Ref) (marks : Array Bool)
    (found : List Ref) (later : Array Bool) : Prop where
  size : later.size = marks.size
  kept : ∀ {place}, Marked marks place → Marked later place
  covers : ∀ ref ∈ front, store.Covered later ref
  fresh : ∀ {place}, Marked later place → Marked marks place ∨
    ∃ ref ∈ front, store.cell ref = place ∧ store.refsOf ref ⊆ found
  carried : next ⊆ found
  origin : ∀ other ∈ found, other ∈ next ∨ ∃ ref ∈ front, other ∈ store.refsOf ref
  count : later.count false ≤ marks.count false
  progress : found ≠ next → later.count false < marks.count false

theorem covered_of_size_le (h : marks.size ≤ store.cell ref) : store.Covered marks ref := by
  unfold Covered
  rw [Array.getD_eq_getD_getElem?, Array.getElem?_eq_none h]
  rfl

theorem markFront_marks (store : Store) (front next : List Ref) (marks : Array Bool) :
    store.MarksFront front next marks (store.markFront front next marks).1
      (store.markFront front next marks).2 := by
  induction front generalizing next marks with
  | nil =>
    exact ⟨rfl, id, (fun _ href => nomatch href), .inl, List.Subset.refl _,
      fun _ ho => .inl ho, Nat.le_refl _, fun hne => absurd rfl hne⟩
  | cons ref front ih =>
    unfold markFront
    dsimp only
    split
    · next hcv =>
      have hr := ih next marks
      refine { hr with covers := ?_, fresh := ?_, origin := ?_ }
      · refine List.forall_mem_cons.mpr ⟨?_, hr.covers⟩
        by_cases hi : store.cell ref < marks.size
        · exact (hr.kept (Covered.marked hcv hi)).covered
        · exact covered_of_size_le (hr.size ▸ Nat.le_of_not_lt hi)
      · intro place hp
        rcases hr.fresh hp with hold | ⟨other, ho, hc⟩
        · exact .inl hold
        · exact .inr ⟨other, List.mem_cons_of_mem _ ho, hc⟩
      · intro other ho
        rcases hr.origin other ho with hold | ⟨holder, hhl, hh⟩
        · exact .inl hold
        · exact .inr ⟨holder, List.mem_cons_of_mem _ hhl, hh⟩
    · next hf =>
      have hi : store.cell ref < marks.size := by
        by_contra hot
        exact hf (covered_of_size_le (Nat.le_of_not_lt hot))
      have hm := marked_setIfInBounds hi
      have hcn := count_setIfInBounds hi hf
      have hr := ih (store.refsOf ref ++ next)
        (marks.setIfInBounds (store.cell ref) true)
      have hl := Nat.lt_of_le_of_lt hr.count hcn
      refine ⟨?_, ?_, ?_, ?_, ?_, ?_, Nat.le_of_lt hl, fun _ => hl⟩
      · rw [hr.size, Array.size_setIfInBounds]
      · exact fun hp => hr.kept ((hm _).mpr (.inl hp))
      · refine List.forall_mem_cons.mpr ⟨?_, hr.covers⟩
        exact (hr.kept ((hm _).mpr (.inr rfl))).covered
      · intro place hp
        rcases hr.fresh hp with hold | ⟨other, ho, hc⟩
        · rcases (hm _).mp hold with hold | rfl
          · exact .inl hold
          · refine .inr ⟨ref, List.mem_cons_self, rfl, ?_⟩
            exact List.Subset.trans (List.subset_append_left _ _) hr.carried
        · exact .inr ⟨other, List.mem_cons_of_mem _ ho, hc⟩
      · exact List.Subset.trans (List.subset_append_right _ _) hr.carried
      · intro other ho
        rcases hr.origin other ho with hold | ⟨holder, hhl, hh⟩
        · rcases List.mem_append.mp hold with hh | hold
          · exact .inr ⟨ref, List.mem_cons_self, hh⟩
          · exact .inl hold
        · exact .inr ⟨holder, List.mem_cons_of_mem _ hhl, hh⟩

/-! ## The whole search -/

/-- What can be reached from roots. -/
inductive Reached (store : Store) (roots : List Ref) : Ref → Prop where
  | root {ref : Ref} (mem : ref ∈ roots) : Reached store roots ref
  | through {ref other : Ref} (holder : Reached store roots ref)
      (held : other ∈ store.refsOf ref) : Reached store roots other

theorem Reached.sees (he : store.Enclosed) (hr : ∀ root ∈ roots, store.Sees root)
    (h : store.Reached roots ref) : store.Sees ref := by
  cases h with
  | root hmem => exact hr ref hmem
  | through _ hh => exact he.holds hh

/-- Everything that is marked holds only what is marked or in the front. -/
def MarksSettled (store : Store) (front : List Ref) (marks : Array Bool) : Prop :=
  ∀ ref, store.Sees ref → Marked marks (store.cell ref) →
    ∀ other ∈ store.refsOf ref, other ∈ front ∨ store.Covered marks other

theorem Covered.kept (h : store.Covered marks ref) (hs : later.size = marks.size)
    (hk : ∀ {place}, Marked marks place → Marked later place) : store.Covered later ref := by
  by_cases hi : store.cell ref < marks.size
  · exact (hk (h.marked hi)).covered
  · exact covered_of_size_le (hs ▸ Nat.le_of_not_lt hi)

/-- After a round the front is what the scopes and objects that are new hold. -/
theorem MarksFront.settled {found : List Ref}
    (h : store.MarksFront front [] marks found later) (hfr : ∀ ref ∈ front, store.Sees ref)
    (hs : store.MarksSettled front marks) : store.MarksSettled found later := by
  intro ref href hm other ho
  rcases h.fresh hm with hold | ⟨ref', href', hc, hf⟩
  · right
    rcases hs ref href hold other ho with hw | hcv
    · exact h.covers other hw
    · exact hcv.kept h.size h.kept
  · rw [refsOf_eq_of_cell_eq href (hfr ref' href') hc.symm] at ho
    exact .inl (hf ho)

/-- A search that fails has marked everything that can be reached, and not the target. -/
theorem exists_marks_of_reachesFrom (hen : store.Enclosed) {rounds : Nat}
    (hfr : ∀ ref ∈ front, store.Sees ref) (hs : store.MarksSettled front marks)
    (hb : marks.count false < rounds)
    (h : store.reachesFrom target rounds front marks = false) :
    ∃ later : Array Bool, later.size = marks.size ∧
      (∀ {ref}, store.Covered marks ref → store.Covered later ref) ∧
      (∀ ref ∈ front, store.Covered later ref) ∧ store.MarksSettled [] later ∧
      ¬ Marked later (store.cell target) := by
  induction rounds generalizing front marks with
  | zero => exact absurd hb (Nat.not_lt_zero _)
  | succ rounds ih =>
    have hr := store.markFront_marks front [] marks
    unfold reachesFrom at h
    generalize store.markFront front [] marks = answer at h hr
    obtain ⟨found, later⟩ := answer
    dsimp only at h hr
    have hn := hr.settled hfr hs
    have hk {ref : Ref} (hc : store.Covered marks ref) : store.Covered later ref :=
      hc.kept hr.size hr.kept
    split at h
    · cases h
    · next hm =>
      split at h
      · next he =>
        obtain rfl := List.isEmpty_iff.mp he
        exact ⟨later, hr.size, hk, hr.covers, hn, hm⟩
      · next hmr =>
        have hf : ∀ ref ∈ found, store.Sees ref := by
          intro ref href
          rcases hr.origin ref href with hnn | ⟨holder, -, hh⟩
          · cases hnn
          · exact hen.holds hh
        have hls := hr.progress (fun hnil => hmr (List.isEmpty_iff.mpr hnil))
        obtain ⟨last, hsz, hcv, -, hl, ht⟩ := ih hf hn (by omega) h
        exact ⟨last, hsz.trans hr.size, fun hc => hcv (hk hc),
          fun ref href => hcv (hr.covers ref href), hl, ht⟩

/-- A search that succeeds has found something that can be reached. -/
theorem exists_reached_of_reachesFrom {rounds : Nat}
    (hf : ∀ ref ∈ front, store.Reached roots ref)
    (hm : ∀ {place}, Marked marks place → ∃ ref, store.Reached roots ref ∧
      store.cell ref = place)
    (h : store.reachesFrom target rounds front marks = true) :
    ∃ ref, store.Reached roots ref ∧ store.cell ref = store.cell target := by
  induction rounds generalizing front marks with
  | zero => cases h
  | succ rounds ih =>
    have hr := store.markFront_marks front [] marks
    unfold reachesFrom at h
    generalize store.markFront front [] marks = answer at h hr
    obtain ⟨found, later⟩ := answer
    dsimp only at h hr
    have hl {place : Nat} (hp : Marked later place) :
        ∃ ref, store.Reached roots ref ∧ store.cell ref = place := by
      rcases hr.fresh hp with hold | ⟨ref, href, hc, -⟩
      · exact hm hold
      · exact ⟨ref, hf ref href, hc⟩
    split at h
    · next hfn => exact hl hfn
    · split at h
      · cases h
      · refine ih (fun ref href => ?_) hl h
        rcases hr.origin ref href with hn | ⟨holder, hhl, hh⟩
        · cases hn
        · exact .through (hf holder hhl) hh

theorem not_marked_replicate (count place : Nat) : ¬ Marked (Array.replicate count false) place := by
  unfold Marked
  rw [Array.getD_eq_getD_getElem?, Array.getElem?_replicate]
  split <;> simp

namespace Enclosed

/-- The search finds what can be reached. -/
theorem reaches_iff (h : store.Enclosed) (hr : ∀ root ∈ roots, store.Sees root)
    (ht : store.cell target < store.cellCount) :
    store.reaches roots target = true ↔
      ∃ ref, store.Reached roots ref ∧ store.cell ref = store.cell target := by
  have hn (place : Nat) := not_marked_replicate store.cellCount place
  constructor
  · exact exists_reached_of_reachesFrom (fun _ => .root) fun hp => absurd hp (hn _)
  · rintro ⟨ref, href, hc⟩
    by_contra hf
    obtain ⟨marks, hs, -, hcr, hst, hms⟩ := exists_marks_of_reachesFrom h hr
      (fun _ _ hp => absurd hp (hn _)) (by simp) (Bool.eq_false_iff.mpr hf)
    rw [Array.size_replicate] at hs
    have hcv {ref : Ref} (href : store.Reached roots ref) : store.Covered marks ref := by
      induction href with
      | root hmem => exact hcr _ hmem
      | @through holder other hhl hh ih =>
        have hss := hhl.sees h hr
        by_cases hi : store.cell holder < marks.size
        · exact (hst holder hss (ih.marked hi) other hh).resolve_left (by simp)
        · rw [refsOf_eq_nil hss (hs ▸ Nat.le_of_not_lt hi)] at hh
          cases hh
    have hm := (hcv href).marked (by rw [hs, hc]; exact ht)
    exact hms (hc ▸ hm)

theorem reaches_of_held (h : store.Enclosed) (hr : ∀ root ∈ roots, store.Sees root)
    (href : store.Sees ref) (hh : other ∈ store.refsOf ref)
    (ho : store.cell other < store.cellCount) (hrc : store.reaches roots ref = true) :
    store.reaches roots other = true := by
  have hi : store.cell ref < store.cellCount := by
    by_contra hot
    rw [refsOf_eq_nil href (Nat.le_of_not_lt hot)] at hh
    cases hh
  obtain ⟨holder, hhl, hc⟩ := (h.reaches_iff hr hi).mp hrc
  rw [← refsOf_eq_of_cell_eq (hhl.sees h hr) href hc] at hh
  exact (h.reaches_iff hr ho).mpr ⟨other, .through hhl hh, rfl⟩

end Enclosed

/-! ## Counting holders -/

/-- How many of the references lead to the place. -/
def countAt (store : Store) (place : Nat) (refs : List Ref) : Nat :=
  refs.countP (store.cell · == place)

theorem countAt_cons (store : Store) (place : Nat) (ref : Ref) (refs : List Ref) :
    store.countAt place (ref :: refs)
      = store.countAt place refs + if store.cell ref = place then 1 else 0 := by
  simp [countAt, List.countP_cons]

theorem countAt_append (store : Store) (place : Nat) (refs others : List Ref) :
    store.countAt place (refs ++ others)
      = store.countAt place refs + store.countAt place others := List.countP_append

theorem countAt_pos (h : ref ∈ front) : 0 < store.countAt (store.cell ref) front :=
  List.countP_pos_iff.mpr ⟨ref, h, by simp⟩

theorem countRefs_append (store : Store) (refs others : List Ref) (counts : Array Nat) :
    store.countRefs (refs ++ others) counts
      = store.countRefs others (store.countRefs refs counts) := List.foldl_append

theorem foldl_countRefs {α : Type} (store : Store) (refs : α → List Ref) (items : List α)
    (counts : Array Nat) :
    items.foldl (fun counts item => store.countRefs (refs item) counts) counts
      = store.countRefs (items.flatMap refs) counts := List.foldl_flatMap.symm

theorem size_countRefs (store : Store) (refs : List Ref) (counts : Array Nat) :
    (store.countRefs refs counts).size = counts.size := by
  unfold countRefs
  induction refs generalizing counts with
  | nil => rfl
  | cons ref rest ih => rw [List.foldl_cons, ih, Array.size_modify]

theorem getD_countRefs (store : Store) (refs : List Ref) {counts : Array Nat} {place : Nat}
    (hp : place < counts.size) :
    (store.countRefs refs counts).getD place 0
      = counts.getD place 0 + store.countAt place refs := by
  induction refs generalizing counts with
  | nil => rfl
  | cons ref rest ih =>
    have hs : (counts.modify (store.cell ref) (· + 1)).getD place 0
        = counts.getD place 0 + if store.cell ref = place then 1 else 0 := by
      simp only [Array.getD_eq_getD_getElem?, Array.getElem?_modify]
      split
      · simp [hp]
      · rfl
    rw [countAt_cons]
    refine (ih (by simpa using hp)).trans ?_
    dsimp only
    omega

theorem flatMap_allRefs (store : Store) :
    store.allRefs.flatMap store.refsOf
      = store.scopes.toList.flatMap Scope.refs ++ store.objects.toList.flatMap Object.refs := by
  have hs : store.scopes.toList
      = (List.range store.scopes.size).map fun index => store.scope ⟨index⟩ :=
    List.ext_getElem (by simp) fun index hl _ => by
      have hi : index < store.scopes.size := hl
      simp [Store.scope, hi]
  have ho : store.objects.toList
      = (List.range store.objects.size).map fun key => store.object ⟨key, "", 0⟩ :=
    List.ext_getElem (by simp) fun index hl _ => by
      have hi : index < store.objects.size := hl
      simp [Store.object, hi]
  rw [hs, ho, allRefs, List.flatMap_append]
  simp only [List.flatMap_map, refsOf]

/-- Every reference counts. -/
theorem holderCounts_eq (store : Store) (held : List Ref) :
    store.holderCounts held
      = store.countRefs (held ++ store.classRefs ++ store.allRefs.flatMap store.refsOf)
        (Array.replicate store.cellCount 0) := by
  unfold holderCounts
  dsimp only
  simp only [flatMap_allRefs, countRefs_append, ← Array.foldl_toList, foldl_countRefs]

/-! ## Taking away -/

/-- What is known while things without a holder are taken away: `left` has not been taken away,
and what it holds is counted, and so are `pending` and `held`; everything that is not left has no
holder, nor has what is to be taken away next. -/
structure Peeling (store : Store) (held pending left dead : List Ref) (counts : Array Nat) :
    Prop where
  size : counts.size = store.cellCount
  sees : ∀ ref ∈ left, store.Sees ref
  counted : ∀ place < store.cellCount,
    store.countAt place (pending ++ (left.flatMap store.refsOf ++ held)) ≤ counts.getD place 0
  listed : ∀ place < store.cellCount, counts.getD place 0 ≠ 0 → place ∈ left.map store.cell
  apart : (left.map store.cell).Nodup
  gone : ∀ ref ∈ dead, store.Sees ref ∧ (store.cell ref < store.cellCount →
    counts.getD (store.cell ref) 0 = 0 ∧ store.cell ref ∈ left.map store.cell)
  goneApart : dead.Pairwise fun ref other => store.cell ref < store.cellCount →
    store.cell ref ≠ store.cell other

namespace Peeling

variable {held pending left : List Ref} {counts : Array Nat}

/-- Taking a reference away. -/
theorem drop (h : store.Peeling held (ref :: pending) left dead counts) (href : store.Sees ref) :
    store.Peeling held pending left
      (if counts.getD (store.cell ref) 0 - 1 = 0 then ref :: dead else dead)
      (counts.setIfInBounds (store.cell ref) (counts.getD (store.cell ref) 0 - 1)) := by
  have hr (place : Nat) :
      (counts.setIfInBounds (store.cell ref) (counts.getD (store.cell ref) 0 - 1)).getD place 0
        = if store.cell ref = place then counts.getD place 0 - 1 else counts.getD place 0 := by
    simp only [Array.getD_eq_getD_getElem?, Array.getElem?_setIfInBounds]
    by_cases heq : store.cell ref = place
    · by_cases hi : place < counts.size
      · simp [heq, hi]
      · simp [heq, hi]
    · simp [heq]
  have hc (place : Nat) (hp : place < store.cellCount) :=
    Nat.le_trans (Nat.le_of_eq (countAt_cons store place ref _).symm) (h.counted place hp)
  have hps (hi : store.cell ref < store.cellCount) : 0 < counts.getD (store.cell ref) 0 := by
    have hm := hc _ hi
    rw [if_pos rfl] at hm
    omega
  have hd : ∀ other ∈ dead, store.Sees other ∧ (store.cell other < store.cellCount →
      (counts.setIfInBounds (store.cell ref) (counts.getD (store.cell ref) 0 - 1)).getD
        (store.cell other) 0 = 0 ∧ store.cell other ∈ left.map store.cell) := by
    intro other ho
    obtain ⟨hs, hg⟩ := h.gone other ho
    refine ⟨hs, fun hi => ?_⟩
    obtain ⟨hz, hlf⟩ := hg hi
    refine ⟨?_, hlf⟩
    rw [hr, hz]
    split <;> rfl
  refine ⟨by rw [Array.size_setIfInBounds, h.size], h.sees, ?_, ?_, h.apart, ?_, ?_⟩
  · intro place hp
    have hm := hc place hp
    rw [hr]
    split at hm <;> simp_all
    omega
  · intro place hp hne
    refine h.listed place hp fun hz => hne ?_
    rw [hr, hz]
    split <;> rfl
  · split
    · next hl =>
      refine List.forall_mem_cons.mpr ⟨⟨href, fun hi => ⟨?_, ?_⟩⟩, hd⟩
      · rw [hr, if_pos rfl, hl]
      · exact h.listed _ hi (Nat.ne_of_gt (hps hi))
    · exact hd
  · split
    · refine List.pairwise_cons.mpr ⟨fun other ho hi heq => ?_, h.goneApart⟩
      have hz := ((h.gone other ho).2 (heq ▸ hi)).1
      rw [← heq] at hz
      exact absurd hz (Nat.ne_of_gt (hps hi))
    · exact h.goneApart

theorem dropRefs {refs : List Ref} (h : store.Peeling held refs left dead counts)
    (hr : ∀ ref ∈ refs, store.Sees ref) :
    store.Peeling held [] left (store.dropRefs refs dead counts).1
      (store.dropRefs refs dead counts).2 := by
  induction refs generalizing dead counts with
  | nil => exact h
  | cons ref rest ih =>
    obtain ⟨href, hrs⟩ := List.forall_mem_cons.mp hr
    unfold Store.dropRefs
    exact ih (h.drop href) hrs

/-- Taking away something without a holder. -/
theorem takeAway (h : store.Peeling held [] left (ref :: dead) counts) :
    ∃ rest, store.Peeling held (store.refsOf ref) rest dead counts := by
  obtain ⟨⟨hs, hg⟩, hd⟩ := List.forall_mem_cons.mp h.gone
  obtain ⟨hsl, hap⟩ := List.pairwise_cons.mp h.goneApart
  by_cases hi : store.cell ref < store.cellCount
  · obtain ⟨hz, hl⟩ := hg hi
    obtain ⟨other, ho, hc⟩ := List.mem_map.mp hl
    have hpr := List.perm_cons_erase ho
    have hsm := refsOf_eq_of_cell_eq hs (h.sees other ho) hc.symm
    have hcl : (left.map store.cell).Perm (store.cell ref :: (left.erase other).map store.cell) :=
      hc ▸ hpr.map store.cell
    have hk {place : Nat} (hp : place ∈ left.map store.cell)
        (hne : place ≠ store.cell ref) : place ∈ (left.erase other).map store.cell :=
      (List.mem_cons.mp (hcl.mem_iff.mp hp)).resolve_left hne
    refine ⟨left.erase other, h.size, ?_, ?_, ?_, ?_, ?_, hap⟩
    · exact fun found hf => h.sees found (List.mem_of_mem_erase hf)
    · intro place hp
      have hcn := ((hpr.flatMap_right store.refsOf).append_right held).countP_eq
        (store.cell · == place)
      rw [List.flatMap_cons, ← hsm, List.append_assoc] at hcn
      exact Nat.le_trans (Nat.le_of_eq hcn.symm) (h.counted place hp)
    · intro place hp hne
      refine hk (h.listed place hp hne) ?_
      rintro rfl
      exact hne hz
    · exact (List.nodup_cons.mp (hcl.nodup_iff.mp h.apart)).2
    · intro found hf
      obtain ⟨hfs, hfg⟩ := hd found hf
      refine ⟨hfs, fun hfi => ?_⟩
      obtain ⟨hfz, hfl⟩ := hfg hfi
      exact ⟨hfz, hk hfl (Ne.symm (hsl found hf hi))⟩
  · rw [refsOf_eq_nil hs (Nat.le_of_not_lt hi)]
    exact ⟨left, { h with gone := hd, goneApart := hap }⟩

theorem peel (he : store.Enclosed) (h : store.Peeling held [] left dead counts) (steps : Nat) :
    ∃ rest last, store.Peeling held [] rest last (store.peel steps dead counts) := by
  induction steps generalizing left dead counts with
  | zero => exact ⟨left, dead, h⟩
  | succ steps ih =>
    cases dead with
    | nil => exact ⟨left, [], h⟩
    | cons ref dead =>
      obtain ⟨rest, hr⟩ := h.takeAway
      exact ih (hr.dropRefs fun other ho => he.holds ho)

end Peeling

theorem cells_allRefs (store : Store) :
    store.allRefs.map store.cell = List.range store.cellCount := by
  unfold allRefs cellCount
  rw [List.range_add, List.map_append, List.map_map, List.map_map]
  simp [cell, Function.comp_def]

/-- Before anything is taken away. -/
theorem peeling_start (store : Store) (held : List Ref) :
    store.Peeling held [] store.allRefs
      (store.allRefs.filter fun ref => (store.holderCounts held).getD (store.cell ref) 0 == 0)
      (store.holderCounts held) := by
  have hs : ∀ ref ∈ store.allRefs, store.Sees ref := by
    intro ref href
    unfold allRefs at href
    simp only [List.mem_append, List.mem_map, List.mem_range] at href
    rcases href with ⟨index, hin, rfl⟩ | ⟨key, -, rfl⟩
    · exact hin
    · trivial
  have hi {place : Nat} : place ∈ store.allRefs.map store.cell ↔ place < store.cellCount := by
    rw [cells_allRefs, List.mem_range]
  have hap : (store.allRefs.map store.cell).Nodup := by
    rw [cells_allRefs]
    exact List.nodup_range
  refine ⟨?_, hs, ?_, fun place hp _ => hi.mpr hp, hap, ?_, ?_⟩
  · rw [holderCounts_eq, size_countRefs, Array.size_replicate]
  · intro place hp
    rw [holderCounts_eq, getD_countRefs _ _ (by simpa using hp), List.nil_append]
    simp only [countAt_append]
    omega
  · intro ref href
    obtain ⟨hmem, hz⟩ := List.mem_filter.mp href
    exact ⟨hs ref hmem, fun hp => ⟨by simpa using hz, hi.mpr hp⟩⟩
  · refine List.Pairwise.filter _ ?_
    refine (List.pairwise_map.mp hap).imp ?_
    exact fun hne _ => hne

namespace Enclosed

theorem remains_of_held (h : store.Enclosed) {held : List Ref} (href : store.Sees ref)
    (hh : other ∈ store.refsOf ref) (ho : store.cell other < store.cellCount)
    (hr : store.remains held ref = true) : store.remains held other = true := by
  have hi : store.cell ref < store.cellCount := by
    by_contra hot
    rw [refsOf_eq_nil href (Nat.le_of_not_lt hot)] at hh
    cases hh
  obtain ⟨left, dead, hp⟩ := (peeling_start store held).peel h store.cellCount
  unfold remains at hr ⊢
  rw [bne_iff_ne] at hr ⊢
  obtain ⟨holder, hhl, hc⟩ := List.mem_map.mp (hp.listed _ hi hr)
  rw [← refsOf_eq_of_cell_eq (hp.sees holder hhl) href hc] at hh
  have hmem : other ∈ left.flatMap store.refsOf ++ held :=
    List.mem_append_left _ (List.mem_flatMap.mpr ⟨holder, hhl, hh⟩)
  exact Nat.ne_of_gt (Nat.lt_of_lt_of_le (countAt_pos hmem) (hp.counted _ ho))

theorem remains_of_mem (h : store.Enclosed) {held : List Ref} (hh : ref ∈ held)
    (hi : store.cell ref < store.cellCount) : store.remains held ref = true := by
  obtain ⟨left, dead, hp⟩ := (peeling_start store held).peel h store.cellCount
  unfold remains
  rw [bne_iff_ne]
  have hmem : ref ∈ left.flatMap store.refsOf ++ held := List.mem_append_right _ hh
  exact Nat.ne_of_gt (Nat.lt_of_lt_of_le (countAt_pos hmem) (hp.counted _ hi))

/-- What something alive holds is alive. -/
theorem alive_of_held (h : store.Enclosed) {held : Held} (hhl : ∀ ref ∈ held (), store.Sees ref)
    (href : store.Sees ref) (hh : other ∈ store.refsOf ref)
    (ho : store.cell other < store.cellCount) (hal : store.alive held ref = true) :
    store.alive held other = true := by
  unfold alive at hal ⊢
  simp only [Bool.or_eq_true] at hal ⊢
  rcases hal with (hc | hrt) | hr
  · exact .inl (.inl (h.reaches_of_held h.classes href hh ho hc))
  · exact .inl (.inr (h.reaches_of_held hhl href hh ho hrt))
  · exact .inr (h.remains_of_held href hh ho hr)

/-- What an object holds is alive while the object is held from outside. -/
theorem alive_of_object (h : store.Enclosed) {held : Held} {object : ObjectRef}
    (ho : .object object ∈ held ()) (hh : other ∈ (store.object object).refs)
    (hot : store.cell other < store.cellCount) : store.alive held other = true := by
  have hi : store.cell (.object object) < store.cellCount := by
    refine Nat.add_lt_add_left ?_ store.scopes.size
    by_contra hos
    unfold Store.object at hh
    rw [Array.getElem?_eq_none (Nat.le_of_not_lt hos)] at hh
    cases hh
  have hr := h.remains_of_held (show store.Sees (.object object) from trivial) hh hot
    (h.remains_of_mem ho hi)
  unfold alive
  rw [hr, Bool.or_true]

end Enclosed

end StepScript.Store
