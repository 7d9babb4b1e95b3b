import StepScript.Proofs.Phases.Reached
set_option autoImplicit false

/-!
# Constructions on the stack

A construction that has given work away stands below the frame that does the work, and one that
has given none away is on top.  The construction of a behaviour ends with its object.  So what a
construction waits for is what it is resumed with (`Machine.Orderly`).
-/

namespace StepScript

variable {σ τ : Type} {root : ScopeId} {store : Store} {held : Held}

/-! ## Work that is given away -/

/-- A construction that is given away has done nothing, and its object is a new one. -/
def Work.IsFresh (known : Nat) (store : Store) : Work → Prop
  | .construct begun =>
    begun.current = none ∧ known ≤ begun.object.key ∧ begun.object.key < store.objects.size
  | .node .. | .call _ | .native .. => True

/-- The work is that of the step. -/
def ConstructionStep.Gives (known : Nat) (store : Store) (step : ConstructionStep) (work : Work) :
    Prop :=
  work.IsFresh known store ∧ ∀ scope behaviour, step = .behaviour scope behaviour →
    ∃ begun, work = .construct begun ∧ begun.object.typeName = behaviour.name

/-! ## Constructions -/

namespace Construction

/-- How a resumed construction goes on. -/
inductive Flows (known : Nat) (object : ObjectRef) : Resumed Construction → Prop where
  | gives {steps : List ConstructionStep} {store : Store} :
      Flows known object ⟨{ object, steps }, store, .ok (.give (.object object))⟩
  | fails {construction : Construction} {store : Store} {error : Error}
      (of : construction.object = object) : Flows known object ⟨construction, store, .error error⟩
  | pushes {step : ConstructionStep} {steps : List ConstructionStep} {store : Store} {work : Work}
      (gives : step.Gives known store work) :
      Flows known object ⟨{ object, current := some step, steps }, store, .ok (.push work)⟩
  | pauses {steps : List ConstructionStep} {store : Store} :
      Flows known object ⟨{ object, steps }, store, .ok .yield⟩

namespace Flows

variable {known : Nat} {object : ObjectRef} {resumed : Resumed Construction}

variable (h : Flows known object resumed)

include h

theorem object_eq : resumed.frame.object = object := by
  cases h with
  | fails hof => exact hof
  | _ => rfl

theorem pushed {work : Work} (hf : resumed.flow = .ok (.push work)) :
    ∃ step, resumed.frame.current = some step ∧ step.Gives known resumed.store work := by
  cases h with
  | pushes hg =>
    cases hf
    exact ⟨_, rfl, hg⟩
  | _ => cases hf

theorem given {outcome : Outcome} (hf : resumed.flow = .ok (.done outcome)) :
    outcome = .value (.object object) := by
  cases h with
  | gives =>
    cases hf
    rfl
  | _ => cases hf

theorem paused (hf : resumed.flow = .ok .yield ∨ resumed.flow = .ok .wait) :
    resumed.frame.current = none := by
  cases h with
  | pauses => rfl
  | _ => rcases hf with hf | hf <;> cases hf

end Flows

theorem proceed_flows {known : Nat} (held : Held) (object : ObjectRef)
    (steps : List ConstructionStep) (store : Store) (hk : known ≤ store.objects.size) :
    Flows known object (proceed held object steps store) := by
  fun_induction proceed held object steps store with
  | case1 => exact .gives
  | case2 => exact .pushes ⟨trivial, by rintro _ _ ⟨⟩⟩
  | case3 _ _ _ _ _ _ ih => exact ih hk
  | case4 => exact .pushes ⟨trivial, by rintro _ _ ⟨⟩⟩
  | case5 _ _ _ _ _ ih => exact ih hk
  | case6 => exact .fails rfl
  | case7 scope behaviour steps store construction later heq =>
    rcases ofBehaviour_cases store held behaviour object with ⟨_, he⟩ | ⟨_, _, hbg, hb⟩
    · cases he.symm.trans heq
    · obtain ⟨hs, rfl⟩ := Prod.mk.inj (hbg.symm.trans heq)
      obtain rfl := Except.ok.inj hs
      obtain ⟨binding, outer, -, -, hnew, hm, hn⟩ := hb.begun
      refine .pushes ⟨⟨by rw [hnew], ?_, ?_⟩, fun _ _ hst => ?_⟩
      · rw [hm.key]
        exact hk
      · rw [hm.key, hm.objects, Array.size_push]
        exact Nat.lt_succ_self _
      · cases hst
        exact ⟨_, rfl, hn⟩
  | case8 => exact .pushes ⟨trivial, by rintro _ _ ⟨⟩⟩
  | case9 => exact .pauses
  | case10 steps store ih =>
    have hr : Store.Changes ⟨0⟩ (some object) store (register store held object) :=
      .single (.register held rfl)
    exact ih (Nat.le_trans hk (Store.Changes.unfolds hr).known)

theorem resume_flows (construction : Construction) (store : Store) (held : Held)
    (incoming : Option Outcome) :
    Flows store.objects.size construction.object (construction.resume store held incoming) := by
  unfold resume
  split
  · exact proceed_flows _ _ _ _ (Nat.le_refl _)
  · next outcome =>
    have hk : store.objects.size
        = (receive store construction.object construction.current outcome).2.objects.size := by
      unfold receive
      repeat' split
      all_goals simp [Store.setOwn, Store.attach, Store.modifyScope, Store.modifyObject]
    split
    · exact .fails rfl
    · next heq =>
      rw [heq] at hk
      exact proceed_flows _ _ _ _ (Nat.le_of_eq hk)

end Construction

/-! ## Frames -/

namespace Frame

theorem own_eq_some {frame : Frame τ} {object : ObjectRef} :
    frame.own = some object ↔ ∃ begun, frame = .construct begun ∧ begun.object = object := by
  cases frame <;> simp [own]

/-- How a resumed frame goes on. -/
structure Goes (known : Nat) (frame : Frame τ) (resumed : Resumed σ τ) : Prop where
  own : resumed.frame.own = frame.own
  fresh : ∀ work, resumed.flow = .ok (.push work) → work.IsFresh known resumed.world.store
  flows : ∀ begun, resumed.frame = .construct begun →
    Construction.Flows known begun.object ⟨begun, resumed.world.store, resumed.flow⟩

theorem resume_goes {host : Host σ τ} {frame : Frame τ} {world : World σ}
    (hp : world.store.InPlace root) (held : Held) (incoming : Option Outcome) :
    frame.Goes world.store.objects.size (frame.resume host held world incoming) := by
  have hfr {flow : Except Error Flow} {later : Store}
      (h : ∀ begun, flow = .ok (.push (.construct begun)) →
        Work.IsFresh world.store.objects.size later (.construct begun))
      (work : Work) (hf : flow = .ok (.push work)) :
      work.IsFresh world.store.objects.size later := by
    cases work with
    | construct begun => exact h begun hf
    | _ => trivial
  cases frame with
  | node frame =>
    refine ⟨rfl, hfr fun begun hf => ?_, fun _ heq => nomatch heq⟩
    obtain ⟨id, args, hid, hb⟩ := NodeFrame.construct_of_resume hp hf
    obtain ⟨plan, hnew, hkey, -, hft⟩ := Construction.ofClass_fits hp hid hb
    exact ⟨by rw [hnew], Nat.le_of_eq hkey.symm, hft.key_lt⟩
  | start begun =>
    refine ⟨rfl, hfr fun other hf => ?_, fun _ heq => nomatch heq⟩
    exact absurd hf (begun.resume_ne_construct _ _ _ other)
  | call begun =>
    refine ⟨rfl, hfr fun other hf => ?_, fun _ heq => nomatch heq⟩
    exact absurd hf (begun.resume_ne_construct _ _ other)
  | native function scope task =>
    obtain ⟨next, hfm, hf⟩ := resumeNative_pushes_nothing host held world function scope task
    refine ⟨(congrArg own hfm).trans rfl, fun work hw => absurd hw (hf work), ?_⟩
    exact fun _ heq => nomatch hfm.symm.trans heq
  | construct begun =>
    have hfl := begun.resume_flows world.store held incoming
    have ho := hfl.object_eq
    refine ⟨congrArg some ho, fun work hw => ?_, fun other heq => ?_⟩
    · obtain ⟨step, -, hg⟩ := hfl.pushed hw
      exact hg.1
    · obtain rfl := Frame.construct.inj heq
      rw [← ho] at hfl
      exact hfl

/-- The frame `lower` waits for the work of the frame above it. -/
def Under (upper lower : Frame τ) : Prop :=
  ∀ begun, lower = .construct begun → ∃ step, begun.current = some step ∧
    ∀ scope behaviour, step = .behaviour scope behaviour →
      ∃ object, upper.own = some object ∧ object.typeName = behaviour.name

theorem Goes.isChain {known : Nat} {frame : Frame τ} {resumed : Resumed σ τ}
    (h : frame.Goes known resumed) {below : List (Frame τ)} (hc : (frame :: below).IsChain Under) :
    (resumed.frame :: below).IsChain Under := by
  rw [List.isChain_cons] at hc ⊢
  refine ⟨fun lower hl begun heq => ?_, hc.2⟩
  rw [h.own]
  exact hc.1 lower hl begun heq

end Frame

/-! ## Machines -/

namespace Machine

variable {resumed : Frame.Resumed σ τ} {below : Stack τ} {bound : Nat}

/-- The frames and the outcome that a machine goes on with after a frame has been resumed. -/
inductive Stands (resumed : Frame.Resumed σ τ) (below : List (Frame τ)) :
    List (Frame τ) → Option Outcome → Prop where
  | pushed {work : Work} (flow : resumed.flow = .ok (.push work)) :
      Stands resumed below (.ofWork work :: resumed.frame :: below) none
  | popped {outcome : Outcome} (flow : resumed.flow = .ok (.done outcome)) :
      Stands resumed below below (some outcome)
  | paused (flow : resumed.flow = .ok .yield ∨ resumed.flow = .ok .wait) :
      Stands resumed below (resumed.frame :: below) none

theorem follow_stands (resumed : Frame.Resumed σ τ) (below : Stack τ) :
    (follow resumed below).standing = [] ∨ ∃ machine, (follow resumed below).standing = [machine] ∧
      Stands resumed below.frames machine.stack.frames machine.incoming := by
  obtain ⟨frame, world, flow⟩ := resumed
  unfold follow
  match flow with
  | .error error => exact .inl rfl
  | .ok (.push work) =>
    dsimp only
    split
    · exact .inl rfl
    · exact .inr ⟨_, rfl, .pushed rfl⟩
  | .ok (.done outcome) =>
    dsimp only
    split
    · split <;> exact .inl rfl
    · exact .inr ⟨_, rfl, .popped rfl⟩
  | .ok .yield => exact .inr ⟨_, rfl, .paused (.inl rfl)⟩
  | .ok .wait => exact .inr ⟨_, rfl, .paused (.inr rfl)⟩

/-- Constructions that have given work away wait for it, and all objects that are being constructed
are in the store. -/
structure Orderly (bound : Nat) (machine : Machine τ) : Prop where
  waits : ∀ begun, machine.stack.frames.head? = some (.construct begun) →
    begun.Waits bound machine.incoming
  under : machine.stack.frames.IsChain Frame.Under
  known : ∀ frame ∈ machine.stack.frames, ∀ object, frame.own = some object → object.key < bound

theorem Orderly.mono {machine : Machine τ} (h : machine.Orderly bound) {more : Nat}
    (hm : bound ≤ more) : machine.Orderly more := by
  refine ⟨fun begun hb => ?_, h.under, fun frame hf object ho => ?_⟩
  · have hw := h.waits begun hb
    cases hi : machine.incoming with
    | none =>
      rw [hi] at hw
      exact hw
    | some outcome =>
      rw [hi] at hw
      obtain ⟨step, hs, had⟩ := hw
      refine ⟨step, hs, fun scope behaviour added hbh hot => ?_⟩
      obtain ⟨hn, hk⟩ := had scope behaviour added hbh hot
      exact ⟨hn, Nat.lt_of_lt_of_le hk hm⟩
  · exact Nat.lt_of_lt_of_le (h.known frame hf object ho) hm

/-- A machine that has resumed the frame on top is in order again. -/
theorem Orderly.stands {machine next : Machine τ} {frame : Frame τ}
    (h : machine.Orderly bound) (hfm : machine.stack.frames = frame :: below.frames)
    (hg : frame.Goes bound resumed) (hbn : bound ≤ resumed.world.store.objects.size)
    (hst : Stands resumed below.frames next.stack.frames next.incoming) :
    next.Orderly resumed.world.store.objects.size := by
  obtain ⟨-, hu, hk⟩ := h.mono hbn
  rw [hfm] at hu hk
  obtain ⟨⟨frames, depth⟩, incoming⟩ := next
  have htop := hk frame List.mem_cons_self
  have hbl := fun lower hl => hk lower (List.mem_cons_of_mem frame hl)
  rw [← hg.own] at htop
  have hc := hg.isChain hu
  cases hst with
  | pushed hf =>
    have hfr := hg.fresh _ hf
    refine ⟨fun begun hb => ?_, List.isChain_cons_cons.mpr ⟨fun begun hb => ?_, hc⟩,
      List.forall_mem_cons.mpr ⟨fun object ho => ?_, List.forall_mem_cons.mpr ⟨htop, hbl⟩⟩⟩
    · obtain rfl := Frame.ofWork_eq_construct (Option.some.inj hb)
      exact hfr.1
    · obtain ⟨step, hcr, -, hgv⟩ := (hg.flows begun hb).pushed hf
      refine ⟨step, hcr, fun scope behaviour hs => ?_⟩
      obtain ⟨other, rfl, hn⟩ := hgv scope behaviour hs
      exact ⟨other.object, rfl, hn⟩
    · obtain ⟨begun, hb, rfl⟩ := Frame.own_eq_some.mp ho
      obtain rfl := Frame.ofWork_eq_construct hb
      exact hfr.2.2
  | popped hf =>
    refine ⟨fun begun hb => ?_, hc.tail, hbl⟩
    obtain ⟨step, hcr, hw⟩ := (List.isChain_cons.mp hc).1 _ hb begun rfl
    refine ⟨step, hcr, fun scope behaviour added hs hoc => ?_⟩
    obtain ⟨object, ho, hn⟩ := hw scope behaviour hs
    obtain ⟨other, hot, rfl⟩ := Frame.own_eq_some.mp ho
    cases hoc.symm.trans ((hg.flows other hot).given hf)
    exact ⟨hn, htop _ ho⟩
  | paused hf =>
    refine ⟨fun begun hb => ?_, hc, List.forall_mem_cons.mpr ⟨htop, hbl⟩⟩
    exact (hg.flows begun (Option.some.inj hb)).paused hf

/-- A machine that makes a move is in order again. -/
theorem Orderly.move {machine : Machine τ} {world : World σ}
    (h : machine.Orderly world.store.objects.size) (host : Host σ τ)
    (hp : world.store.InPlace root) (outside : Held)
    (hg : world.store.objects.size
      ≤ (machine.move host outside world).world.store.objects.size) :
    ∀ next ∈ (machine.move host outside world).standing,
      next.Orderly (machine.move host outside world).world.store.objects.size := by
  rcases move_cases host outside machine world with hm | ⟨frame, below, hf, hm⟩
  · rw [hm]
    exact fun _ hn => absurd hn List.not_mem_nil
  · rw [hm, follow_world] at hg ⊢
    have hgs : frame.Goes world.store.objects.size (frame.resume host
        (fun _ => outside () ++ machine.refs host) world machine.incoming) :=
      Frame.resume_goes hp _ _
    generalize frame.resume host (fun _ => outside () ++ machine.refs host) world machine.incoming
      = resumed at hgs hg ⊢
    intro next hn
    rcases follow_stands resumed below with hnn | ⟨other, ho, hs⟩
    · rw [hnn] at hn
      cases hn
    · rw [ho] at hn
      obtain rfl := List.mem_singleton.mp hn
      exact h.stands hf hgs hg hs

end Machine

/-! ## Systems -/

namespace System

variable {host : Host σ τ} {system next : System σ τ} {moves : List (Move σ τ)}

/-- The store and the machines are in order. -/
structure Orderly (system : System σ τ) : Prop where
  store : system.store.Orderly system.program.root
  machines : ∀ machine ∈ system.running, machine.Orderly system.store.objects.size

/-- What happens to the store, and the object that is being constructed by it. -/
theorem Happens.continues {move : Option (Move σ τ)} (hh : Happens host system move next)
    (hp : system.InPlace) :
    system.store.Continues system.program.root (move.bind fun made => made.machine.own)
      next.store := by
  have hrg := hp.inOrder.registered
  have hrt := hrg.grounded.isRoot
  have hr : system.store.Continues system.program.root none system.store :=
    (Store.Evolves.refl _).continues _ (.refl none _)
  cases hh with
  | unit files => exact Store.continues_addUnit none hrg files
  | begin => exact hr
  | call => exact hr
  | @move before after machine outside running covers =>
    have hm : machine ∈ system.running := running ▸ List.mem_append_right before List.mem_cons_self
    obtain ⟨hc, -⟩ := Machine.move_changes host hp.store
      (hp.inOrder.machines machine hm).starts (hp.machines machine hm) outside
    exact hc.continues hrt
  | drop => exact hr
  | endFrame => exact (system.program.endFrame_changes system.store).continues hrt
  | surroundings => exact hr

end System

end StepScript
