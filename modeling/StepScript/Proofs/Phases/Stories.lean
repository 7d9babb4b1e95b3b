import StepScript.Proofs.Phases.Stacks
set_option autoImplicit false

/-!
# What becomes of an instance

The chronicle of a history tells about an object that its construction has begun, which steps have
been done, and that it has been given back (`Story`).  Each move adds to the story of the object
that is constructed on top of the stack, and to no other (`Story.resumed`).
-/

namespace StepScript

variable {σ τ : Type} {root : ScopeId} {key : Nat}

/-! ## Constructions that go on -/

/-- The construction of the object with the key. -/
def Frame.building (key : Nat) : Frame τ → Option Construction
  | .construct begun => if begun.object.key = key then some begun else none
  | .node _ | .start _ | .call _ | .native .. => none

/-- The constructions of the object with the key among the frames. -/
def building (key : Nat) (frames : List (Frame τ)) : List Construction :=
  frames.filterMap (Frame.building key)

/-- The constructions of the object with the key that the machines work on. -/
def System.building (key : Nat) (system : System σ τ) : List Construction :=
  system.running.flatMap fun machine => StepScript.building key machine.stack.frames

theorem Frame.building_eq_none {frame : Frame τ}
    (h : ∀ object, frame.own = some object → object.key ≠ key) : frame.building key = none := by
  cases frame with
  | construct begun => exact if_neg (h begun.object rfl)
  | _ => rfl

theorem building_cons_of_none {frame : Frame τ} (h : frame.building key = none)
    (below : List (Frame τ)) : building key (frame :: below) = building key below :=
  List.filterMap_cons_none h

theorem building_cons_construct {begun : Construction} (h : begun.object.key = key)
    (below : List (Frame τ)) :
    building key (.construct begun :: below) = begun :: building key below :=
  List.filterMap_cons_some (if_pos h)

/-- What is left on the stack of a machine after a frame has been resumed. -/
def Machine.Remains (resumed : Frame.Resumed σ τ) (below : List (Frame τ))
    (left : List (Frame τ)) : Prop :=
  left = [] ∨ ∃ incoming, Stands resumed below left incoming

theorem Machine.exists_remains (key : Nat) (resumed : Frame.Resumed σ τ) (below : Stack τ) :
    ∃ left, ((follow resumed below).standing.flatMap fun machine =>
      building key machine.stack.frames) = building key left ∧ Remains resumed below.frames left := by
  rcases follow_stands resumed below with hn | ⟨machine, hm, hs⟩
  · exact ⟨[], by rw [hn]; rfl, .inl rfl⟩
  · exact ⟨machine.stack.frames, by rw [hm, List.flatMap_singleton], .inr ⟨_, hs⟩⟩

/-- Objects that were there before are constructed by frames that were there before. -/
theorem Machine.Remains.sublist {known : Nat} {frame : Frame τ} {resumed : Frame.Resumed σ τ}
    {below left : List (Frame τ)} (h : Remains resumed below left)
    (hg : frame.Goes known resumed) (hkey : key < known) :
    (building key left).Sublist (building key (resumed.frame :: below)) := by
  rcases h with rfl | ⟨incoming, hs⟩
  · exact List.nil_sublist _
  cases hs with
  | pushed hf =>
    have hfr := hg.fresh _ hf
    rw [building_cons_of_none]
    refine Frame.building_eq_none fun object ho => ?_
    obtain ⟨begun, hb, rfl⟩ := Frame.own_eq_some.mp ho
    obtain rfl := Frame.ofWork_eq_construct hb
    exact Nat.ne_of_gt (Nat.lt_of_lt_of_le hkey hfr.2.1)
  | popped => exact (List.sublist_cons_self ..).filterMap _
  | paused => exact List.Sublist.refl _

/-- A machine with frames resumes the one on top. -/
theorem Machine.move_of_cons (host : Host σ τ) (outside : Held) (world : World σ)
    {machine : Machine τ} {frame : Frame τ} {rest : List (Frame τ)}
    (h : machine.stack.frames = frame :: rest) :
    ∃ below, below.frames = rest ∧ machine.move host outside world
      = follow (frame.resume host (fun _ => outside () ++ machine.refs host) world machine.incoming)
          below := by
  obtain ⟨⟨frames, depth, hd⟩, incoming, result⟩ := machine
  obtain rfl : frames = frame :: rest := h
  exact ⟨⟨rest, depth - 1, by simp_all⟩, rfl, rfl⟩

/-! ## Stories -/

/-- The construction of the instance begins with the event. -/
structure Event.Begins (event : Event) (task : Construction.Task) : Prop where
  object : event.object = task.object
  deed : event.deed = .begins
  made : ∃ held, Construction.ofClass event.before held task.id task.args
    = (.ok { object := task.object, steps := task.plan.steps }, event.after)

/-- What the chronicle tells about the object with the key, while `going` are the constructions of
it that go on. -/
inductive Story (key : Nat) (root : ScopeId) (store : Store) (going : List Construction) :
    List Event → Prop where
  /-- There is no such object yet. -/
  | unborn (new : store.objects.size ≤ key) : Story key root store going []
  /-- The object is no instance. -/
  | other {log : List Event} (known : key < store.objects.size)
      (never : ∀ event ∈ log, event.deed ≠ .begins) : Story key root store going log
  /-- The construction goes on, or it has failed or been dropped. -/
  | unfinished {task : Construction.Task} {first : Event} {events : List Event}
      {done rest : List ConstructionStep} {current : Option ConstructionStep}
      (of : task.object.key = key) (begins : first.Begins task)
      (reached : task.Reached root store done current rest events)
      (left : current.toList ++ rest ≠ []) (only : going.Sublist [⟨task.object, current, rest⟩]) :
      Story key root store going (first :: events)
  /-- The construction has finished. -/
  | finished {task : Construction.Task} {first last : Event} {events : List Event}
      (of : task.object.key = key) (begins : first.Begins task)
      (reached : task.Reached root store task.plan.steps none [] events)
      (finishes : last.object = task.object ∧ last.deed = .finishes) (gone : going = []) :
      Story key root store going (first :: (events ++ [last]))

/-- A construction makes events of its object only, and it has begun before. -/
theorem Construction.events_of (construction : Construction) (store : Store) (held : Held)
    (incoming : Option Outcome) :
    ∀ event ∈ construction.events store held incoming,
      event.object = construction.object ∧ event.deed ≠ .begins := by
  have hs (steps : List ConstructionStep) (store : Store) :
      ∀ event ∈ stepEvents held construction.object steps store,
        event.object = construction.object ∧ event.deed ≠ .begins := by
    fun_induction stepEvents held construction.object steps store <;> simp_all
  unfold events
  split
  · exact hs _ _
  · split
    · simp
    · simpa [or_imp, forall_and] using hs _ _

theorem NodeFrame.events_cases (frame : NodeFrame) (store : Store) (held : Held)
    (incoming : Option Outcome) :
    frame.events store held incoming = [] ∨
      ∃ begun, (frame.resume store held incoming).flow = .ok (.push (.construct begun)) ∧
        frame.events store held incoming
          = [⟨begun.object, .begins, store, (frame.resume store held incoming).store⟩] := by
  unfold events
  split
  · next heq => exact .inr ⟨_, by rw [heq], by rw [heq]⟩
  · exact .inl rfl

namespace Story

variable {own : Option ObjectRef} {store later : Store} {going others : List Construction}
  {log : List Event}

/-- Nothing is told about an object that is not there. -/
theorem eq_nil (h : Story key root store going log) (hnew : store.objects.size ≤ key) :
    log = [] := by
  cases h with
  | unborn => rfl
  | other hk => exact absurd hk (Nat.not_lt_of_le hnew)
  | unfinished hof _ hr => exact absurd hr.fits.key_lt (Nat.not_lt_of_le (hof ▸ hnew))
  | finished hof _ hr => exact absurd hr.fits.key_lt (Nat.not_lt_of_le (hof ▸ hnew))

/-- What happens beside the construction of an object adds nothing to its story. -/
theorem continued (h : Story key root store going log) (hs : store.Orderly root)
    (hc : store.Continues root own later)
    (hap : ∀ object, own = some object → object.key ≠ key)
    (hf : key < store.objects.size → others.Sublist going) :
    Story key root later others log := by
  cases h with
  | unborn hnew =>
    by_cases hbr : key < later.objects.size
    · exact .other hbr (List.forall_mem_nil _)
    · exact .unborn (Nat.le_of_not_lt hbr)
  | other hk hn => exact .other (Nat.lt_of_lt_of_le hk hc.unfolds.known) hn
  | unfinished hof hb hr hl ho =>
    subst hof
    exact .unfinished rfl hb (hr.continued hs hc hap) hl
      ((hf hr.fits.key_lt).trans ho)
  | finished hof hb hr hfn hg =>
    subst hof
    exact .finished rfl hb (hr.continued hs hc hap) hfn
      (List.eq_nil_of_sublist_nil (hg ▸ hf hr.fits.key_lt))

/-- The construction of an instance begins. -/
theorem begins (hs : store.Orderly root) {id : ClassId} (hid : id.index < store.classes.size)
    {held : Held} {args : List Constant} {begun : Construction}
    (hb : Construction.ofClass store held id args = (.ok begun, later))
    (hkey : begun.object.key = key) (ho : going.Sublist [begun]) :
    Story key root later going [⟨begun.object, .begins, store, later⟩] := by
  obtain ⟨plan, hp, hnew, hn, hf⟩ := Construction.ofClass_fits hs.place hid hb
  have hu := Store.Unfolds.ofClass none store held id args
  rw [hb] at hu
  have hr : Construction.Task.Reached ⟨begun.object, id, args, plan⟩ root later [] none
      plan.steps [] :=
    { fits := hf
      split := rfl
      performs := .nothing
      bound := List.forall_mem_nil _
      names := by rw [hn]; rfl
      knows := by rw [hn]; exact List.forall_mem_nil _
      unregistered := fun _ order => by
        rw [hu.updates (Store.apart_none _)]
        exact hs.books _ (Nat.le_of_eq hnew.symm) order
      registered := fun hd => absurd hd List.not_mem_nil }
  obtain ⟨work, hst, -⟩ := plan.steps_eq
  refine .unfinished hkey ⟨rfl, rfl, held, by rw [hb, ← hp]⟩ hr ?_ (hp ▸ ho)
  rw [hst]
  simp

/-- A construction that goes on adds to the story of its instance. -/
theorem goesOn {task : Construction.Task} {first : Event} {events more : List Event}
    {resumed : Resumed Construction} {context : Context σ} {known : Nat} {frame : Frame τ}
    {below left : List (Frame τ)} (hof : task.object.key = key) (hb : first.Begins task)
    (hgo : task.GoesOn root events resumed more) (hkey : key < known)
    (hg : frame.Goes known ⟨.construct resumed.frame, ⟨resumed.store, context⟩, resumed.flow⟩)
    (hrm : Machine.Remains ⟨.construct resumed.frame, ⟨resumed.store, context⟩, resumed.flow⟩
      below left)
    (hbl : building key below = []) :
    Story key root resumed.store (building key left) (first :: (events ++ more)) := by
  obtain ⟨done, current, rest, performed, last, hr, rfl, hlv⟩ := hgo
  have hfw := hrm.sublist hg hkey
  cases hlv with
  | finishes =>
    have hd : task.plan.steps = done := by simpa using hr.split
    rw [← List.append_assoc]
    refine .finished hof hb (hd ▸ hr) ⟨rfl, rfl⟩ ?_
    rcases hrm with rfl | ⟨incoming, hs⟩
    · rfl
    · cases hs with
      | popped => exact hbl
      | pushed hf => cases hf
      | paused hf => rcases hf with hf | hf <;> cases hf
  | fails hl =>
    rw [List.append_nil]
    refine .unfinished hof hb hr hl ?_
    rcases hrm with rfl | ⟨incoming, hs⟩
    · exact List.nil_sublist _
    · cases hs with
      | popped hf => cases hf
      | pushed hf => cases hf
      | paused hf => rcases hf with hf | hf <;> cases hf
  | pushes =>
    rw [building_cons_construct hof, hbl] at hfw
    rw [List.append_nil]
    exact .unfinished hof hb hr (List.cons_ne_nil _ _) hfw
  | pauses hl =>
    rw [building_cons_construct hof, hbl] at hfw
    rw [List.append_nil]
    exact .unfinished hof hb hr hl hfw

/-- The frame on top of a stack is resumed. -/
theorem resumed {host : Host σ τ} {world : World σ} {frame : Frame τ} {held : Held}
    {incoming : Option Outcome} {below left : List (Frame τ)} {before after : List Construction}
    (h : Story key root world.store (before ++ building key (frame :: below) ++ after) log)
    (hs : world.store.Orderly root) (hsc : world.store.HostsAll frame.scopes)
    (hw : ∀ begun, frame = .construct begun → begun.Waits world.store.objects.size incoming)
    (hk : ∀ object, frame.own = some object → object.key < world.store.objects.size)
    (hnn : world.store.objects.size ≤ key →
      before = [] ∧ building key (frame :: below) = [] ∧ after = [])
    (hc : world.store.Continues root frame.own
      (frame.resume host held world incoming).world.store)
    (hr : Machine.Remains (frame.resume host held world incoming) below left) :
    Story key root (frame.resume host held world incoming).world.store
      (before ++ building key left ++ after)
      (log ++ (frame.events world.store held incoming).filter (·.object.key == key)) := by
  have hg : frame.Goes world.store.objects.size (frame.resume host held world incoming) :=
    Frame.resume_goes hs.place _ _
  have hbs (hap : ∀ object, frame.own = some object → object.key ≠ key)
      (hev : (frame.events world.store held incoming).filter (·.object.key == key) = []) :
      Story key root (frame.resume host held world incoming).world.store
        (before ++ building key left ++ after)
        (log ++ (frame.events world.store held incoming).filter (·.object.key == key)) := by
    rw [hev, List.append_nil]
    refine h.continued hs hc hap fun hkey => ?_
    have hfw := hr.sublist hg hkey
    rw [building_cons_of_none (Frame.building_eq_none (hg.own ▸ hap))] at hfw
    rw [building_cons_of_none (Frame.building_eq_none hap)]
    exact ((List.Sublist.refl before).append hfw).append (.refl after)
  cases frame with
  | start | call | native => exact hbs nofun rfl
  | node frame =>
    rcases frame.events_cases world.store held incoming with hev | ⟨begun, hf, hev⟩
    · exact hbs nofun (by rw [Frame.events, hev]; rfl)
    by_cases hkey : begun.object.key = key
    · obtain ⟨id, args, hid, hbg⟩ := NodeFrame.construct_of_resume hs.place hf
      obtain ⟨-, -, hnew, -, -⟩ := Construction.ofClass_fits hs.place hid hbg
      have hsz : world.store.objects.size ≤ key := Nat.le_of_eq (hnew.symm.trans hkey)
      obtain ⟨rfl, hb, rfl⟩ := hnn hsz
      have hall (event : Event) (he : event.object = begun.object) :
          [event].filter (·.object.key == key) = [event] := by simp [he, hkey]
      rw [h.eq_nil hsz, Frame.events, hev, hall _ rfl, List.nil_append, List.append_nil]
      refine begins hs hid hbg hkey ?_
      rcases hr with rfl | ⟨_, hst⟩
      · exact List.nil_sublist _
      · cases hst with
        | pushed hwr =>
          obtain rfl := Flow.push.inj (Except.ok.inj (hf.symm.trans hwr))
          rw [Frame.ofWork, building_cons_construct hkey, building_cons_of_none rfl]
          rw [building_cons_of_none rfl] at hb
          rw [hb]
        | popped hd => cases hf.symm.trans hd
        | paused hp => rcases hp with hp | hp <;> cases hf.symm.trans hp
    · refine hbs nofun ?_
      rw [Frame.events, hev, List.filter_cons_of_neg (by simpa using hkey), List.filter_nil]
  | construct begun =>
    have hof := begun.events_of world.store held incoming
    by_cases hkey : begun.object.key = key
    · have hall : (begun.events world.store held incoming).filter (·.object.key == key)
          = begun.events world.store held incoming := by
        refine List.filter_eq_self.mpr fun event he => ?_
        rw [(hof event he).1, hkey, beq_self_eq_true]
      rw [Frame.events, hall]
      rw [building_cons_construct hkey] at h
      cases h with
      | unborn hnew => exact absurd (hkey ▸ hk begun.object rfl) (Nat.not_lt_of_le hnew)
      | other hbr hn =>
        refine .other (Nat.lt_of_lt_of_le hbr hc.unfolds.known) ?_
        exact List.forall_mem_append.mpr ⟨hn, fun event he => (hof event he).2⟩
      | unfinished ht hbn hrc hlf ho =>
        have hl := ho.length_le
        simp only [List.length_append, List.length_cons, List.length_nil] at hl
        obtain rfl : before = [] := List.length_eq_zero_iff.mp (by omega)
        obtain rfl : after = [] := List.length_eq_zero_iff.mp (by omega)
        have hb : building key below = [] := List.length_eq_zero_iff.mp (by omega)
        have hsm := List.mem_singleton.mp (ho.subset
          (List.mem_append_left _ (List.mem_append_right _ List.mem_cons_self)))
        rw [List.nil_append, List.append_nil]
        exact goesOn ht hbn (hrc.resume hs hsm hsc (hw begun rfl) held)
          (hkey ▸ hk begun.object rfl) hg hr hb
      | finished _ _ _ _ hgn => simp at hgn
    · refine hbs (fun object hown => Option.some.inj hown ▸ hkey) ?_
      refine List.filter_eq_nil_iff.mpr fun event he => ?_
      rw [(hof event he).1]
      simpa using hkey

/-- A machine makes a move. -/
theorem moved {host : Host σ τ} {world : World σ} {machine : Machine τ} {outside : Held}
    {before after : List Construction}
    (h : Story key root world.store (before ++ building key machine.stack.frames ++ after) log)
    (hst : world.store.Orderly root) (ho : machine.Orderly world.store.objects.size)
    (hs : world.store.HostsAll machine.scopes)
    (hn : world.store.objects.size ≤ key →
      before = [] ∧ building key machine.stack.frames = [] ∧ after = [])
    (hc : world.store.Continues root machine.own
      (machine.move host outside world).world.store) :
    Story key root (machine.move host outside world).world.store
      (before ++ ((machine.move host outside world).standing.flatMap fun standing =>
        building key standing.stack.frames) ++ after)
      (log ++ (Move.events host ⟨machine, outside, world⟩).filter (·.object.key == key)) := by
  cases hf : machine.stack.frames with
  | nil =>
    rw [hf] at h
    rw [Move.events, hf, List.filter_nil, List.append_nil]
    rcases Machine.move_cases host outside machine world with hm | ⟨frame, below, hcn, -⟩
    · rw [hm]
      exact h
    · cases hf.symm.trans hcn
  | cons frame rest =>
    obtain ⟨below, rfl, hm⟩ := Machine.move_of_cons host outside world hf
    have hmem : frame ∈ machine.stack.frames := hf ▸ List.mem_cons_self
    have hown : machine.own = frame.own := by
      rw [Machine.own, hf]
      rfl
    rw [hf] at h hn
    rw [hm, Machine.follow_world, hown] at hc
    rw [Move.events, hf, hm, Machine.follow_world]
    obtain ⟨left, hl, hr⟩ := Machine.exists_remains key (frame.resume host
      (fun _ => outside () ++ machine.refs host) world machine.incoming) below
    rw [hl]
    refine h.resumed hst (Store.hostsAll_flatMap.mp hs frame hmem) (fun begun hb => ?_)
      (ho.known frame hmem) hn hc hr
    exact ho.waits begun (by rw [hf, hb, List.head?_cons])

end Story

namespace System

variable {host : Host σ τ} {system next : System σ τ} {moves : List (Move σ τ)}

end System

end StepScript
