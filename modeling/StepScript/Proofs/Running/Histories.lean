import StepScript.Proofs.Running.Building
set_option autoImplicit false

/-!
# Histories

A turn of a machine is a sequence of moves, and each of them leaves a state behind that the next one
works on.  A history says what has happened to a program move by move, so that all of these states
are among those that it leads to (`System.History`, `System.Grown.history`).  In each of them every
scope is in its place, and the frames work in scopes of the store (`System.History.inPlace`).
-/

namespace StepScript

variable {σ τ : Type}

/-! ## Moves -/

/-- A machine that makes a move.  `outside` is what is held beside the machine. -/
structure Move (σ τ : Type) where
  machine : Machine τ
  outside : Held
  world : World σ

/-- The machine and the world after the move. -/
def Move.moved (host : Host σ τ) (move : Move σ τ) :
    Machine.Moved σ τ (Option (Except Error Status)) :=
  move.machine.move host move.outside move.world

namespace Machine

/-- The machine, if it goes on after the move. -/
def Moved.standing (moved : Moved σ τ (Option (Except Error Status))) : List (Machine τ) :=
  match moved.stop with
  | none => [moved.machine]
  | some stop => Moved.remaining ⟨moved.machine, moved.world, stop⟩

/-- The value that the machine has finished with. -/
def Moved.yielded (moved : Moved σ τ (Option (Except Error Status))) : List Constant :=
  match moved.stop with
  | none => []
  | some stop => Moved.given ⟨moved.machine, moved.world, stop⟩

theorem Moved.of_mem_standing {moved : Moved σ τ (Option (Except Error Status))}
    {machine : Machine τ} (h : machine ∈ moved.standing) : machine = moved.machine := by
  unfold standing at h
  split at h
  · exact List.mem_singleton.mp h
  · exact (Moved.of_mem_remaining h).1

end Machine

/-! ## Histories -/

namespace System

variable {host : Host σ τ} {system next : System σ τ}

/-- What can happen to a program between two states, and the move that is made if any is. -/
inductive Happens (host : Host σ τ) : System σ τ → Option (Move σ τ) → System σ τ → Prop where
  /-- A unit is registered or refused. -/
  | unit (system : System σ τ) (files : List Node) :
      Happens host system none (system.withUnit files)
  /-- A unit begins to run. -/
  | begin {system : System σ τ} {code : Code} (accepted : code ∈ system.units) :
      Happens host system none
        { system with
          running := system.running ++ [system.program.machineOf system.store code] }
  /-- A call of a function begins, in the scope that declares it. -/
  | call {system : System σ τ} {scope : ScopeId} {name : String} {function : Function}
      {args : List Constant} (declared : system.store.ownFunction? scope name = some function)
      (known : ∀ arg ∈ args, arg.isPlain = true ∨ arg ∈ system.results) :
      Happens host system none
        { system with
          running := system.running ++ [.ofCall function args (function.callParent scope)] }
  /-- A machine makes a move. -/
  | move {system : System σ τ} {before after : List (Machine τ)} {machine : Machine τ}
      {outside : Held} (running : system.running = before ++ machine :: after)
      (covers : Covers host system (before ++ after) outside) :
      Happens host system (some ⟨machine, outside, system.world⟩)
        { system with
          running := before ++ (machine.move host outside system.world).standing ++ after
          results := system.results ++ (machine.move host outside system.world).yielded
          world := (machine.move host outside system.world).world }
  /-- The host drops machines and results. -/
  | drop {system : System σ τ} {running : List (Machine τ)} {results : List Constant}
      (fewer : running.Sublist system.running)
      (forgotten : ∀ result ∈ results, result ∈ system.results) :
      Happens host system none { system with running, results }
  /-- The frame ends. -/
  | endFrame (system : System σ τ) :
      Happens host system none
        { system with
          world := { system.world with store := system.program.endFrame system.store } }
  /-- Something happens to the surroundings of the program. -/
  | surroundings (system : System σ τ) (context : Context σ) :
      Happens host system none { system with world := { system.world with context } }

/-- The state of a program after the moves of its machines, the first of them first. -/
inductive History (host : Host σ τ) : List (Move σ τ) → System σ τ → Prop where
  | empty (code : Code) (context : Context σ) : History host [] (empty code context)
  | next {moves : List (Move σ τ)} {system next : System σ τ} {move : Option (Move σ τ)}
      (before : History host moves system) (happens : Happens host system move next) :
      History host (moves ++ move.toList) next

variable {moves : List (Move σ τ)}

/-- Moves that do not stop the machine, one after the other. -/
theorem History.goesOn {before after : List (Machine τ)} {machine : Machine τ} {outside : Held}
    (h : History host moves system) (hr : system.running = before ++ machine :: after)
    (hc : Covers host system (before ++ after) outside) {later : Machine τ × World σ}
    (hmv : Relation.ReflTransGen (Machine.GoesOn host outside) (machine, system.world) later) :
    ∃ more, History host more
      { system with running := before ++ later.1 :: after, world := later.2 } := by
  induction hmv with
  | refl =>
    refine ⟨moves, ?_⟩
    rw [← hr]
    exact h
  | @tail between last _ hm ih =>
    obtain ⟨more, hb⟩ := ih
    have hcb : Covers host
        { system with running := before ++ between.1 :: after, world := between.2 }
        (before ++ after) outside := ⟨hc.root, hc.machines, hc.results⟩
    have hn := hb.next (.move rfl hcb)
    have hm' : between.1.move host outside between.2 = ⟨last.1, last.2, none⟩ := hm
    dsimp only at hn
    rw [hm'] at hn
    simp only [Machine.Moved.standing, Machine.Moved.yielded, List.append_nil,
      List.append_assoc, List.singleton_append] at hn
    exact ⟨_, hn⟩

/-- Every step is made of what happens move by move. -/
theorem History.step (h : History host moves system) (hs : Step host system next) :
    ∃ more, History host more next := by
  cases hs with
  | register sources =>
    rcases Program.register_cases system.store system.program.root sources with
      ⟨error, hr⟩ | ⟨files, hu⟩
    · rw [hr]
      refine ⟨moves, ?_⟩
      simpa [Except.toOption] using h
    · rw [hu]
      refine ⟨_, (congrArg (History host _) ?_).mp (h.next (.unit system files))⟩
      unfold withUnit
      generalize system.store.addUnit system.program.root files = answer
      obtain ⟨_ | _, after⟩ := answer <;> rfl
  | begin accepted => exact ⟨_, h.next (.begin accepted)⟩
  | call declared known => exact ⟨_, h.next (.call declared known)⟩
  | @turn before after machine outside _ moved running covers stepped =>
    obtain ⟨last, world, hm, hl⟩ := Machine.moves_of_step stepped
    obtain ⟨more, hb⟩ := h.goesOn running covers hm
    have hc : Covers host { system with running := before ++ last :: after, world }
        (before ++ after) outside := ⟨covers.root, covers.machines, covers.results⟩
    have hn := hb.next (.move rfl hc)
    dsimp only at hn
    rw [hl] at hn
    exact ⟨_, hn⟩
  | drop fewer forgotten => exact ⟨_, h.next (.drop fewer forgotten)⟩
  | endFrame => exact ⟨_, h.next (.endFrame system)⟩
  | surroundings context => exact ⟨_, h.next (.surroundings system context)⟩

/-- Whatever state a program gets into, there is a history that leads to it. -/
theorem Grown.history (h : Grown host system) : ∃ moves, History host moves system := by
  induction h with
  | empty code context => exact ⟨[], .empty code context⟩
  | @unit before _ files ih =>
    obtain ⟨moves, hb⟩ := ih
    exact ⟨_, hb.next (.unit before files)⟩
  | step _ hs ih =>
    obtain ⟨moves, hb⟩ := ih
    exact hb.step hs

/-! ## Computed histories -/

/-- A program that has nothing but the unit of the files, which begins to run. -/
def launch (files : List Node) (context : Context σ) : System σ τ :=
  let system := (empty default context).withUnit files
  { system with
    running := system.running
      ++ [system.program.machineOf system.store (system.units.head?.getD default)] }

theorem History.launch {files : List Node} {context : Context σ}
    (hac : ((System.empty default context : System σ τ).withUnit files).units.head?.isSome = true) :
    History host [] (System.launch files context) := by
  have hu : History host [] ((System.empty default context : System σ τ).withUnit files) :=
    (History.empty default context).next (.unit _ files)
  obtain ⟨code, hc⟩ := Option.isSome_iff_exists.mp hac
  refine hu.next (.begin ?_)
  rw [hc]
  exact List.mem_of_head? hc

/-- What is held while the first machine makes a move. -/
def beside (host : Host σ τ) (system : System σ τ) (others : List (Machine τ)) : Held := fun _ =>
  .scope system.program.root :: others.flatMap (Machine.refs host)
    ++ system.results.flatMap Constant.refs

theorem covers_beside (host : Host σ τ) (system : System σ τ) (others : List (Machine τ)) :
    Covers host system others (beside host system others) := by
  refine ⟨by simp [beside], fun other ho ref href => ?_, fun result hr ref href => ?_⟩
  · exact List.mem_append_left _ (List.mem_cons_of_mem _ (List.mem_flatMap.mpr ⟨_, ho, href⟩))
  · exact List.mem_append_right _ (List.mem_flatMap.mpr ⟨_, hr, href⟩)

/-- The system after the first machine has made a move. -/
def advance (host : Host σ τ) (system : System σ τ) : System σ τ :=
  match system.running with
  | [] => system
  | machine :: after =>
    let moved := machine.move host (beside host system after) system.world
    { system with
      running := moved.standing ++ after
      results := system.results ++ moved.yielded
      world := moved.world }

/-- The moves of the machine that is the first one each time. -/
def movesFrom (host : Host σ τ) (system : System σ τ) : Nat → List (Move σ τ)
  | 0 => []
  | count + 1 =>
    match system.running with
    | [] => []
    | machine :: after =>
      ⟨machine, beside host system after, system.world⟩
        :: movesFrom host (advance host system) count

theorem advance_idle (h : system.running = []) (count : Nat) :
    (advance host)^[count] system = system := by
  have hi : advance host system = system := by
    unfold advance
    rw [h]
  exact Function.iterate_fixed hi count

theorem History.advance (h : History host moves system) (count : Nat) :
    History host (moves ++ movesFrom host system count) ((advance host)^[count] system) := by
  induction count generalizing moves system with
  | zero => exact (List.append_nil moves).symm ▸ h
  | succ count ih =>
    unfold movesFrom
    split
    · next hi =>
      rw [advance_idle hi, List.append_nil]
      exact h
    · next machine after hr =>
      have had : History host
          (moves ++ [⟨machine, beside host system after, system.world⟩])
          (System.advance host system) := by
        unfold System.advance
        rw [hr]
        exact h.next (.move hr (covers_beside host system ([] ++ after)))
      rw [Function.iterate_succ_apply, List.append_cons]
      exact ih had

end System

/-! ## Places -/

/-- The scopes that the frames of a machine refer to. -/
def Machine.scopes (machine : Machine τ) : List ScopeId := machine.stack.frames.flatMap Frame.scopes

/-- The object that the frame on top constructs. -/
def Machine.own (machine : Machine τ) : Option ObjectRef :=
  machine.stack.frames.head?.bind Frame.own

theorem Frame.scopes_ofWork (work : Work) : (Frame.ofWork work : Frame τ).scopes = work.scopes := by
  cases work <;> rfl

namespace Machine

open Store (hostsAll_flatMap hostsAll_cons)

variable {root : ScopeId} {machine : Machine τ} {world : World σ}

/-- The frames work in scopes of the store, and constructions with behaviours to attach are those of
instances. -/
structure InPlace (store : Store) (machine : Machine τ) : Prop where
  scopes : store.HostsAll machine.scopes
  builds : ∀ frame ∈ machine.stack.frames, frame.Builds store

/-- What a frame holds is held by its machine. -/
theorem mem_refs_of_frame {host : Host σ τ} {frame : Frame τ} (h : frame ∈ machine.stack.frames)
    {ref : Ref} (href : ref ∈ frame.refs host) : ref ∈ machine.refs host :=
  List.mem_append_left _ (List.mem_append_left _ (List.mem_flatMap.mpr ⟨frame, h, href⟩))

theorem InPlace.unfolded {store later : Store} {own : Option ObjectRef} (h : machine.InPlace store)
    (hk : store.KeepsDelegates later) (hu : store.Unfolds own later) :
    machine.InPlace later :=
  ⟨h.scopes.kept hk, fun frame hf => (h.builds frame hf).unfolded hu⟩

/-- A move changes the store, and the frames are in their places. -/
theorem move_changes (host : Host σ τ) (hp : world.store.InPlace root)
    (hs : machine.StartsAt root) (hm : machine.InPlace world.store) (outside : Held) :
    Store.Changes root machine.own world.store (machine.move host outside world).world.store ∧
      (machine.move host outside world).machine.InPlace
        (machine.move host outside world).world.store := by
  rcases move_cases host outside machine world with hmv | ⟨frame, below, hf, hmv⟩
  · rw [hmv]
    exact ⟨.refl, hm⟩
  · have hmem : frame ∈ machine.stack.frames := hf ▸ List.mem_cons_self
    have hall := hostsAll_flatMap.mp hm.scopes
    have hown : machine.own = frame.own := by
      rw [own, hf]
      rfl
    have hr : Frame.Changes root frame.own world.store
        (frame.resume host (fun _ => outside () ++ machine.refs host) world machine.incoming) :=
      Frame.resume_changes hp (hs frame hmem) (hall frame hmem)
        (fun ref href => List.mem_append_right _ (mem_refs_of_frame hmem href))
        (hm.builds frame hmem) _
    have hu := Store.Changes.unfolds hr.changes
    have hbd := Frame.resume_builds hp (hm.builds frame hmem) hu
    rw [hmv, follow_world, hown]
    refine ⟨hr.changes, hostsAll_flatMap.mpr fun other ho => ?_, fun other ho => ?_⟩
    · rcases of_mem_follow ho with rfl | hbl | ⟨work, hfl, rfl⟩
      · exact hr.frame
      · have hb := hall other (hf ▸ List.mem_cons_of_mem _ hbl)
        exact hr.changes.hosts hp hb
      · have hw := hr.flow
        rw [hfl] at hw
        rw [Frame.scopes_ofWork]
        exact hw
    · rcases of_mem_follow ho with rfl | hbl | ⟨work, hfl, rfl⟩
      · exact hbd.1
      · have hb := hm.builds other (hf ▸ List.mem_cons_of_mem _ hbl)
        exact hb.unfolded hu
      · exact hbd.2 work hfl

theorem ofCode_inPlace {store : Store} (h : store.InPlace root) (held : Held) (code : Code) :
    (ofCode store held code root : Machine τ).InPlace store := by
  have hs : (Start.ofCode store held code root).root = root :=
    h.registered.grounded.isRoot.root_eq held
  refine ⟨fun id hid => ?_, fun frame hf begun hb => ?_⟩
  · obtain rfl : id = (Start.ofCode store held code root).root := by
      simpa [ofCode, scopes, Stack.single, Frame.scopes] using hid
    rw [hs]
    exact h.rooted.host
  · rw [List.mem_singleton.mp hf] at hb
    cases hb

theorem ofCall_inPlace {store : Store} {function : Function} {scope : ScopeId}
    (h : store.HostsAll (scope :: function.scopes)) (args : List Constant) :
    (ofCall function args (function.callParent scope) : Machine τ).InPlace store := by
  have hp := Store.Rooted.callParent_hosts h
  have hfn := (hostsAll_cons.mp h).2
  refine ⟨?_, fun frame hf begun hb => ?_⟩
  · simpa [ofCall, ofWork, scopes, Stack.single, Frame.ofWork, Frame.scopes, Call.scopes,
      CallStage.scopes, Call.ofArguments] using ⟨hp, hfn⟩
  · rw [List.mem_singleton.mp hf] at hb
    cases hb

end Machine

namespace Store

theorem scope_newGlobal (id : ScopeId) : (newGlobal {}).2.scope id
    = if id.index = 0 then { kind := .global, state := some {} } else default :=
  scope_addScope ..

theorem rooted_newGlobal : (newGlobal {}).2.Rooted (newGlobal {}).1 := by
  refine ⟨fun {id} hid _ => ?_, fun {id link} hl => ?_, fun {id shared} hd => ?_,
    fun {id shared} hd => ?_, hosts_addScope rfl, fun {id} hid => ?_, fun {id} _ => ?_,
    fun id => ?_, fun _ => hostsAll_nil _, fun id entry he => ?_, fun _ => hostsAll_nil _⟩
  · cases id
    exact congrArg ScopeId.mk (Nat.lt_one_iff.mp hid)
  · rw [scope_newGlobal] at hl
    split at hl <;> cases hl
  · rw [scope_newGlobal] at hd
    split at hd <;> cases hd
  · rw [scope_newGlobal] at hd
    split at hd <;> cases hd
  · obtain ⟨declared, hdc, -⟩ := hid
    exact absurd hdc (Nat.not_lt_zero _)
  · rw [scope_newGlobal]
    split <;> rfl
  · rw [scope_newGlobal]
    split <;> exact hostsAll_nil _
  · rw [scope_newGlobal] at he
    split at he <;> cases he

theorem owned_newGlobal : (newGlobal {}).2.Owned := by
  intro id parent hl
  rw [scope_newGlobal] at hl
  split at hl <;> cases hl

end Store

/-- The end of a frame releases waits and does nothing else. -/
theorem Program.endFrame_changes (program : Program) (store : Store) :
    Store.Changes program.root none store (program.endFrame store) := by
  have hk : ∀ state : GlobalState, state.KeepsBooks { state with waiters := [] } :=
    fun state => ⟨rfl, rfl, rfl, rfl, fun order _ => by cases order <;> rfl⟩
  have hr (tickets : List Ticket) (between : Store) :
      Store.Changes program.root none between (tickets.foldl Store.release between) := by
    induction tickets generalizing between with
    | nil => exact .refl
    | cons ticket rest ih => exact .head (.release ticket) (ih _)
  exact .head (.state (fun _ => program.refs) program.root hk) (hr _ _)

namespace System

variable {host : Host σ τ} {system next : System σ τ} {moves : List (Move σ τ)}

/-- Everything is in its place, and the frames work in scopes of the store. -/
structure InPlace (system : System σ τ) : Prop where
  inOrder : system.InOrder
  rooted : system.store.Rooted system.program.root
  owned : system.store.Owned
  machines : ∀ machine ∈ system.running, machine.InPlace system.store

theorem InPlace.store (h : system.InPlace) : system.store.InPlace system.program.root :=
  ⟨h.inOrder.registered, h.rooted⟩

theorem Happens.inOrder {move : Option (Move σ τ)} (hh : Happens host system move next)
    (h : system.InOrder) : next.InOrder := by
  cases hh with
  | unit files => exact ⟨h.registered.addUnit files, h.machines⟩
  | begin accepted => exact (Step.begin accepted : Step host system _).inOrder h
  | call declared known => exact (Step.call declared known : Step host system _).inOrder h
  | @move before after machine outside running covers =>
    have hmem {other : Machine τ} (ho : other ∈ before ++ machine :: after) :
        other.InOrder system.program.root := h.machines other (running ▸ ho)
    have hm := hmem (List.mem_append_right before List.mem_cons_self)
    obtain ⟨hmv, hst⟩ := Machine.move_inOrder host hm h.registered outside
    refine ⟨hst, fun other ho => ?_⟩
    rcases List.mem_append.mp ho with ho | haf
    · rcases List.mem_append.mp ho with hb | hs
      · exact hmem (List.mem_append_left _ hb)
      · rw [Machine.Moved.of_mem_standing hs]
        exact hmv
    · exact hmem (List.mem_append_right _ (List.mem_cons_of_mem _ haf))
  | drop fewer forgotten => exact (Step.drop fewer forgotten : Step host system _).inOrder h
  | endFrame => exact (Step.endFrame system : Step host system _).inOrder h
  | surroundings context => exact (Step.surroundings system context : Step host system _).inOrder h

theorem Happens.inPlace {move : Option (Move σ τ)} (hh : Happens host system move next)
    (h : system.InPlace) : next.InPlace := by
  have hn := hh.inOrder h.inOrder
  have hr := h.inOrder.registered
  have hrt := hr.grounded.isRoot
  cases hh with
  | unit files =>
    have hk := Store.keepsDelegates_addUnit hr files
    refine ⟨hn, h.rooted.addUnit hr files, h.owned.addUnit hr files, ?_⟩
    exact fun machine hm =>
      (h.machines machine hm).unfolded hk (Store.unfolds_addUnit none hr files)
  | begin accepted =>
    refine ⟨hn, h.rooted, h.owned, fun machine hm => ?_⟩
    rcases List.mem_append.mp hm with hold | hnew
    · exact h.machines machine hold
    · obtain rfl := List.mem_singleton.mp hnew
      exact Machine.ofCode_inPlace h.store _ _
  | @call scope name function args declared known =>
    refine ⟨hn, h.rooted, h.owned, fun machine hm => ?_⟩
    rcases List.mem_append.mp hm with hold | hnew
    · exact h.machines machine hold
    · obtain rfl := List.mem_singleton.mp hnew
      exact Machine.ofCall_inPlace (h.rooted.function_declared declared) args
  | @move before after machine outside running covers =>
    have hmem {other : Machine τ} (ho : other ∈ before ++ machine :: after) :
        other ∈ system.running := running ▸ ho
    have hm := hmem (List.mem_append_right before List.mem_cons_self)
    obtain ⟨hc, hmv⟩ := Machine.move_changes host h.store
      (h.inOrder.machines machine hm).starts (h.machines machine hm) outside
    refine ⟨hn, (hc.inPlace h.store).rooted, hc.owned hrt h.owned, ?_⟩
    intro other ho
    have hold (ho : other ∈ before ++ machine :: after) :
        other.InPlace (machine.move host outside system.world).world.store :=
      (h.machines other (hmem ho)).unfolded (hc.keepsDelegates h.store)
        (Store.Changes.unfolds hc)
    rcases List.mem_append.mp ho with ho | haf
    · rcases List.mem_append.mp ho with hb | hs
      · exact hold (List.mem_append_left _ hb)
      · rw [Machine.Moved.of_mem_standing hs]
        exact hmv
    · exact hold (List.mem_append_right _ (List.mem_cons_of_mem _ haf))
  | drop fewer forgotten =>
    exact ⟨hn, h.rooted, h.owned, fun machine hm => h.machines machine (fewer.subset hm)⟩
  | endFrame =>
    have hc := system.program.endFrame_changes system.store
    refine ⟨hn, (hc.inPlace h.store).rooted, hc.owned hrt h.owned, ?_⟩
    exact fun machine hm => (h.machines machine hm).unfolded
      (hc.keepsDelegates h.store) (Store.Changes.unfolds hc)
  | surroundings context => exact ⟨hn, h.rooted, h.owned, h.machines⟩

theorem inPlace_empty (code : Code) (context : Context σ) :
    (empty code context : System σ τ).InPlace where
  inOrder := ⟨Store.registered_newGlobal, fun _ hm => nomatch hm⟩
  rooted := Store.rooted_newGlobal
  owned := Store.owned_newGlobal
  machines _ hm := nomatch hm

/-- Whatever has happened, every scope is in its place, and the frames work in scopes of the
store. -/
theorem History.inPlace (h : History host moves system) : system.InPlace := by
  induction h with
  | empty code context => exact inPlace_empty code context
  | next _ hh ih => exact hh.inPlace ih

/-- What holds of an empty store, and goes on to hold when units are registered and code runs, holds
of every store that a program gets to. -/
theorem History.keeps {P : ScopeId → Store → Prop} (h : History host moves system)
    (he : P (Store.newGlobal {}).1 (Store.newGlobal {}).2)
    (hu : ∀ {root : ScopeId} {store : Store} (files : List Node), store.InPlace root →
      P root store → P root (store.addUnit root files).2)
    (hch : ∀ {root : ScopeId} {own : Option ObjectRef} {store later : Store},
      store.InPlace root → P root store → Store.Change root own store later → P root later) :
    P system.program.root system.store := by
  have hc {root : ScopeId} {own : Option ObjectRef} {store later : Store}
      (hp : store.InPlace root) (hs : P root store)
      (hc : Store.Changes root own store later) : P root later := by
    induction hc with
    | refl => exact hs
    | tail hb hl ih => exact hch (Store.Changes.inPlace hb hp) ih hl
  induction h with
  | empty code context => exact he
  | @next moves system next move hb hh ih =>
    have hp := hb.inPlace
    cases hh with
    | unit files => exact hu files hp.store ih
    | @move before after machine outside running covers =>
      have hm : machine ∈ system.running :=
        running ▸ List.mem_append_right before List.mem_cons_self
      exact hc hp.store ih (Machine.move_changes host hp.store
        (hp.inOrder.machines machine hm).starts (hp.machines machine hm)
        outside).1
    | endFrame => exact hc hp.store ih (system.program.endFrame_changes system.store)
    | begin | call | drop | surroundings => exact ih

end System

end StepScript
