import StepScript.Proofs.Safety.Resuming
import StepScript.Proofs.System.Basic
import StepScript.Host.Standard
set_option autoImplicit false

/-!
# Accepted programs never fail internally

A machine whose frames can all be resumed with what they wait for stays one when it moves
(`Machine.move_keeps`).  Everything that can happen to a program keeps the code in its store,
its units and its machines that way (`System.Step.sound`), so no step of a machine, however
often units are loaded and machines take turns, ends in an internal failure.
-/

namespace StepScript

variable {argument : String → Except Error Constant} {gives : Outcome → Prop}
  {incoming : Option Outcome} {store : Store}

open Outcome (IsValue IsObject IsResult Suits MayGet Gets)

variable {σ τ : Type}

/-! ## Hosts -/

/-- The functions and tasks of the host fail with errors of their own, or with those that the
reading of a parameter gives. -/
structure Host.OwnErrors (host : Host σ τ) : Prop where
  native : ∀ owner name provided, host.native? owner name = some provided →
    ∀ argument : String → Except Error Constant, (∀ parameter, Safe (argument parameter)) →
      ∀ context, Safe (provided argument context).1
  poll : ∀ task context, Safe (host.poll task context).1
  finish : ∀ task context, Safe (host.finish task context).1

theorem Safe.error {α β : Type} {error : Error} (h : Safe (.error error : Except Error α)) :
    Safe (.error error : Except Error β) :=
  ⟨fun other ho => h.not_internal other (by cases ho; rfl)⟩

theorem HostTask.safe_poll {host : Host σ τ} (hh : host.OwnErrors) (task : HostTask τ)
    (context : Context σ) : Safe (task.poll host context).1 := by
  cases task with
  | after completion finish =>
    unfold HostTask.poll
    dsimp only
    split
    · cases finish with
      | none => exact .of_error (by rintro _ ⟨⟩)
      | some work =>
        have hf := hh.finish work context
        dsimp only
        split
        · exact .of_ok _
        · next error later he =>
          rw [he] at hf
          exact hf.error
    · exact .of_ok _
  | polled work => exact hh.poll work context

namespace Standard

theorem safe_pureNative {name : String} {compute : Constant → Except Error Constant}
    (hc : ∀ value, Safe (compute value)) (har : ∀ parameter, Safe (argument parameter))
    (context : Context σ) :
    Safe (pureNative (τ := τ) name compute argument context).1 := by
  unfold pureNative
  split
  · next error he => exact (he ▸ har name).error
  · next value hv =>
    split
    · next error he => exact (he ▸ hc value).error
    · exact .of_ok _

theorem safe_mathNative (compute : Float → Float)
    (har : ∀ parameter, Safe (argument parameter)) (context : Context σ) :
    Safe (mathNative (τ := τ) compute argument context).1 := by
  refine safe_pureNative (fun value => ?_) har context
  split
  · next error he => exact (he ▸ value.ordinary_asNumber.safe).error
  · exact .of_ok _

theorem safe_print (har : ∀ parameter, Safe (argument parameter)) (context : Context σ) :
    Safe (print (τ := τ) argument context).1 := by
  unfold print
  split
  · next error he => exact (he ▸ har "value").error
  · split
    · exact .of_error (by rintro _ ⟨⟩)
    · exact .of_ok _

theorem safe_sleep (har : ∀ parameter, Safe (argument parameter)) (context : Context σ) :
    Safe (sleep argument context).1 := by
  unfold sleep
  split
  · next error he => exact (he ▸ har "ms").error
  · next value hv =>
    split
    · next error he => exact (he ▸ value.ordinary_asNumber.safe).error
    · split
      · exact .of_error (by rintro _ ⟨⟩)
      · exact .of_ok _

/-- The standard host fails with errors of its own. -/
theorem ownErrors : (host : Host σ Sleep).OwnErrors where
  native owner name provided h argument har context := by
    change native? owner name = some provided at h
    unfold native? at h
    split at h <;> cases h
    · exact safe_print har context
    · exact safe_pureNative (fun _ => .of_ok _) har context
    · exact safe_sleep har context
    · exact safe_mathNative _ har context
    · exact safe_mathNative _ har context
    · exact .of_ok _
  poll task context := by
    unfold host
    dsimp only
    split <;> exact .of_ok _
  finish task context := .of_ok _

end Standard

/-! ## Frames -/

/-- The frame can be resumed with `incoming`, and finishes with outcomes of the kind. -/
inductive Frame.Ready : Frame τ → Option Outcome → (Outcome → Prop) → Prop where
  | node {node : Node} {progress : Progress} {role : Role} {incoming : Option Outcome}
      (scope : ScopeId) (fits : node.Fits role)
      (takes : NodeFrame.Takes role node.kind progress incoming) :
      Ready (.node ⟨node, scope, progress⟩) incoming (Suits role)
  | start {start : Start} {incoming : Option Outcome} (takes : start.Takes incoming) :
      Ready (.start start) incoming IsValue
  | call {call : Call} {incoming : Option Outcome} (takes : call.Takes incoming) :
      Ready (.call call) incoming IsValue
  | native (function : Function) (scope : ScopeId) (task : Option (HostTask τ))
      (incoming : Option Outcome) : Ready (.native function scope task) incoming IsValue
  | construct {construction : Construction} {incoming : Option Outcome}
      (takes : construction.Takes incoming) :
      Ready (.construct construction) incoming IsObject

/-- Every node can be begun. -/
theorem NodeFrame.takes_start (role : Role) (kind : NodeKind) : Takes role kind .start none := by
  cases kind
  case giveBack value => cases value <;> simp [Takes, MayGet]
  all_goals simp [Takes, MayGet]

theorem Work.Ready.frame {work : Work} {answers : Outcome → Prop} (h : work.Ready answers) :
    (Frame.ofWork work : Frame τ).Ready none answers := by
  cases h with
  | node scope fits => exact .node scope fits (NodeFrame.takes_start ..)
  | call takes => exact .call takes
  | native function scope => exact .native ..
  | construct takes => exact .construct takes

theorem Flow.Keeps.imp {takes other : Option Outcome → Prop} {flow : Except Error Flow}
    (h : Flow.Keeps gives takes flow) (himp : ∀ incoming, takes incoming → other incoming) :
    Flow.Keeps gives other flow := by
  match flow, h with
  | .error error, h => exact h
  | .ok (.push work), ⟨answers, hr, ht⟩ =>
    exact ⟨answers, hr, fun outcome ho => himp _ (ht outcome ho)⟩
  | .ok (.done outcome), h => exact h
  | .ok .yield, h => exact himp none h
  | .ok .wait, h => exact himp none h

namespace Frame

variable {host : Host σ τ} {held : Held} {world : World σ} {gives : Outcome → Prop}

/-- The code in the store can still be evaluated, and the flow keeps to its rules. -/
structure Keeps (gives : Outcome → Prop) (resumed : Frame.Resumed σ τ) : Prop where
  store : resumed.world.store.Fits
  flow : Flow.Keeps gives (fun incoming => resumed.frame.Ready incoming gives) resumed.flow

theorem pollTask_keeps (hh : host.OwnErrors) (hst : world.store.Fits)
    (function : Function) (scope : ScopeId) (task : HostTask τ) :
    Keeps IsValue (pollTask host world function scope task) := by
  have hs := task.safe_poll hh world.context
  refine ⟨hst, ?_⟩
  unfold pollTask
  dsimp only
  cases han : (task.poll host world.context).1 with
  | error error => exact hs.not_internal error han
  | ok answer =>
    cases answer with
    | pending => exact .native ..
    | ready value => exact trivial

theorem resumeNative_keeps (hh : host.OwnErrors) (hs : world.store.Fits)
    (function : Function) (scope : ScopeId) (task : Option (HostTask τ)) :
    Keeps IsValue (resumeNative host held world function scope task) := by
  have har : ∀ parameter, Safe (world.store.argument held scope parameter) := by
    intro parameter
    unfold Store.argument
    split
    · exact .of_ok _
    · exact .of_error (by rintro _ ⟨⟩)
  unfold resumeNative
  split
  · exact pollTask_keeps hh hs ..
  · split
    · exact ⟨hs, Flow.keeps_error fun _ h => nomatch h⟩
    · next provided hp =>
      have hsf := hh.native _ _ provided hp _ har world.context
      dsimp only
      split
      · next error he => exact ⟨hs, hsf.not_internal error he⟩
      · exact ⟨hs, trivial⟩
      · exact @pollTask_keeps σ τ host
          ⟨world.store, (provided (world.store.argument held scope) world.context).2⟩ hh hs
          function scope _

/-- A frame that is resumed with what it waits for keeps to the rules. -/
theorem resume_keeps (hh : host.OwnErrors) (hs : world.store.Fits) {frame : Frame τ}
    (h : frame.Ready incoming gives) :
    Keeps gives (frame.resume host held world incoming) := by
  obtain ⟨store, context⟩ := world
  cases h with
  | node scope fits takes =>
    obtain ⟨hl, hf⟩ := @NodeFrame.resume_keeps _ _ store held scope incoming _ hs fits takes
    exact ⟨hl, hf.imp fun _ ht => .node scope fits ht⟩
  | start takes =>
    obtain ⟨hl, hf⟩ := @Start.resume_keeps store held hs _ incoming takes
    exact ⟨hl, hf.imp fun _ ht => .start ht⟩
  | call takes =>
    obtain ⟨hl, hf⟩ := Call.resume_keeps hs takes
    exact ⟨hl, hf.imp fun _ ht => .call ht⟩
  | native function scope task => exact resumeNative_keeps hh hs ..
  | construct takes =>
    obtain ⟨hl, hf⟩ := @Construction.resume_keeps store held hs _ incoming takes
    exact ⟨hl, hf.imp fun _ ht => .construct ht⟩

end Frame

/-! ## Machines -/

/-- The frames take the outcome; at the bottom of a stack, it is the result of the machine. -/
def Accepts : List (Frame τ) → Outcome → Prop
  | [], outcome => outcome.IsResult
  | frame :: below, outcome =>
    ∃ gives, frame.Ready (some outcome) gives ∧ ∀ later, gives later → Accepts below later

namespace Machine

variable {host : Host σ τ} {outside : Held} {world : World σ} {machine : Machine τ}

/-- The frame on top can be resumed with what comes in, and each frame takes what the frame
above it gives. -/
def Ready (machine : Machine τ) : Prop :=
  match machine.stack.frames with
  | [] => True
  | frame :: below =>
    ∃ gives, frame.Ready machine.incoming gives ∧ ∀ outcome, gives outcome → Accepts below outcome

/-- The code in the store can still be evaluated, and a machine that has not failed can go
on. -/
structure Keeps (moved : Moved σ τ (Option (Except Error Status))) : Prop where
  store : moved.world.store.Fits
  machine : match moved.stop with
    | some (.error error) => ¬ error.IsInternal
    | _ => moved.machine.Ready

theorem not_isInternal_locate {error : Error} (h : ¬ error.IsInternal) (stack : Stack τ) :
    ¬ (stack.locate error).IsInternal := by
  unfold Stack.locate
  split
  · exact h
  · exact h

theorem follow_keeps {resumed : Frame.Resumed σ τ} {below : Stack τ} (h : Frame.Keeps gives resumed)
    (hb : ∀ outcome, gives outcome → Accepts below.frames outcome) :
    Keeps (follow resumed below) := by
  obtain ⟨frame, world, flow⟩ := resumed
  obtain ⟨hs, hf⟩ := h
  match flow, hf with
  | .error error, he => exact ⟨hs, not_isInternal_locate he _⟩
  | .ok (.push work), ⟨answers, hw, ht⟩ =>
    have hov : ¬ (Error.runtime .stackOverflow).IsInternal :=
      Error.not_isInternal fun _ h => nomatch h
    unfold follow
    dsimp only
    split
    · exact ⟨hs, not_isInternal_locate hov _⟩
    · refine ⟨hs, answers, hw.frame, fun outcome ho => ?_⟩
      exact ⟨gives, ht outcome ho, hb⟩
  | .ok (.done outcome), ho =>
    have hac := hb outcome ho
    obtain ⟨frames, depth, hd⟩ := below
    cases frames with
    | nil =>
      match outcome, hac with
      | .value value, _ => exact ⟨hs, trivial⟩
      | .giveBack value, _ => exact ⟨hs, trivial⟩
    | cons lower rest => exact ⟨hs, hac⟩
  | .ok .yield, hr => exact ⟨hs, gives, hr, hb⟩
  | .ok .wait, hr => exact ⟨hs, gives, hr, hb⟩

/-- A machine that can go on still can after a move, unless it has failed. -/
theorem move_keeps (hh : host.OwnErrors) (hs : world.store.Fits) (h : machine.Ready) :
    Keeps (machine.move host outside world) := by
  obtain ⟨⟨frames, depth, hd⟩, incoming, result⟩ := machine
  cases frames with
  | nil => exact ⟨hs, trivial⟩
  | cons frame below =>
    obtain ⟨gives, hr, hb⟩ := h
    exact follow_keeps (Frame.resume_keeps hh hs hr) hb

/-- In the middle of a step, a machine that can go on still can. -/
theorem goesOn_keeps (hh : host.OwnErrors) {now later : Machine τ × World σ}
    (hmv : Relation.ReflTransGen (GoesOn host outside) now later)
    (hs : now.2.store.Fits) (h : now.1.Ready) : later.2.store.Fits ∧ later.1.Ready := by
  induction hmv with
  | refl => exact ⟨hs, h⟩
  | tail _ hm ih =>
    have hk := @move_keeps σ τ host outside _ _ hh ih.1 ih.2
    rw [hm] at hk
    exact ⟨hk.store, hk.machine⟩

/-- A machine that can go on still can after a step, unless it has failed. -/
theorem step_keeps (hh : host.OwnErrors) {moves : Nat}
    {stopped : Moved σ τ (Except Error Status)} (hst : world.store.Fits) (h : machine.Ready)
    (hs : machine.step host outside moves world = some stopped) :
    Keeps ⟨stopped.machine, stopped.world, some stopped.stop⟩ := by
  obtain ⟨last, before, hm, hl⟩ := moves_of_step hs
  obtain ⟨hf, hr⟩ := goesOn_keeps hh hm hst h
  exact hl ▸ move_keeps hh hf hr

end Machine

/-! ## Indices -/

/-- A node of the kind can have come so far: the stage is one of the kind, no more arguments
are known than the node has, and no more statements are done. -/
def NodeKind.HasStage (kind : NodeKind) (progress : Progress) : Prop :=
  match kind with
  | .binary .. =>
    match progress with
    | .start | .left _ | .both .. => True
    | _ => False
  | .member _ accessed =>
    match progress with
    | .start | .target => True
    | .member _ values _ => values.length ≤ (memberArguments accessed).length
    | _ => False
  | .call _ args | .create _ args =>
    match progress with
    | .start => True
    | .arguments values _ => values.length ≤ args.length
    | _ => False
  | .block body | .file _ body =>
    match progress with
    | .start => True
    | .statements count _ => count ≤ body.length
    | _ => False
  | .assign .. =>
    match progress with
    | .start | .target | .assigning _ => True
    | _ => False
  | .branch .. | .whileLoop .. | .repeatLoop .. =>
    match progress with
    | .start | .condition | .body => True
    | _ => False
  | .forLoop .. =>
    match progress with
    | .start | .first _ | .round _ | .bound _ | .step .. | .rounds .. => True
    | _ => False
  | .waitForUpdate =>
    match progress with
    | .start | .waiting _ => True
    | _ => False
  | _ => progress = .start

/-- A frame of a node has come no further than the node goes. -/
def Frame.InRange : Frame τ → Prop
  | .node frame => frame.node.kind.HasStage frame.progress
  | _ => True

theorem NodeFrame.Takes.hasStage {role : Role} {kind : NodeKind} {progress : Progress}
    (h : Takes role kind progress incoming) :
    kind.HasStage progress := by
  cases kind
  case member =>
      cases progress with
      | start | target => trivial
      | member _ values calling => exact h.2.1
      | _ => exact h.elim
  case call | create =>
      cases progress with
      | start => trivial
      | arguments values calling => exact h.2.1
      | _ => exact h.elim
  case block | file =>
      cases progress with
      | start => trivial
      | statements count last => exact h.2.1
      | _ => exact h.elim
  case giveBack value => cases value <;> exact h.1
  case binary | assign | branch | whileLoop | repeatLoop | forLoop | waitForUpdate =>
      cases progress <;> first | exact trivial | exact h.elim
  all_goals exact h.1

theorem Frame.Ready.inRange {frame : Frame τ} (h : frame.Ready incoming gives) : frame.InRange := by
  cases h with
  | node scope fits takes => exact takes.hasStage
  | _ => trivial

/-- A frame finishes with something, so that what it waits for says something about the frame
below it. -/
theorem Frame.Ready.exists_outcome {frame : Frame τ} (h : frame.Ready incoming gives) :
    ∃ outcome, gives outcome := by
  cases h with
  | node => exact ⟨.value .none, Outcome.suits_value ..⟩
  | construct => exact ⟨.value (.object default), trivial⟩
  | _ => exact ⟨.value .none, trivial⟩

theorem Accepts.inRange {frames : List (Frame τ)} {outcome : Outcome}
    (h : Accepts frames outcome) : ∀ frame ∈ frames, frame.InRange := by
  induction frames generalizing outcome with
  | nil => simp
  | cons top below ih =>
    obtain ⟨gives, hr, hb⟩ := h
    obtain ⟨later, hl⟩ := hr.exists_outcome
    intro frame hf
    rcases List.mem_cons.mp hf with rfl | hlw
    · exact hr.inRange
    · exact ih (hb later hl) frame hlw

theorem Machine.Ready.inRange {machine : Machine τ} (h : machine.Ready) :
    ∀ frame ∈ machine.stack.frames, frame.InRange := by
  unfold Machine.Ready at h
  split at h
  · next hf => simp [hf]
  · next top below hf =>
    obtain ⟨gives, hr, hb⟩ := h
    obtain ⟨outcome, ho⟩ := hr.exists_outcome
    intro frame hfr
    rcases List.mem_cons.mp (hf ▸ hfr) with rfl | hl
    · exact hr.inRange
    · exact (hb outcome ho).inRange frame hl

/-! ## Systems -/

theorem Store.Fits.endFrame (h : store.Fits) (program : Program) :
    (program.endFrame store).Fits := by
  refine Draft.fits_foldl (h.withState (fun _ => program.refs) program.root fun state =>
    (state.waiters, { state with waiters := [] })) ?_
  intro ticket _ store hs
  exact hs.of_eq rfl rfl

theorem Machine.ready_ofCode {code : Code} (hs : store.Fits) (hc : code.Fits) (held : Held)
    (scope : ScopeId) :
    (Machine.ofCode store held code scope : Machine τ).Ready :=
  ⟨IsValue, .start (Start.ofCode_takes hs hc scope), fun outcome ho => by
    cases outcome <;> trivial⟩

theorem Machine.ready_ofCall {function : Function} (hf : function.Fits)
    (args : List Constant) (parent : ScopeId) :
    (Machine.ofCall function args parent : Machine τ).Ready :=
  ⟨IsValue, .call ⟨hf, rfl⟩, fun outcome ho => by cases outcome <;> trivial⟩

namespace System

variable {host : Host σ τ} {system next : System σ τ}

/-- All the code of the system can be evaluated, and all its machines can go on. -/
structure Sound (system : System σ τ) : Prop where
  store : system.store.Fits
  units : ∀ code ∈ system.units, code.Fits
  machines : ∀ machine ∈ system.running, machine.Ready

theorem sound_start {library sources : List Source} {program : Program}
    (h : Program.build library sources = .ok (program, store)) (context : Context σ) :
    (start program store context : System σ τ).Sound := by
  have he : ({} : Store).Fits := ⟨by simp, by simp⟩
  obtain ⟨hs, hc⟩ := @Program.register_fits _ (Store.newGlobal {}).1
    (library ++ sources) he.newGlobal
  unfold Program.build at h
  dsimp only at h
  split at h
  · cases h
  · next code after hr =>
    rw [hr] at hs hc
    cases h
    exact ⟨hs, by simpa [start] using hc code rfl, by simp [start]⟩

/-- What is left of a machine after its turn can go on. -/
theorem ready_of_remaining {stopped : Machine.Moved σ τ (Except Error Status)}
    (h : Machine.Keeps ⟨stopped.machine, stopped.world, some stopped.stop⟩) :
    ∀ machine ∈ stopped.remaining, machine.Ready := by
  have hm := h.machine
  intro machine hmem
  obtain ⟨rfl, hs | hs⟩ := Machine.Moved.of_mem_remaining hmem
  · rw [hs] at hm
    exact hm
  · rw [hs] at hm
    exact hm

theorem Step.sound (hh : host.OwnErrors) (h : Step host system next) (hsn : system.Sound) :
    next.Sound := by
  obtain ⟨hs, hu, hm⟩ := hsn
  cases h with
  | register sources =>
    obtain ⟨hl, hc⟩ := @Program.register_fits _ system.program.root sources hs
    refine ⟨hl, ?_, hm⟩
    intro code hmem
    rcases List.mem_append.mp hmem with hold | hnew
    · exact hu code hold
    · cases han : (Program.register system.store system.program.root sources).1 with
      | error error => simp [han, Except.toOption] at hnew
      | ok registered =>
        obtain rfl : code = registered := by simpa [han, Except.toOption] using hnew
        exact hc code han
  | «begin» accepted =>
    have hr := Machine.ready_ofCode (τ := τ) hs (hu _ accepted)
      (fun _ => system.program.refs) system.program.root
    refine ⟨hs, hu, List.forall_mem_append.mpr ⟨hm, ?_⟩⟩
    exact List.forall_mem_singleton.mpr hr
  | call declared known =>
    have hf := (hs.scope _).functions.get? declared
    refine ⟨hs, hu, List.forall_mem_append.mpr ⟨hm, ?_⟩⟩
    exact List.forall_mem_singleton.mpr (Machine.ready_ofCall hf ..)
  | turn running covers stepped =>
    rw [running, List.forall_mem_append, List.forall_mem_cons] at hm
    obtain ⟨hb, hmc, haf⟩ := hm
    have hk := Machine.step_keeps hh hs hmc stepped
    refine ⟨hk.store, hu, ?_⟩
    refine List.forall_mem_append.mpr ⟨?_, haf⟩
    exact List.forall_mem_append.mpr ⟨hb, ready_of_remaining hk⟩
  | drop fewer forgotten => exact ⟨hs, hu, fun machine hmc => hm machine (fewer.subset hmc)⟩
  | endFrame => exact ⟨hs.endFrame _, hu, hm⟩
  | surroundings context => exact ⟨hs, hu, hm⟩

theorem Reachable.sound (hh : host.OwnErrors) (h : Reachable host system) : system.Sound := by
  induction h with
  | build built context => exact sound_start built context
  | step _ hs ih => exact hs.sound hh ih

/-- No machine of a program ever fails internally, whatever has happened to the program; and in
every move, each of its frames has come no further than its node goes. -/
theorem Reachable.never_fails_internally (hhost : host.OwnErrors) (h : Reachable host system)
    {machine : Machine τ} (hrunning : machine ∈ system.running) (outside : Held) :
    (∀ moves stopped error, machine.step host outside moves system.world = some stopped →
        stopped.stop = .error error → ¬ error.IsInternal) ∧
      ∀ later, Relation.ReflTransGen (Machine.GoesOn host outside) (machine, system.world) later →
        ∀ frame ∈ later.1.stack.frames, frame.InRange := by
  obtain ⟨hstore, -, hmachines⟩ := h.sound hhost
  have hready := hmachines machine hrunning
  constructor
  · intro moves stopped error hstep herror
    have hkeeps := (Machine.step_keeps hhost hstore hready hstep).machine
    rw [herror] at hkeeps
    exact hkeeps
  · intro later hmoves
    exact (Machine.goesOn_keeps hhost hmoves hstore hready).2.inRange

/-- A source that leaves a loop. -/
def leavingSource : Source := ⟨"leave", "while true do\n    break\nend\n"⟩

set_option maxRecDepth 20000 in
/-- The machine of such a source does not fail internally. -/
theorem Reachable.never_fails_internally_leaving :
    ∃ program store, Program.build [] [leavingSource] = .ok (program, store) ∧
      ∀ moves stopped error,
        (program.machine store).step Standard.host (fun _ => program.refs) moves
            (⟨store, { state := () }⟩ : World Unit) = some stopped →
          stopped.stop = .error error → ¬ error.IsInternal := by
  have hbuilds : (Program.build [] [leavingSource]).isOk = true := by cbv
  cases hbuilt : Program.build [] [leavingSource] with
  | error error => simp [hbuilt, Except.isOk, Except.toBool] at hbuilds
  | ok built =>
    obtain ⟨program, store⟩ := built
    have hunit : program.code ∈
        (start program store { state := () } : System Unit Standard.Sleep).units :=
      List.mem_singleton.mpr rfl
    have hstart : Reachable Standard.host (start program store { state := () }) := .build hbuilt _
    have hreachable := hstart.step (.begin hunit)
    refine ⟨program, store, rfl, ?_⟩
    exact (hreachable.never_fails_internally Standard.ownErrors
      (List.mem_singleton.mpr rfl) fun _ => program.refs).1

end System

end StepScript
