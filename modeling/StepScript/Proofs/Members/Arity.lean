import StepScript.Proofs.Phases.Plans
set_option autoImplicit false

/-!
# Arguments that do not fit

A call whose arguments do not fit the parameters ends before it has done anything
(`Binding.ofArguments_cases`), and so does the creation of an instance if its arguments do not fit
the constructors of the hierarchy (`Construction.ofClass_refuses_iff`).  Nothing else is an arity
error of a call or a creation itself (`System.History.arity_errors_exact`).
-/

namespace StepScript

variable {args : List Constant} {frame : NodeFrame}

/-! ## Parameters -/

/-- The error is an arity error. -/
def Error.IsArity (error : Error) : Prop := error.cause.kind = .arity

/-- The computation fails with an arity error. -/
def FailsByArity {α : Type} (answer : Except Error α) : Prop :=
  ∃ error : Error, answer = .error error ∧ error.IsArity

@[simp] theorem failsByArity_error {α : Type} {error : Error} :
    FailsByArity (.error error : Except Error α) ↔ error.IsArity := by
  simp [FailsByArity]

@[simp] theorem not_failsByArity_ok {α : Type} (answer : α) : ¬ FailsByArity (.ok answer) := by
  simp [FailsByArity]

@[simp] theorem failsByArity_map {α β : Type} {answer : Except Error α} (f : α → β) :
    FailsByArity (answer.map f) ↔ FailsByArity answer := by
  cases answer <;> simp [Except.map]

@[simp] theorem Error.isArity_arity (fault : ArityFault) : (Error.arity fault).IsArity := rfl

@[simp] theorem Error.not_isArity_internal (fault : InternalFault) :
    ¬ (Error.internal fault).IsArity := by
  simp [IsArity, Error.internal, Cause.kind]

theorem not_arity_receivedValue (incoming : Option Outcome) :
    ¬ FailsByArity (Outcome.receivedValue incoming) := by
  unfold Outcome.receivedValue
  split <;> simp

/-- The call has not bound its arguments yet, and they do not fit. -/
def Call.Refused (call : Call) : Prop :=
  ∃ args, call.stage = .bind args ∧ Refuses call.function.params args

/-- A call fails by itself exactly if its arguments do not fit, and then it has done nothing. -/
theorem Call.resume_arity (call : Call) (store : Store) (incoming : Option Outcome) :
    (FailsByArity (call.resume store incoming).flow ↔ call.Refused) ∧
      (call.Refused → (call.resume store incoming).store = store) := by
  have hf (call : Call) (store : Store) (scope : ScopeId) (left : List (String × Node)) :
      ¬ FailsByArity (call.fillNext store scope left).flow := by
    cases left <;> simp [fillNext]
  have hp (hs : ∀ args, call.stage ≠ .bind args) : ¬ call.Refused := fun ⟨args, hb, _⟩ => hs args hb
  unfold resume
  split
  · next args hs =>
    have hiff : call.Refused ↔ Refuses call.function.params args := by
      simp [Refused, hs]
    rw [hiff]
    rcases Binding.ofArguments_cases (.function call.function.qualifiedName)
        call.function.params args with
      ⟨⟨fault, he, -⟩, hrf⟩ | ⟨⟨bound, hbn⟩, hft⟩
    · rw [he]
      exact ⟨iff_of_true (by simp) hrf, fun _ => rfl⟩
    · rw [hbn]
      exact ⟨iff_of_false (hf _ _ _ _) hft, fun hrf => absurd hrf hft⟩
  · next scope param rest hs =>
    have hnot := hp (by simp [hs])
    refine ⟨iff_of_false ?_ hnot, fun hr => absurd hr hnot⟩
    have hv := not_arity_receivedValue incoming
    split
    · next error he => simpa [he] using hv
    · exact hf _ _ _ _
  · next scope hs =>
    have hnot := hp (by simp [hs])
    refine ⟨iff_of_false ?_ hnot, fun hr => absurd hr hnot⟩
    dsimp only
    split <;> simp
  · next scope hs =>
    have hnot := hp (by simp [hs])
    refine ⟨iff_of_false ?_ hnot, fun hr => absurd hr hnot⟩
    cases incoming with
    | none => simp [Outcome.received]
    | some outcome => cases outcome <;> simp [Outcome.received]

/-! ## Creations -/

/-- The arguments do not fit the hierarchy: there is no constructor for them, they do not fit the
first one, or as many of them as another one has parameters do not fit that one. -/
def RefusesCreation (classes : List Class) (args : List Constant) : Prop :=
  constructors classes = [] ∧ args ≠ [] ∨
    (∃ first, (constructors classes).head? = some first ∧ Refuses first.params args) ∨
    ∃ other ∈ (constructors classes).tail, Refuses other.params (args.take other.params.length)

theorem refused_true_iff {functions : List Function} :
    Refused args true functions ↔
      ∃ other ∈ functions, Refuses other.params (args.take other.params.length) := by
  induction functions with
  | nil => simp [Refused]
  | cons constructor rest ih => simp [Refused, ih]

/-- There are constructors that do not take the arguments, or none at all. -/
theorem refusesCreation_iff {classes : List Class} :
    RefusesCreation classes args ↔
      constructors classes = [] ∧ args ≠ [] ∨ Refused args false (constructors classes) := by
  unfold RefusesCreation
  cases constructors classes with
  | nil => simp [Refused]
  | cons constructor rest => simp [Refused, refused_true_iff]

namespace Construction

variable {store : Store} {held : Held}

/-- A behaviour that a file does not know is no matter of arguments. -/
theorem not_arity_attachments {classes : List Class} :
    ¬ FailsByArity (classes.mapM (attachments store held)) := by
  have hmm {α β : Type} {compute : α → Except Error β} (items : List α)
      (h : ∀ item, ¬ FailsByArity (compute item)) : ¬ FailsByArity (items.mapM compute) := by
    induction items with
    | nil => exact not_failsByArity_ok _
    | cons item rest ih =>
      have hi := h item
      rw [List.mapM_cons]
      generalize compute item = answer at hi
      generalize rest.mapM compute = answers at ih
      cases answer <;> cases answers <;> simp_all [bind, Except.bind, pure, Except.pure]
  refine hmm _ fun declared => hmm _ fun attached => ?_
  obtain ⟨name, token⟩ := attached
  dsimp only
  split
  · simp
  · simp [Error.IsArity, Error.withToken, Error.undefinedName, Cause.kind]

/-- The creation of an instance fails by its arguments exactly if they do not fit the hierarchy. -/
theorem ofClass_refuses_iff (id : ClassId) (args : List Constant) :
    FailsByArity (ofClass store held id args).1 ↔ RefusesCreation (store.ancestry id) args := by
  rw [refusesCreation_iff, Store.ancestry]
  unfold ofClass
  dsimp only
  rcases levels_cases args false ((store.hierarchy id).map store.classAt) with
    ⟨⟨fault, name, he, -⟩, hr⟩ | ⟨⟨planned, hp⟩, ht⟩
  · rw [he]
    exact iff_of_true (by simp) (.inr hr)
  · rw [hp]
    dsimp only
    split
    · next hn => exact iff_of_true (by simp) (.inl (by simpa using hn))
    · next hs =>
      refine iff_of_false ?_ fun hrf => hrf.elim (fun hn => ?_) ht
      · have hac := @not_arity_attachments store held
          ((store.hierarchy id).map store.classAt)
        split
        · next error he => simpa [he] using hac
        · split
          · simp
          · simp
      · simp [hn] at hs

/-- Once an object has been made, its construction has no arguments to take. -/
theorem not_arity_resume {construction : Construction} (h : construction.Attachable)
    (store : Store) (incoming : Option Outcome) :
    ¬ FailsByArity (construction.resume store held incoming).flow := by
  rintro ⟨error, he, har⟩
  have hs : Flow.Settles (construction.resume store held incoming).flow :=
    (resume_goesOn h store incoming).flow
  rw [he] at hs
  rcases hs with ht | hr
  · cases ht.symm.trans har
  · cases hr.symm.trans har

end Construction

/-! ## Nodes -/

/-- The evaluation of a node that the frame stands for. -/
def Frame.evaluation? {τ : Type} : Frame τ → Option NodeFrame
  | .node frame => some frame
  | _ => none

theorem Frame.evaluation?_eq_some_iff {τ : Type} {top : Frame τ} :
    top.evaluation? = some frame ↔ top = .node frame := by
  cases top <;> simp [evaluation?]

namespace NodeFrame

/-- The class and the arguments of a creation whose arguments are all there once the outcome has
come in. -/
def creation? (frame : NodeFrame) (incoming : Option Outcome) : Option (String × List Constant) :=
  match frame.node.kind, takeArgument (knownArguments frame.progress).1
      (knownArguments frame.progress).2 incoming with
  | .create className nodes, .ok (.inl args) =>
    if nodes.length ≤ args.length then some (className, args) else none
  | _, _ => none

/-- The arguments of the creation do not fit the class that its name stands for. -/
def RefusesArguments (frame : NodeFrame) (store : Store) (held : Held)
    (incoming : Option Outcome) : Prop :=
  ∃ className args id, frame.creation? incoming = some (className, args) ∧
    store.class? held frame.scope className = some id ∧
      RefusesCreation (store.ancestry id) args

theorem kind_of_creation {incoming : Option Outcome} {className : String}
    (h : frame.creation? incoming = some (className, args)) :
    ∃ nodes, frame.node.kind = .create className nodes := by
  unfold creation? at h
  split at h
  · next hk _ =>
    split at h
    · exact ⟨_, (Prod.mk.inj (Option.some.inj h)).1 ▸ hk⟩
    · cases h
  · cases h

theorem not_arity_takeArgument (values : List Constant) (calling : Bool)
    (incoming : Option Outcome) : ¬ FailsByArity (takeArgument values calling incoming) := by
  have hv := not_arity_receivedValue incoming
  unfold takeArgument
  split
  · simp
  · next outcome =>
    split
    · simp
    · generalize Outcome.receivedValue (some outcome) = answer at hv
      rwa [failsByArity_map]

theorem resume_arity_of_create {className : String} {nodes : List Node}
    (hk : frame.node.kind = .create className nodes) (store : Store) (held : Held)
    (incoming : Option Outcome) :
    (FailsByArity (frame.resume store held incoming).flow ↔
        frame.RefusesArguments store held incoming) ∧
      (frame.RefusesArguments store held incoming →
        (frame.resume store held incoming).store = store) := by
  have ht := not_arity_takeArgument (knownArguments frame.progress).1
    (knownArguments frame.progress).2 incoming
  unfold resume RefusesArguments creation?
  rw [hk]
  dsimp only [create]
  split
  · next error he => simpa [he] using ht
  · next outcome ho => simp [ho]
  · next args har =>
    simp only [har]
    split
    · next node hn =>
      have hm := (List.getElem?_eq_some_iff.mp hn).1
      simp [Nat.not_le_of_lt hm]
    · next hnn =>
      have hall := List.getElem?_eq_none_iff.mp hnn
      simp only [if_pos hall, Option.some.injEq, Prod.mk.injEq]
      split
      · next hc => split <;> simp [Error.IsArity, Cause.kind, Error.type, Error.undefinedName, hc]
      · next id hc =>
        have hrf := @Construction.ofClass_refuses_iff store held id args
        simp only [failsByArity_map, hrf]
        refine ⟨by simp [hc], ?_⟩
        rintro ⟨_, _, found, ⟨rfl, rfl⟩, hf, hr⟩
        obtain rfl := Option.some.inj (hc.symm.trans hf)
        rcases Construction.ofClass_cases store held id args with
          ⟨error, he⟩ | ⟨_, construction, later, hok, -⟩
        · rw [he]
        · rw [← hrf, hok] at hr
          exact absurd hr (not_failsByArity_ok _)

theorem access_store (member : Node) (scope : ScopeId) (store : Store) (held : Held)
    (target : ScopeId) (values : List Constant) (calling : Bool) (incoming : Option Outcome) :
    (access member scope store held target values calling incoming).store = store := by
  unfold access
  repeat' split
  all_goals rfl

/-- Up to its call, a node that calls a function or a method evaluates arguments only. -/
theorem resume_store_of_call (store : Store) (held : Held) (incoming : Option Outcome)
    (h : (∃ name nodes, frame.node.kind = .call name nodes) ∨
      ∃ target member, frame.node.kind = .member target member) :
    (frame.resume store held incoming).store = store := by
  unfold resume
  rcases h with ⟨name, nodes, hk⟩ | ⟨target, member, hk⟩
  · rw [hk]
    dsimp only [call]
    repeat' split
    all_goals rfl
  · rw [hk]
    dsimp only [memberAccess]
    repeat' split
    all_goals first | rfl | exact access_store ..

end NodeFrame

/-! ## Machines -/

namespace Machine

variable {σ τ : Type} {host : Host σ τ} {outside : Held} {machine : Machine τ} {world : World σ}

/-- The next move of the machine fails with an arity error exactly under the condition, and then it
changes nothing. -/
def RefusesExactly (host : Host σ τ) (outside : Held) (machine : Machine τ) (world : World σ)
    (condition : Prop) : Prop :=
  ((∃ error, (machine.move host outside world).stop = some (.error error) ∧ error.IsArity) ↔
      condition) ∧
    (condition → (machine.move host outside world).world = world)

theorem isArity_locate {stack : Stack τ} {error : Error} :
    (stack.locate error).IsArity ↔ error.IsArity := by
  unfold Stack.locate
  split <;> rfl

theorem move_of_top (host : Host σ τ) (outside : Held) (world : World σ) {frame : Frame τ}
    {below : List (Frame τ)} (htop : machine.stack.frames = frame :: below) :
    ∃ rest, machine.move host outside world = follow (frame.resume host
      (fun _ => outside () ++ machine.refs host) world machine.incoming) rest := by
  obtain ⟨⟨frames, depth, hd⟩, incoming, result⟩ := machine
  obtain rfl : frames = frame :: below := htop
  exact ⟨_, rfl⟩

/-- A move fails as the frame on top does. -/
theorem follow_arity (resumed : Frame.Resumed σ τ) (below : Stack τ) :
    (∃ error, (follow resumed below).stop = some (.error error) ∧ error.IsArity) ↔
      FailsByArity resumed.flow := by
  obtain ⟨frame, world, flow⟩ := resumed
  unfold follow
  dsimp only
  split
  · simp [isArity_locate]
  · have ho : ¬ (Error.runtime .stackOverflow).IsArity := by
      simp [Error.IsArity, Error.runtime, Cause.kind]
    split <;> simp [isArity_locate, ho]
  · next outcome =>
    split
    · cases outcome <;> simp [Start.outcomeValue]
    · simp
  · simp
  · simp

theorem refusesExactly {frame : Frame τ} {below : List (Frame τ)} {condition : Prop}
    (htop : machine.stack.frames = frame :: below)
    (hf : FailsByArity (frame.resume host (fun _ => outside () ++ machine.refs host) world
      machine.incoming).flow ↔ condition)
    (hw : condition → (frame.resume host (fun _ => outside () ++ machine.refs host) world
      machine.incoming).world = world) :
    machine.RefusesExactly host outside world condition := by
  obtain ⟨rest, hm⟩ := move_of_top host outside world htop
  unfold RefusesExactly
  rw [hm, follow_arity, follow_world]
  exact ⟨hf, hw⟩

end Machine

/-! ## Histories -/

namespace System

variable {σ τ : Type} {host : Host σ τ} {system : System σ τ} {moves : List (Move σ τ)}

/-- **Arguments that do not fit.**  A machine fails with an arity error at a call exactly if the
arguments do not fit the parameters, and at a creation exactly if they do not fit the constructors of
the hierarchy.  Either way its world is the one that it found when the last argument came in, since a
call is begun without a change to it.  However a system has got where it is, an object whose
construction has begun has no more arguments to refuse. -/
theorem History.arity_errors_exact (h : History host moves system) {machine : Machine τ}
    {top : Frame τ} {below : List (Frame τ)} (htop : machine.stack.frames = top :: below)
    (outside : Held) (world : World σ) :
    (∀ call, top = .call call →
      machine.RefusesExactly host outside world call.Refused) ∧
    (∀ frame, top = .node frame →
      ((∃ name nodes, frame.node.kind = .call name nodes) ∨
        ∃ target member, frame.node.kind = .member target member) →
      (machine.move host outside world).world = world) ∧
    (∀ frame className nodes, top = .node frame → frame.node.kind = .create className nodes →
      machine.RefusesExactly host outside world
        (frame.RefusesArguments world.store (fun _ => outside () ++ machine.refs host)
          machine.incoming)) ∧
    (machine ∈ system.running → ∀ construction, top = .construct construction →
      machine.RefusesExactly host outside world False) := by
  refine ⟨?_, ?_, ?_, ?_⟩
  · rintro call rfl
    obtain ⟨hflow, hstore⟩ := call.resume_arity world.store machine.incoming
    exact Machine.refusesExactly htop hflow fun hrefused =>
      congrArg (World.mk · world.context) (hstore hrefused)
  · rintro frame rfl hkind
    obtain ⟨rest, hmove⟩ := Machine.move_of_top host outside world htop
    rw [hmove, Machine.follow_world]
    exact congrArg (World.mk · world.context) (NodeFrame.resume_store_of_call _ _ _ hkind)
  · rintro frame className nodes rfl hkind
    obtain ⟨hflow, hstore⟩ := NodeFrame.resume_arity_of_create hkind world.store
      (fun _ => outside () ++ machine.refs host) machine.incoming
    exact Machine.refusesExactly htop hflow fun hrefused =>
      congrArg (World.mk · world.context) (hstore hrefused)
  · rintro hrunning construction rfl
    have hattachable := (h.inPlace.inOrder.machines machine hrunning).attachable _
      (htop ▸ List.mem_cons_self)
    exact Machine.refusesExactly htop
      (iff_of_false (Construction.not_arity_resume hattachable _ _) id) False.elim

/-- A source that creates an instance of a class whose base takes one more argument. -/
def strictFiles : List Node :=
  (Grammar.parseText ("class A\nconstructor(x, y)\nend\nend\nclass B of type A\nconstructor(x)\n" ++
    "end\nend\nnew B(True)\n") "strict").toOption.toList

/-- The source runs, and its machine has evaluated the argument. -/
def strictSystem : System Unit Standard.Sleep :=
  (advance Standard.host)^[10] (launch strictFiles { state := () })

/-- The creation is refused, since the constructor of the base lacks an argument. -/
theorem History.arity_errors_exact_strict :
    ∃ moves, History Standard.host moves strictSystem ∧ ∃ machine ∈ strictSystem.running,
      ∃ error, (machine.move Standard.host (fun _ => []) strictSystem.world).stop
          = some (.error error) ∧ error.IsArity ∧
        (machine.move Standard.host (fun _ => []) strictSystem.world).world = strictSystem.world := by
  have hhistory : History Standard.host _ strictSystem :=
    (History.launch (by decide +kernel)).advance 10
  have hgiven : ((do
      let machine ← strictSystem.running.head?
      let frame ← machine.stack.frames.head?.bind Frame.evaluation?
      let (className, args) ← frame.creation? machine.incoming
      let id ← strictSystem.store.class?
        (fun _ => [] ++ machine.refs (Standard.host : Host Unit _)) frame.scope className
      return (args, id)) : Option (List Constant × ClassId)) = some ([.boolean true], ⟨1⟩) := by
    decide +kernel
  simp only [Option.bind_eq_bind, Option.bind_eq_some_iff, Frame.evaluation?_eq_some_iff] at hgiven
  obtain ⟨machine, hrunning, frame, ⟨top, htop, rfl⟩, ⟨className, args⟩, hcreation, id, hclass,
    hanswer⟩ := hgiven
  obtain ⟨rfl, rfl⟩ := Prod.mk.inj (Option.some.inj hanswer)
  obtain ⟨below, hframes⟩ := List.head?_eq_some_iff.mp htop
  obtain ⟨nodes, hkind⟩ := NodeFrame.kind_of_creation hcreation
  have hmachine := List.mem_of_head? hrunning
  obtain ⟨-, -, hcreate, -⟩ := hhistory.arity_errors_exact hframes (fun _ => [])
    strictSystem.world
  obtain ⟨hfails, hworld⟩ := hcreate frame className nodes rfl hkind
  have hrefused : frame.RefusesArguments strictSystem.store
      (fun _ => [] ++ machine.refs (Standard.host : Host Unit _)) machine.incoming :=
    ⟨className, _, _, hcreation, hclass, .inr (.inr (by decide +kernel))⟩
  obtain ⟨error, hstop, harity⟩ := hfails.mpr hrefused
  exact ⟨_, hhistory, machine, hmachine, error, hstop, harity, hworld hrefused⟩

end System

end StepScript
