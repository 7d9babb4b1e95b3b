import StepScript.Proofs.System.Attaching
import StepScript.Proofs.System.Basic
set_option autoImplicit false

/-!
# What nodes do

A node that is resumed ends, pauses or fails, or gives one piece of work away: a part of its own, a
function that it has found or the construction of an instance.  It writes at most one variable, it
goes on with scopes that it knew or has found, and it never fails with an attachment fault
(`NodeFrame.resume_does`).
-/

namespace StepScript

/-- The scopes that the progress of a node refers to. -/
def Progress.scopes : Progress → List ScopeId
  | .member scope _ _ | .first scope | .round scope | .bound scope | .step scope _
  | .test scope _ _ | .rounds scope _ _ => [scope]
  | .assigning scope => scope.toList
  | .start | .left _ | .both .. | .target | .arguments .. | .statements .. | .condition | .body
  | .waiting _ => []

/-- The flow gives nothing away, and is no attachment fault. -/
def Flow.Rests : Except Error Flow → Prop
  | .error error => ¬ error.IsAttachmentFault
  | .ok (.push _) => False
  | .ok _ => True

theorem FaultFree.rests {α : Type} {answer : Except Error α} (h : FaultFree answer)
    (outcome : α → Outcome) : Flow.Rests (answer.map fun value => .done (outcome value)) := by
  cases answer with
  | error error => exact h.not_fault error rfl
  | ok value => trivial

namespace NodeFrame

section

variable (scope : ScopeId) (progress : Progress) (store : Store) (held : Held)

/-- The scope is one that the node knew, or that it has found members in. -/
def Knows (place : ScopeId) : Prop :=
  place ∈ progress.scopes ∨ (∃ value, memberScope store value = .ok place) ∨
    ∃ name, typeScope store held scope name = .ok place

/-- The node writes one variable at most. -/
inductive Writes : Store → Prop where
  | nothing : Writes store
  | assigned (name : String) (value : Constant) : Writes (store.setVariable held scope name value)
  | member {place : ScopeId} (known : place ∈ progress.scopes) (name : String) (value : Constant) :
      Writes (store.setMember held place name value)
  | own {place : ScopeId} (known : place ∈ progress.scopes) (name : String) (value : Constant) :
      Writes (store.setOwn place name value)

/-- All that a node does when it is resumed. -/
inductive Does : Resumed Progress → Prop where
  | rests {next : Progress} {later : Store} {flow : Except Error Flow}
      (writes : Writes scope progress store held later) (rests : Flow.Rests flow)
      (knows : ∀ place ∈ next.scopes, Knows scope progress store held place) :
      Does ⟨next, later, flow⟩
  | evaluates {next : Progress} {later : Store} {place : ScopeId} (part : Node)
      (writes : Writes scope progress store held later) (here : place ∈ scope :: progress.scopes)
      (knows : ∀ place ∈ next.scopes, Knows scope progress store held place) :
      Does ⟨next, later, .ok (.push (.node part place))⟩
  | calls {next : Progress} {function : Function} {found : ScopeId} (values : List Constant)
      (finds : ∃ start name, store.function? held start name = some (function, found) ∨
        store.memberFunction? held start name = some (function, found))
      (knows : ∀ place ∈ next.scopes, Knows scope progress store held place) :
      Does ⟨next, store, .ok (.push (.call
        (.ofArguments function values (function.callParent found))))⟩
  | creates {name : String} {id : ClassId} (values : List Constant)
      (finds : store.class? held scope name = some id) :
      Does ⟨.arguments [] true, (Construction.ofClass store held id values).2,
        (Construction.ofClass store held id values).1.map fun begun => .push (.construct begun)⟩
  | enters (part : Node) :
      Does ⟨.first ⟨store.scopes.size⟩, (store.newScope .generic scope).2,
        .ok (.push (.node part scope))⟩
  | waits :
      Does ⟨.waiting store.newTicket.1, store.newTicket.2.modifyState held scope fun state =>
        { state with waiters := state.waiters ++ [store.newTicket.1] }, .ok .wait⟩

end

variable {store : Store} {held : Held} {scope : ScopeId} {progress : Progress}
  {incoming : Option Outcome}

/-- The node keeps its progress, and with it the scopes that it knows. -/
theorem knows_same : ∀ place ∈ progress.scopes, Knows scope progress store held place :=
  fun _ hp => .inl hp

theorem knows_none {next : Progress} (h : next.scopes = []) :
    ∀ place ∈ next.scopes, Knows scope progress store held place := by
  intro place hp
  rw [h] at hp
  cases hp

theorem knows_one {next : Progress} {place : ScopeId} (hn : next.scopes = [place])
    (hp : Knows scope progress store held place) :
    ∀ place ∈ next.scopes, Knows scope progress store held place := by
  intro other ho
  rw [hn, List.mem_singleton] at ho
  exact ho ▸ hp

namespace Does

/-- The node evaluates a part of it in its own scope. -/
theorem part {next : Progress} (node : Node) (h : next.scopes = []) :
    Does scope progress store held ⟨next, store, .ok (.push (.node node scope))⟩ :=
  .evaluates node .nothing List.mem_cons_self (knows_none h)

theorem rest {next : Progress} {flow : Except Error Flow} (hr : Flow.Rests flow)
    (h : next.scopes = []) : Does scope progress store held ⟨next, store, flow⟩ :=
  .rests .nothing hr (knows_none h)

theorem fail {α : Type} {answer : Except Error α} {error : Error} {next : Progress}
    (h : FaultFree answer) (he : answer = .error error)
    (hk : ∀ place ∈ next.scopes, Knows scope progress store held place) :
    Does scope progress store held ⟨next, store, .error error⟩ :=
  .rests .nothing (h.not_fault error he) hk

end Does

/-! ## Expressions -/

theorem unary_does (op : UnaryOp) (operand : Node) :
    Does scope progress store held (unary op operand scope store incoming) := by
  unfold unary
  split
  · exact .part _ rfl
  · next received =>
    refine .rest ?_ rfl
    have hv := Outcome.faultFree_receivedValue (some received)
    cases hr : Outcome.receivedValue (some received) with
    | error error => exact hv.not_fault error hr
    | ok value => exact (op.ordinary_apply value).faultFree.rests _

theorem binary_does (op : BinaryOp) (lhs rhs : Node) :
    Does scope progress store held (binary op lhs rhs scope store progress incoming) := by
  unfold binary
  split
  · exact .rests .nothing ((op.ordinary_apply _ _).faultFree.rests _) knows_same
  · split
    · next he => exact .fail (Outcome.faultFree_receivedValue _) he knows_same
    · exact .rest trivial rfl
  · exact .part _ rfl
  · split
    · next he => exact .fail (Outcome.faultFree_receivedValue _) he knows_same
    · exact .part _ rfl
  · exact .part _ rfl

theorem faultFree_takeArgument (values : List Constant) (calling : Bool)
    (incoming : Option Outcome) : FaultFree (takeArgument values calling incoming) := by
  unfold takeArgument
  split
  · exact .of_ok _
  · split
    · exact .of_ok _
    · exact (Outcome.faultFree_receivedValue _).bind fun _ => .of_ok _

theorem access_does (member : Node) {target : ScopeId}
    (ht : Knows scope progress store held target) (values : List Constant) (calling : Bool)
    (incoming : Option Outcome) :
    Does scope progress store held
      (access member scope store held target values calling incoming) := by
  unfold access
  split
  · refine .rests .nothing ?_ (knows_one rfl ht)
    split
    · trivial
    · exact id
  · refine .rests .nothing ?_ (knows_one rfl ht)
    split
    · trivial
    · exact id
  · split
    · next he => exact .fail (faultFree_takeArgument ..) he (knows_one rfl ht)
    · exact .rests .nothing trivial (knows_one rfl ht)
    · split
      · exact .evaluates _ .nothing List.mem_cons_self (knows_one rfl ht)
      · split
        · exact .rests .nothing id (knows_one rfl ht)
        · next hf => exact .calls _ ⟨_, _, .inr hf⟩ (knows_one rfl ht)
  · exact .rests .nothing id (knows_one rfl ht)

theorem memberAccess_does (target member : Node) :
    Does scope progress store held
      (memberAccess target member scope store held progress incoming) := by
  unfold memberAccess
  split
  · exact access_does member (.inl List.mem_cons_self) _ _ _
  · split
    · next he => exact .fail (Outcome.faultFree_receivedValue _) he (knows_none rfl)
    · split
      · next he => exact .fail (ordinary_memberScope ..).faultFree he (knows_none rfl)
      · next hf => exact access_does member (.inr (.inl ⟨_, hf⟩)) _ _ _
  · split
    · split
      · next he => exact .fail (ordinary_typeScope ..).faultFree he (knows_none rfl)
      · next hf => exact access_does member (.inr (.inr ⟨_, hf⟩)) _ _ _
    · exact .part _ rfl

theorem call_does (name : String) (args : List Node) :
    Does scope progress store held (call name args scope store held progress incoming) := by
  unfold call
  dsimp only
  split
  · next he => exact .fail (faultFree_takeArgument ..) he knows_same
  · exact .rests .nothing trivial knows_same
  · split
    · exact .part _ rfl
    · split
      · exact .rest id rfl
      · next hf => exact .calls _ ⟨_, _, .inl hf⟩ (knows_none rfl)

theorem create_does (className : String) (args : List Node) :
    Does scope progress store held (create className args scope store held progress incoming) := by
  unfold create
  dsimp only
  split
  · next he => exact .fail (faultFree_takeArgument ..) he knows_same
  · exact .rests .nothing trivial knows_same
  · split
    · exact .part _ rfl
    · split
      · refine .rest ?_ rfl
        split <;> exact id
      · next hf => exact .creates _ hf

/-! ## Statements -/

theorem statements_does (body : List Node) :
    Does scope progress store held (statements body scope store progress incoming) := by
  unfold statements
  dsimp only
  split
  · exact .rest trivial rfl
  · exact .rests .nothing trivial knows_same
  · split
    · exact .part _ rfl
    · exact .rest trivial rfl

theorem assignTo_writes (target : Node) (found : Option ScopeId) (value : Constant) :
    Writes scope (.assigning found) store held (assignTo target scope found store held value).2 ∧
      FaultFree (assignTo target scope found store held value).1 := by
  unfold assignTo
  split
  · exact ⟨.assigned _ _, .of_ok _⟩
  · split
    · exact ⟨.member List.mem_cons_self _ _, .of_ok _⟩
    · exact ⟨.nothing, .of_error id⟩
    · exact ⟨.nothing, .of_error id⟩
  · exact ⟨.nothing, .of_error id⟩

theorem assign_does (target value : Node) :
    Does scope progress store held
      (assign target value scope store held progress incoming) := by
  unfold assign
  split
  · next found =>
    split
    · next he => exact .fail (Outcome.faultFree_receivedValue _) he knows_same
    · next result _ =>
      obtain ⟨hw, hff⟩ := assignTo_writes target found result
      exact .rests hw (hff.rests _) knows_same
  · split
    · next he => exact .fail (Outcome.faultFree_receivedValue _) he (knows_none rfl)
    · split
      · next he => exact .fail (ordinary_memberScope ..).faultFree he (knows_none rfl)
      · next hf =>
        exact .evaluates _ .nothing List.mem_cons_self (knows_one rfl (.inr (.inl ⟨_, hf⟩)))
  · split
    · split
      · split
        · next he => exact .fail (ordinary_typeScope ..).faultFree he (knows_none rfl)
        · next hf =>
          exact .evaluates _ .nothing List.mem_cons_self (knows_one rfl (.inr (.inr ⟨_, hf⟩)))
      · exact .part _ rfl
    · exact .part _ rfl

theorem branch_does (condition thenBranch : Node) (elseBranch : Option Node) :
    Does scope progress store held
      (branch condition thenBranch elseBranch scope store progress incoming) := by
  unfold branch
  split
  · cases hr : Outcome.receivedValue incoming with
    | error error => exact .fail (Outcome.faultFree_receivedValue _) hr (knows_none rfl)
    | ok value =>
      dsimp only [bind, Except.bind]
      split
      · exact .part _ rfl
      · split
        · exact .part _ rfl
        · exact .rest trivial rfl
  · exact .rest ((Outcome.faultFree_received _).rests _) rfl
  · exact .part _ rfl

/-! ## Loops -/

theorem whileLoop_does (condition body : Node) :
    Does scope progress store held
      (whileLoop condition body scope store progress incoming) := by
  unfold whileLoop
  split
  · split
    · next he => exact .fail (Outcome.faultFree_receivedValue _) he (knows_none rfl)
    · split
      · exact .part _ rfl
      · exact .rest trivial rfl
  · split
    · next he => exact .fail (Outcome.faultFree_received _) he (knows_none rfl)
    all_goals exact .rest trivial rfl
  · exact .part _ rfl

theorem repeatLoop_does (body condition : Node) :
    Does scope progress store held
      (repeatLoop body condition scope store progress incoming) := by
  unfold repeatLoop
  split
  · split
    · next he => exact .fail (Outcome.faultFree_received _) he (knows_none rfl)
    · exact .rest trivial rfl
    · exact .rest trivial rfl
    · exact .part _ rfl
  · split
    · next he => exact .fail (Outcome.faultFree_receivedValue _) he (knows_none rfl)
    · split <;> exact .rest trivial rfl
  · exact .part _ rfl

theorem beginRound_does {inner : ScopeId} (hp : progress.scopes = [inner]) (var : String)
    (body : Node) (limit step : Constant) :
    Does scope progress store held (beginRound var body inner limit step store held) := by
  have hi : inner ∈ progress.scopes := by simp [hp]
  unfold beginRound
  split
  · next he => exact .fail (ordinary_hasRound ..).faultFree he (knows_one rfl (.inl hi))
  · exact .evaluates _ .nothing (List.mem_cons_of_mem _ hi) (knows_one rfl (.inl hi))
  · exact .rests .nothing trivial (knows_one rfl (.inl hi))

theorem forLoop_does (var : String) (first last : Node) (step : Option Node) (body : Node) :
    Does scope progress store held
      (forLoop var first last step body scope store held progress incoming) := by
  have hn : FaultFree (do
      let value ← Outcome.receivedValue incoming
      let _ ← value.asNumber
      return value : Except Error Constant) :=
    (Outcome.faultFree_receivedValue incoming).bind fun value =>
      value.ordinary_asNumber.faultFree.bind fun _ => .of_ok _
  unfold forLoop
  split
  · split
    · next he => exact .fail hn he knows_same
    · exact .evaluates _ (.own List.mem_cons_self _ _) (.tail _ List.mem_cons_self) knows_same
  · exact .evaluates _ .nothing (.tail _ List.mem_cons_self) knows_same
  · split
    · next he => exact .fail hn he knows_same
    · split
      · exact .evaluates _ .nothing (.tail _ List.mem_cons_self) knows_same
      · exact beginRound_does rfl ..
  · split
    · next he => exact .fail (Outcome.faultFree_receivedValue _) he knows_same
    · exact beginRound_does rfl ..
  · exact beginRound_does rfl ..
  · next inner limit pace =>
    split
    · next he => exact .fail (Outcome.faultFree_received _) he knows_same
    · exact .rests .nothing trivial knows_same
    · exact .rests .nothing trivial knows_same
    · have hnx : Ordinary (do
          let step ← pace.asNumber
          let number ← loopNumber store held inner var
          return number + step : Except Error Float) :=
        pace.ordinary_asNumber.bind fun _ => (ordinary_loopNumber ..).bind fun _ => .of_ok _
      split
      · next he => exact .fail hnx.faultFree he knows_same
      · exact .rests (.own List.mem_cons_self _ _) trivial knows_same
  · exact .enters _

theorem waitForUpdate_does :
    Does scope progress store held (waitForUpdate scope store held progress) := by
  unfold waitForUpdate
  split
  · refine .rests .nothing ?_ knows_same
    split <;> trivial
  · exact .waits

/-! ## All nodes -/

theorem resume_does (frame : NodeFrame) (store : Store) (held : Held)
    (incoming : Option Outcome) :
    Does frame.scope frame.progress store held (frame.resume store held incoming) := by
  unfold resume
  dsimp only
  split
  · exact .rest ((ordinary_variableValue ..).faultFree.rests _) rfl
  · exact .rest trivial rfl
  · exact .rest ((ordinary_typeValue ..).faultFree.rests _) rfl
  · exact unary_does ..
  · exact binary_does ..
  · exact memberAccess_does ..
  · exact call_does ..
  · exact create_does ..
  · exact statements_does ..
  · exact statements_does ..
  · exact assign_does ..
  · exact branch_does ..
  · exact whileLoop_does ..
  · exact repeatLoop_does ..
  · exact forLoop_does ..
  · exact .rest trivial rfl
  · split
    · exact .part _ rfl
    · exact .rest ((Outcome.faultFree_receivedValue _).rests _) rfl
  · exact .rest trivial rfl
  · exact .rest trivial rfl
  · exact waitForUpdate_does
  all_goals exact .rest trivial rfl

end NodeFrame

end StepScript
