import StepScript.Store.Basic
set_option autoImplicit false

/-!
# What is still alive

Two links of the store do not keep alive what they lead to: the scope of a behaviour
does not keep its owner, and a level of an object does not keep the object.  Such a
link leads somewhere only as long as something else holds its end.

A scope or an object is alive while something holds it: the running program from
outside the store, a class, or another scope or object that is alive.  Things that
hold each other in a ring stay alive together.  So what is alive is what remains when,
again and again, everything that nothing holds is taken away.
-/

namespace StepScript

inductive Ref where
  | scope (id : ScopeId)
  | object (object : ObjectRef)
  deriving DecidableEq, Repr, Inhabited

/-- What is held from outside the store.  It is only computed when a link that does not
keep its end alive is followed. -/
abbrev Held : Type := Unit → List Ref

def Constant.refs : Constant → List Ref
  | .object held => [.object held]
  | _ => []

def Function.refs (function : Function) : List Ref := function.home.toList.map .scope

/-- The objects that a frame updates are held. -/
def UpdateTarget.refs : UpdateTarget → List Ref
  | .ofClass _ => []
  | .ofObject object => [.object object]

def GlobalState.refs (state : GlobalState) : List Ref :=
  (state.pre ++ state.normal ++ state.post).flatMap UpdateTarget.refs
    ++ state.files.entries.map .scope

def Scope.refs (scope : Scope) : List Ref :=
  (match scope.parent with
    | some (.strong parent) => [.scope parent]
    | _ => [])
    ++ scope.delegate.toList.map .scope
    ++ scope.values.entries.flatMap Constant.refs
    ++ scope.functions.entries.flatMap Function.refs
    ++ scope.attached.map .object
    ++ (match scope.state with
      | some state => state.refs
      | none => [])

def Object.refs (object : Object) : List Ref :=
  object.scopes.map .scope ++ object.behaviours.map .object

namespace Store

def refsOf (store : Store) : Ref → List Ref
  | .scope id => (store.scope id).refs
  | .object object => (store.object object).refs

def classRefs (store : Store) : List Ref :=
  store.classes.toList.flatMap fun declared =>
    [.scope declared.sharedScope, .scope declared.home]

def cellCount (store : Store) : Nat := store.scopes.size + store.objects.size

def cell (store : Store) : Ref → Nat
  | .scope id => id.index
  | .object object => store.scopes.size + object.key

/-! ## Reachability -/

/-- Mark the scopes and objects of a front that are not marked yet, and collect what
they hold. -/
def markFront (store : Store) : (front next : List Ref) → (marks : Array Bool) →
    List Ref × Array Bool
  | [], next, marks => (next, marks)
  | ref :: front, next, marks =>
    let place := store.cell ref
    if marks.getD place true then store.markFront front next marks
    else store.markFront front (store.refsOf ref ++ next) (marks.setIfInBounds place true)

/-- The target is reached from a front.  Every round but the last marks something, so
the number of scopes and objects bounds the rounds. -/
def reachesFrom (store : Store) (target : Ref) : (rounds : Nat) → (front : List Ref) →
    (marks : Array Bool) → Bool
  | 0, _, _ => false
  | rounds + 1, front, marks =>
    let (next, marks) := store.markFront front [] marks
    if marks.getD (store.cell target) false then true
    else if next.isEmpty then false
    else store.reachesFrom target rounds next marks

/-- The target is among the roots, or held by something that is reached from them. -/
def reaches (store : Store) (roots : List Ref) (target : Ref) : Bool :=
  store.reachesFrom target (store.cellCount + 1) roots
    (Array.replicate store.cellCount false)

/-! ## Counting holders -/

def countRefs (store : Store) (refs : List Ref) (counts : Array Nat) : Array Nat :=
  refs.foldl (fun counts ref => counts.modify (store.cell ref) (· + 1)) counts

def holderCounts (store : Store) (held : List Ref) : Array Nat :=
  let counts := store.countRefs (held ++ store.classRefs)
    (Array.replicate store.cellCount 0)
  let counts := store.scopes.foldl (fun counts scope => store.countRefs scope.refs counts) counts
  store.objects.foldl (fun counts object => store.countRefs object.refs counts) counts

/-- Take a holder away from each of the scopes and objects, and collect those that are
left without one. -/
def dropRefs (store : Store) : (refs dead : List Ref) → (counts : Array Nat) →
    List Ref × Array Nat
  | [], dead, counts => (dead, counts)
  | ref :: refs, dead, counts =>
    let place := store.cell ref
    let left := counts.getD place 0 - 1
    store.dropRefs refs (if left = 0 then ref :: dead else dead)
      (counts.setIfInBounds place left)

/-- Take away everything without a holder.  Each thing is taken away once at most, so
the number of scopes and objects bounds the steps. -/
def peel (store : Store) : (steps : Nat) → (dead : List Ref) → (counts : Array Nat) →
    Array Nat
  | 0, _, counts => counts
  | _ + 1, [], counts => counts
  | steps + 1, ref :: dead, counts =>
    let (dead, counts) := store.dropRefs (store.refsOf ref) dead counts
    store.peel steps dead counts

def allRefs (store : Store) : List Ref :=
  (List.range store.scopes.size).map (fun index => .scope ⟨index⟩)
    ++ (List.range store.objects.size).map (fun key => .object ⟨key, "", 0⟩)

def remains (store : Store) (held : List Ref) (target : Ref) : Bool :=
  let counts := store.holderCounts held
  let dead := store.allRefs.filter fun ref => counts.getD (store.cell ref) 0 == 0
  (store.peel store.cellCount dead counts).getD (store.cell target) 0 != 0

/-- The scope or object is alive.  What is reached from a root always remains; the
search for it comes first because it mostly ends the question early. -/
def alive (store : Store) (held : Held) (target : Ref) : Bool :=
  store.reaches store.classRefs target || store.reaches (held ()) target
    || store.remains (held ()) target

end Store

end StepScript
