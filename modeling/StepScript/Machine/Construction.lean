import StepScript.Machine.Call
set_option autoImplicit false

/-!
# Constructions

An object is constructed in phases: parameters, properties, behaviours, and the bodies
of the constructors, in each phase from the class itself to its last ancestor.  Then it
is registered for updates.
-/

namespace StepScript

namespace Construction

/-! ## Planning -/

/-- One level of a construction: a class of the hierarchy and how the parameters of its
constructor are bound. -/
structure Level where
  declared : Class
  binding : Binding
  deriving Inhabited

/-- Bind the arguments at every level.  The most derived constructor has to take all of
them; the others take as many as they have parameters. -/
def levels (args : List Constant) : (checked : Bool) → List Class →
    Except Error (Bool × List Level)
  | checked, [] => .ok (checked, [])
  | checked, declared :: rest =>
    match declared.members.constructor with
    | none =>
      match levels args checked rest with
      | .error error => .error error
      | .ok (checked, planned) => .ok (checked, ⟨declared, {}⟩ :: planned)
    | some constructor =>
      let given := if checked then args.take constructor.params.length else args
      match Binding.ofArguments (.constructor declared.name) constructor.params given with
      | .error error => .error error
      | .ok binding =>
        match levels args true rest with
        | .error error => .error error
        | .ok (checked, planned) => .ok (checked, ⟨declared, binding⟩ :: planned)

def attachments (store : Store) (held : Held) (declared : Class) :
    Except Error (List Behaviour) :=
  declared.behaviours.mapM fun (name, token) =>
    match store.behaviour? held declared.home name with
    | some behaviour => .ok behaviour
    | none => .error ((Error.undefinedName (.behaviourName name)).withToken token)

/-! ## Allocation -/

/-- Make the scopes of the levels, given with the last ancestor first, under a parent.
The answer has the most derived level first. -/
def levelScopes : (scopes : List ScopeId) → (parent : ScopeId) → List Level → Store →
    List ScopeId × Store
  | scopes, _, [], store => (scopes, store)
  | scopes, parent, level :: rest, store =>
    let (wrapper, store) := store.newWrapper level.declared.sharedScope parent
    let (scope, store) := store.newScope .object wrapper
    let store := store.setFunctions scope level.declared.members.functions
    let store := store.setAllOwn scope level.binding.bound
    levelScopes (scope :: scopes) scope rest store

def instantiate (store : Store) (held : Held) (typeName : String) (classId : Option ClassId)
    (outer : ScopeId) (scopes : List ScopeId) : ObjectRef × Store :=
  let (serial, store) := store.nextSerial held outer
  let (object, store) := store.addObject typeName serial { classId, scopes }
  (object, scopes.foldl (fun store scope => store.setObject scope object) store)

/-! ## Steps -/

def parameterSteps (scope : ScopeId) (binding : Binding) : List ConstructionStep :=
  binding.left.map fun (name, initial) => .parameter scope name initial

def propertySteps (scope : ScopeId) (members : Members) : List ConstructionStep :=
  members.properties.map fun property => .property scope property.name property.initial

def bodySteps (scope : ScopeId) (members : Members) : List ConstructionStep :=
  members.constructor.toList.map fun constructor => .body constructor scope

def classSteps (scopes : List ScopeId) (planned : List Level) (attached : List (List Behaviour)) :
    List ConstructionStep :=
  let placed := scopes.zip planned
  placed.flatMap (fun (scope, level) => parameterSteps scope level.binding)
    ++ [.phase]
    ++ placed.flatMap (fun (scope, level) => propertySteps scope level.declared.members)
    ++ [.phase]
    ++ (scopes.zip attached).flatMap (fun (scope, behaviours) =>
      behaviours.map fun behaviour => .behaviour scope behaviour)
    ++ [.phase]
    ++ placed.flatMap (fun (scope, level) => bodySteps scope level.declared.members)
    ++ [.register]

def ofClass (store : Store) (held : Held) (id : ClassId) (args : List Constant) :
    Except Error Construction × Store :=
  let hierarchy := (store.hierarchy id).map store.classAt
  let name := (store.classAt id).name
  match levels args false hierarchy with
  | .error error => (.error error, store)
  | .ok (checked, planned) =>
    if !checked && !args.isEmpty then
      (.error (.arity (.noConstructor name args.length)), store)
    else
      match hierarchy.mapM (attachments store held) with
      | .error error => (.error error, store)
      | .ok attached =>
        match hierarchy.getLast? with
        | none => (.error (.internal .emptyHierarchy), store)
        | some base =>
          let (scopes, store) := levelScopes [] base.home planned.reverse store
          let (object, store) :=
            instantiate store held name (some id) (scopes.headD base.home) scopes
          let steps := classSteps scopes planned attached
          (.ok { object, steps }, store)

/-- How the parameters of the constructor of a behaviour are bound, which gets no
arguments. -/
def behaviourBinding (behaviour : Behaviour) : Except Error Binding :=
  match behaviour.members.constructor with
  | some constructor =>
    Binding.ofArguments (.behaviourConstructor behaviour.name) constructor.params []
  | none => .ok {}

def ofBehaviour (store : Store) (held : Held) (behaviour : Behaviour) (owner : ObjectRef) :
    Except Error Construction × Store :=
  match behaviourBinding behaviour, store.outerScope? owner with
  | .error error, _ => (.error error, store)
  | .ok _, none => (.error (.type (.noMembers (.object owner))), store)
  | .ok binding, some outer =>
    let (scope, store) := store.newDetached .object outer
    let store := store.setFunctions scope behaviour.members.functions
    let (object, store) := instantiate store held behaviour.name none scope [scope]
    let steps := parameterSteps scope binding ++ propertySteps scope behaviour.members
      ++ [.phase] ++ bodySteps scope behaviour.members
    (.ok { object, steps }, store)

/-! ## Resuming -/

def updatesItself (store : Store) (behaviour : ObjectRef) : Bool :=
  match store.outerScope? behaviour with
  | some scope => (store.ownFunction? scope "update").isSome
  | none => false

/-- Register an instance of a class for updates, if it or one of its behaviours has an
`update`. -/
def register (store : Store) (held : Held) (object : ObjectRef) : Store :=
  match (store.object object).classId, store.outerScope? object with
  | some id, some outer =>
    if store.hasInstanceUpdate id
        || (store.object object).behaviours.any (updatesItself store) then
      let order := store.updateOrderOf id
      store.modifyState held outer fun state => state.register order (.ofObject object)
    else store
  | _, _ => store

def receive (store : Store) (object : ObjectRef) :
    Option ConstructionStep → Outcome → Except Error Unit × Store
  | some (.parameter scope name _), outcome | some (.property scope name _), outcome =>
    match Outcome.receivedValue (some outcome) with
    | .error error => (.error error, store)
    | .ok value => (.ok (), store.setOwn scope name value)
  | some (.behaviour scope _), outcome =>
    match Outcome.receivedValue (some outcome) with
    | .error error => (.error error, store)
    | .ok (.object behaviour) =>
      let store := store.attach scope behaviour
      let store := store.modifyObject object fun owner =>
        { owner with behaviours := owner.behaviours ++ [behaviour] }
      (.ok (), store)
    | .ok value => (.error (.internal (.notABehaviour value)), store)
  | _, _ => (.ok (), store)

/-- Go through the steps up to the next one that gives work away or pauses. -/
def proceed (held : Held) (object : ObjectRef) : List ConstructionStep → Store →
    Resumed Construction
  | [], store => ⟨{ object, steps := [] }, store, .ok (.give (.object object))⟩
  | .parameter scope name initial :: steps, store =>
    ⟨{ object, current := some (.parameter scope name initial), steps }, store,
      .ok (.push (.node initial scope))⟩
  | .property scope name initial :: steps, store =>
    if store.bindsVariable scope name then proceed held object steps store
    else
      match initial with
      | some expression =>
        ⟨{ object, current := some (.property scope name initial), steps }, store,
          .ok (.push (.node expression scope))⟩
      | none => proceed held object steps (store.setOwn scope name .none)
  | .behaviour scope behaviour :: steps, store =>
    match ofBehaviour store held behaviour object with
    | (.error error, store) => ⟨{ object, steps }, store, .error error⟩
    | (.ok construction, store) =>
      ⟨{ object, current := some (.behaviour scope behaviour), steps }, store,
        .ok (.push (.construct construction))⟩
  | .body constructor scope :: steps, store =>
    let (call, store) := Call.ofBody store constructor scope
    ⟨{ object, current := some (.body constructor scope), steps }, store,
      .ok (.push (.call call))⟩
  | .phase :: steps, store => ⟨{ object, steps }, store, .ok .yield⟩
  | .register :: steps, store => proceed held object steps (register store held object)

def resume (construction : Construction) (store : Store) (held : Held)
    (incoming : Option Outcome) : Resumed Construction :=
  match incoming with
  | none => proceed held construction.object construction.steps store
  | some outcome =>
    match receive store construction.object construction.current outcome with
    | (.error error, store) => ⟨{ construction with current := none }, store, .error error⟩
    | (.ok (), store) => proceed held construction.object construction.steps store

end Construction

end StepScript
