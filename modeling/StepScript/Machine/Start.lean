import StepScript.Machine.Call
set_option autoImplicit false

/-!
# The start of a unit

A registered unit starts with its shared state: first the shared properties of all
classes, then the shared constructors, then the registration of shared updates.  Then
its files run one after the other.
-/

namespace StepScript

/-- A registered unit: its files, and the classes that it declares. -/
structure Code where
  files : List Node
  classes : List ClassId
  deriving Inhabited

namespace Start

def propertySteps (store : Store) (id : ClassId) : List StartStep :=
  (store.classAt id).sharedProperties.map fun property =>
    .sharedProperty id property.name property.initial

def constructorSteps (store : Store) (id : ClassId) : List StartStep :=
  if (store.classAt id).sharedConstructor.isSome then [.sharedConstructor id] else []

def ofCode (store : Store) (held : Held) (code : Code) (scope : ScopeId) : Start :=
  { root := store.root held scope
    steps := code.classes.flatMap (propertySteps store)
      ++ code.classes.flatMap (constructorSteps store)
      ++ code.classes.map StartStep.register
      ++ code.files.map StartStep.file }

def refs (start : Start) : List Ref := .scope start.root :: start.last.refs

/-- Register a class for updates, if it has a shared `update` of its own. -/
def register (store : Store) (held : Held) (root : ScopeId) (id : ClassId) : Store :=
  if (store.ownFunction? (store.classAt id).sharedScope "update").isSome then
    let order := store.updateOrderOf id
    store.modifyState held root fun state => state.register order (.ofClass id)
  else store

def proceed (held : Held) (root : ScopeId) (last : Constant) : List StartStep → Store →
    Resumed Start
  | [], store => ⟨{ root, steps := [] }, store, .ok (.give last)⟩
  | .sharedProperty id name initial :: steps, store =>
    let scope := (store.classAt id).sharedScope
    if store.bindsVariable scope name then proceed held root last steps store
    else
      match initial with
      | some expression =>
        ⟨{ root, current := some (.sharedProperty id name initial), steps, last }, store,
          .ok (.push (.node expression scope))⟩
      | none => proceed held root last steps (store.setOwn scope name .none)
  | .sharedConstructor id :: steps, store =>
    match (store.classAt id).sharedConstructor with
    | some constructor =>
      ⟨{ root, current := some (.sharedConstructor id), steps, last }, store,
        .ok (.push (.call
          (.ofArguments constructor [] (store.classAt id).sharedScope)))⟩
    | none => proceed held root last steps store
  | .register id :: steps, store =>
    proceed held root last steps (register store held root id)
  | .file file :: steps, store =>
    match file.kind with
    | .file name _ =>
      let (scope, store) := store.fileScope held root name
      ⟨{ root, current := some (.file file), steps, last }, store,
        .ok (.push (.node file scope))⟩
    | _ => ⟨{ root, steps, last }, store, .error (.internal .nonFileInUnit)⟩

/-- The value of an outcome; a `return` at the level of a file gives its value too. -/
def outcomeValue : Outcome → Except Error Constant
  | .value result | .giveBack result => .ok result
  | .breakLoop | .continueLoop => .error (.internal .jumpOutsideLoop)

/-- Resume the start of a unit.  It pauses after each step. -/
def resume (start : Start) (store : Store) (held : Held) (incoming : Option Outcome) :
    Resumed Start :=
  match incoming with
  | none => proceed held start.root start.last start.steps store
  | some outcome =>
    match outcomeValue outcome with
    | .error error => ⟨start, store, .error error⟩
    | .ok value =>
      match start.current with
      | some (.sharedProperty id name _) =>
        ⟨{ start with current := none },
          store.setOwn (store.classAt id).sharedScope name value, .ok .yield⟩
      | some (.file _) => ⟨{ start with current := none, last := value }, store, .ok .yield⟩
      | _ => ⟨{ start with current := none }, store, .ok .yield⟩

end Start

end StepScript
