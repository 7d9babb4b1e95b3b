import StepScript.Store.Lookup
import StepScript.Registration.Collected
set_option autoImplicit false

/-!
# Registration of a unit

A unit is a list of files that are registered together.  Its declarations are gathered
in a draft first; then classes are linked to their parents, so that their order does
not matter, and behaviours are checked along the whole hierarchy.  Scopes and classes of
the draft live in the store from the start.  Only a draft that passes every check is
published in the Global scope; the scopes and classes of one that fails are dropped.
-/

namespace StepScript

structure Draft where
  /-- The store, with the scopes and classes of the unit. -/
  store : Store
  /-- The Global scope that the unit will be published in. -/
  target : ScopeId
  classes : List ClassId := []
  behaviours : List Behaviour := []
  functions : List Function := []
  /-- Files that have no scope in the Global scope yet. -/
  files : Table ScopeId := []
  deriving Inhabited

/-- Work on a draft.  What has been gathered stays also when the work fails. -/
abbrev Drafting (α : Type) : Type := ExceptT Error (StateM Draft) α

namespace Draft

def liftExcept {α : Type} (outcome : Except Error α) : Drafting α :=
  ExceptT.mk (pure outcome)

/-! ## Names in sight of the unit -/

def class? (draft : Draft) (name : String) : Option ClassId :=
  (draft.classes.find? fun id => (draft.store.classAt id).name == name).or
    ((draft.store.scope draft.target).classes.get? name)

def behaviour? (draft : Draft) (name : String) : Option Behaviour :=
  (draft.behaviours.find? (·.name == name)).or
    ((draft.store.scope draft.target).behaviours.get? name)

def declaresFunction (draft : Draft) (name : String) : Bool :=
  draft.functions.any (·.name == name)
    || (draft.store.scope draft.target).functions.binds name

/-! ## Additions to the draft -/

def withFile (draft : Draft) (name : String) : ScopeId × Draft :=
  let (file, store) := draft.store.newScope .file draft.target
  (file, { draft with store, files := draft.files.insert name file })

def withClass (draft : Draft) (file : ScopeId) (name : String) (parentName : Option String)
    (collected : Collected) (token : Token) : Draft :=
  let (sharedScope, store) := draft.store.newScope .classLevel file
  let store := store.setFunctions sharedScope collected.sharedFunctions
  let (id, store) := store.addClass
    { name, token, parentName
      members := collected.members
      sharedProperties := collected.sharedProperties
      sharedConstructor := collected.sharedConstructor
      behaviours := collected.behaviours
      updateOrder := collected.updateOrder
      sharedScope, home := file }
  { draft with store, classes := draft.classes ++ [id] }

def withBehaviour (draft : Draft) (name : String) (collected : Collected) (token : Token) :
    Draft :=
  let behaviour : Behaviour :=
    { name, token
      members := collected.members
      requires := collected.requires
      supports := collected.supports
      excludes := collected.excludes }
  { draft with behaviours := draft.behaviours ++ [behaviour] }

def withFunction (draft : Draft) (file : ScopeId) (name : String) (params : List Parameter)
    (body : Option Node) (token : Token) : Draft :=
  let function : Function := { name, params, body, owner := none, home := file, token }
  { draft with functions := draft.functions ++ [function] }

def withParent (draft : Draft) (id parent : ClassId) : Draft :=
  { draft with
    store := draft.store.modifyClass id fun declared =>
      { declared with parent := some parent } }

/-- Put the shared scope of a class under that of another. -/
def withSharedParent (draft : Draft) (id parent : ClassId) : Draft :=
  { draft with
    store := draft.store.setParent (draft.store.classAt id).sharedScope
      (draft.store.classAt parent).sharedScope }

/-! ## Gathering declarations -/

/-- The scope of a file: the one of the Global scope, or one that is published with the
unit. -/
def fileScope (name : String) : Drafting ScopeId := do
  let draft ← get
  let state := (draft.store.scope draft.target).state.getD {}
  match (state.files.get? name).or (draft.files.get? name) with
  | some file => return file
  | none =>
    let (file, draft) := draft.withFile name
    set draft
    return file

def addClass (file : ScopeId) (name : String) (parentName : Option String) (body : Node)
    (token : Token) : Drafting Unit := do
  let draft ← get
  if (draft.class? name).isSome then throw (.registration (.duplicateClass name) token)
  else
    let collected ← liftExcept (Collected.ofBody name .ofClass body)
    set (draft.withClass file name parentName collected token)

def addBehaviour (name : String) (body : Node) (token : Token) : Drafting Unit := do
  let draft ← get
  if (draft.behaviour? name).isSome then
    throw (.registration (.duplicateBehaviour name) token)
  else
    let collected ← liftExcept (Collected.ofBody name .ofBehaviour body)
    set (draft.withBehaviour name collected token)

def addFunction (file : ScopeId) (name : String) (params : List Parameter)
    (body : Option Node) (token : Token) : Drafting Unit := do
  liftExcept (checkFunctionBody body)
  let draft ← get
  if draft.declaresFunction name then
    throw (.registration (.duplicateFunction name) token)
  else set (draft.withFunction file name params body token)

def addStatement (file : ScopeId) (statement : Node) : Drafting Unit :=
  let token := statement.token
  match statement.kind with
  | .classDecl name parentName body => addClass file name parentName body token
  | .behaviourDecl name body => addBehaviour name body token
  | .functionDecl name params body shared _ =>
    if shared then throw (.registration .sharedOutsideClass token)
    else addFunction file name params body token
  | .propertyDecl _ _ shared =>
    if shared then throw (.registration .sharedOutsideClass token)
    else throw (.registration (.onlyInClass statement.kind.name) token)
  | .constructorDecl .. | .hasBehaviour _ | .updateOrder _ =>
    throw (.registration (.onlyInClass statement.kind.name) token)
  | .contract .. => throw (.registration (.onlyInBehaviour statement.kind.name) token)
  | _ => liftExcept (statement.checkPlacement false)

def addFile (file : Node) : Drafting Unit :=
  match file.kind with
  | .file name body => do
    let scope ← fileScope name
    body.forM (addStatement scope)
  | kind => throw ((Error.runtime .notAFile).atNode kind.name file.token)

/-! ## Linking classes -/

def link (id : ClassId) : Drafting Unit := do
  let draft ← get
  let declared := draft.store.classAt id
  match declared.parentName with
  | none => return
  | some parentName =>
    match draft.class? parentName with
    | some parent => set (draft.withParent id parent)
    | none =>
      if (draft.behaviour? parentName).isSome then
        throw (.registration (.extendsBehaviour declared.name parentName) declared.token)
      else
        throw (.registration (.unknownParent parentName declared.name) declared.token)

/-- The way up from a class comes back to `start` or meets a name twice.  Every step
meets a new name, so the number of classes bounds the way. -/
def cyclesFrom (store : Store) (start : ClassId) : (bound : Nat) → (seen : List String) →
    Option ClassId → Bool
  | _, _, none => false
  | 0, _, some _ => true
  | bound + 1, seen, some id =>
    let declared := store.classAt id
    if id = start || seen.contains declared.name then true
    else cyclesFrom store start bound (declared.name :: seen) declared.parent

/-- Refuse a class whose ancestors go round in a cycle. -/
def checkCycle (draft : Draft) (id : ClassId) : Except Error Unit :=
  let declared := draft.store.classAt id
  if cyclesFrom draft.store id draft.store.classes.size [] declared.parent then
    .error (.registration (.inheritanceCycle declared.name) declared.token)
  else .ok ()

def linkShared (id : ClassId) : Drafting Unit := do
  let draft ← get
  match (draft.store.classAt id).parent with
  | some parent => set (draft.withSharedParent id parent)
  | none => return

/-! ## Behaviours -/

/-- Check that the contracts of a behaviour name behaviours and do not contradict each
other. -/
def checkContracts (draft : Draft) (behaviour : Behaviour) : Except Error Unit :=
  let mentions := behaviour.requires ++ behaviour.supports ++ behaviour.excludes
  match mentions.find? fun mention => (draft.behaviour? mention.1).isNone with
  | some (name, token) =>
    .error (.registration (.unknownContract name behaviour.name) token)
  | none =>
    match behaviour.requires.find? fun mention =>
        behaviour.excludes.any (·.1 == mention.1) with
    | some (name, token) =>
      .error (.registration (.requiredAndExcluded behaviour.name name) token)
    | none => .ok ()

/-- Check one attachment in the hierarchy of a class, where `seen` are the behaviours
attached before it and `attached` are all of them. -/
def checkAttachment (draft : Draft) (owner : String) (attached seen : List String)
    (mention : Mention) : Except Error Unit :=
  let (name, token) := mention
  match draft.behaviour? name with
  | none =>
    if (draft.class? name).isSome then .error (.registration (.attachedClass name) token)
    else .error (.registration (.unknownAttachment name) token)
  | some behaviour =>
    if seen.contains name then
      .error (.registration (.attachedTwiceInHierarchy name owner) token)
    else
      match behaviour.requires.find? fun required => !attached.contains required.1 with
      | some (required, _) =>
        .error (.registration (.missingRequirement name required owner) token)
      | none =>
        match behaviour.excludes.find? fun excluded => attached.contains excluded.1 with
        | some (excluded, _) =>
          .error (.registration (.violatedExclusion name excluded owner) token)
        | none => .ok ()

def checkAttachmentList (draft : Draft) (owner : String) (attached : List String) :
    (seen : List String) → List Mention → Except Error Unit
  | _, [] => .ok ()
  | seen, mention :: rest =>
    match draft.checkAttachment owner attached seen mention with
    | .error error => .error error
    | .ok () => draft.checkAttachmentList owner attached (mention.1 :: seen) rest

/-- Check that what is attached along the hierarchy of a class are behaviours, each
attached once, whose contracts are kept. -/
def checkAttachments (draft : Draft) (id : ClassId) : Except Error Unit :=
  let mentions := (draft.store.hierarchy id).flatMap fun level =>
    (draft.store.classAt level).behaviours
  draft.checkAttachmentList (draft.store.classAt id).name (draft.store.allBehaviours id) []
    mentions

/-! ## The whole unit -/

def gather (files : List Node) : Drafting Unit := do
  files.forM addFile
  (← get).classes.forM link
  let draft ← get
  draft.classes.forM fun id => liftExcept (draft.checkCycle id)
  draft.classes.forM linkShared
  let draft ← get
  draft.behaviours.forM fun behaviour => liftExcept (draft.checkContracts behaviour)
  draft.classes.forM fun id => liftExcept (draft.checkAttachments id)

/-- A store after a registration that may have been refused; the names of the unit have been
checked before, so none of them is. -/
def accepted (store : Store) (registered : Except Error Store) : Store :=
  match registered with
  | .ok store => store
  | .error _ => store

/-- Publish the declarations of a unit in its Global scope. -/
def publish (draft : Draft) : Store :=
  let target := draft.target
  let store := draft.files.foldl
    (fun store file => store.addFile (fun _ => []) target file.1 file.2) draft.store
  let store := draft.behaviours.foldl
    (fun store behaviour => accepted store (store.registerBehaviour target behaviour)) store
  let store := draft.functions.foldl
    (fun store function => accepted store (store.registerFunction target function)) store
  draft.classes.foldl (fun store id => accepted store (store.registerClass target id)) store

end Draft

namespace Store

/-- Drop the scopes and classes that have been added to a store since. -/
def cutBack (store before : Store) : Store :=
  { store with
    scopes := store.scopes.take before.scopes.size
    classes := store.classes.take before.classes.size }

/-- Register the declarations of a unit in a Global scope.  The answer has the classes of the
unit in the order of their declarations. -/
def addUnit (store : Store) (target : ScopeId) (files : List Node) :
    Except Error (List ClassId) × Store :=
  match (Draft.gather files).run.run { store, target } with
  | (.error error, draft) => (.error error, draft.store.cutBack store)
  | (.ok (), draft) => (.ok draft.classes, draft.publish)

/-- The store with a unit that is registered in a Global scope, and the classes of the
unit. -/
def registerUnit (store : Store) (target : ScopeId) (files : List Node) :
    Except Error (Store × List ClassId) :=
  match store.addUnit target files with
  | (.error error, _) => .error error
  | (.ok classes, store) => .ok (store, classes)

end Store

end StepScript
