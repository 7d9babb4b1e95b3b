import StepScript.Proofs.Registration.Gathering
set_option autoImplicit false

/-!
# Declaring one thing after the other

A unit is gathered in a draft and published at the end.  Registration without drafts would
declare one thing after the other in the Global scope (`Store.declareUnit`).  It asks no more of
the declarations of a unit than that each is fit to stand where it stands (`Item.ofStatement?`)
and that its name is new.
-/

namespace StepScript

/-! ## Entries of a Global scope -/

/-- What a Global scope gets to know of a unit. -/
structure Entries where
  files : Table ScopeId := []
  behaviours : List Behaviour := []
  functions : List Function := []
  classes : Table ClassId := []

/-- More entries behind the others. -/
def Entries.append (entries more : Entries) : Entries where
  files := entries.files ++ more.files
  behaviours := entries.behaviours ++ more.behaviours
  functions := entries.functions ++ more.functions
  classes := entries.classes ++ more.classes

namespace Scope

/-- The state with entries behind its own. -/
def declaringState (entries : Entries) (state : GlobalState) : GlobalState :=
  { state with
    classes := state.classes ++ entries.classes.map (·.2)
    behaviours := state.behaviours ++ entries.behaviours
    files := state.files ++ entries.files }

/-- The scope with entries behind its own. -/
def declaring (entries : Entries) (scope : Scope) : Scope :=
  { scope with
    functions := scope.functions ++ entries.functions.map fun function => (function.name, function)
    classes := scope.classes ++ entries.classes
    behaviours :=
      scope.behaviours ++ entries.behaviours.map fun behaviour => (behaviour.name, behaviour)
    state := scope.state.map (declaringState entries) }

theorem declaring_declaring (entries more : Entries) (scope : Scope) :
    (scope.declaring entries).declaring more = scope.declaring (entries.append more) := by
  cases hs : scope.state <;> simp [declaring, declaringState, Entries.append, hs, List.append_assoc]

theorem declaring_empty (scope : Scope) : scope.declaring {} = scope := by
  cases scope with
  | mk kind parent delegate values functions classes behaviours attached object state =>
    cases state <;> simp [declaring, declaringState]

end Scope

namespace Store

/-- Add entries to the Global scope. -/
def declare (store : Store) (root : ScopeId) (entries : Entries) : Store :=
  store.modifyScope root (·.declaring entries)

end Store

/-! ## New classes and behaviours -/

/-- The class of a body in a file, before its parent is known. -/
def Collected.toClass (collected : Collected) (name : String) (parentName : Option String)
    (token : Token) (sharedScope home : ScopeId) : Class :=
  { name, token, parentName
    members := collected.members
    sharedProperties := collected.sharedProperties
    sharedConstructor := collected.sharedConstructor
    behaviours := collected.behaviours
    updateOrder := collected.updateOrder
    sharedScope, home }

/-- The shared scope of a class in a file, before its parent is known. -/
def Collected.toShared (collected : Collected) (home : ScopeId) : Scope :=
  { kind := .classLevel, parent := some (.strong home), functions := collected.sharedFunctions }

/-- Make a class and its shared scope. -/
def Store.makeClass (store : Store) (file : ScopeId) (name : String) (parentName : Option String)
    (collected : Collected) (token : Token) : ClassId × Store :=
  let (sharedScope, store) := store.addScope (collected.toShared file)
  store.addClass (collected.toClass name parentName token sharedScope file)

/-- The behaviour of a body. -/
def Collected.toBehaviour (collected : Collected) (name : String) (token : Token) : Behaviour :=
  { name, token
    members := collected.members
    requires := collected.requires
    supports := collected.supports
    excludes := collected.excludes }

/-! ## Items of files -/

theorem eq_ok_of_toOption {ε α : Type} {outcome : Except ε α} {answer : α}
    (h : outcome.toOption = some answer) : outcome = .ok answer := by
  cases outcome with
  | error error => cases h
  | ok found => exact congrArg Except.ok (Option.some.inj h)

/-- What a statement of a file declares. -/
inductive Item where
  | ofClass (name : String) (parentName : Option String) (collected : Collected) (token : Token)
  | ofBehaviour (behaviour : Behaviour)
  | ofFunction (function : Function)
  /-- Nothing, the statement runs. -/
  | nothing

/-- What a statement declares, if it may stand in a file. -/
def Item.ofStatement? (statement : Node) : Option Item :=
  let token := statement.token
  match statement.kind with
  | .classDecl name parentName body =>
    (Collected.ofBody name .ofClass body).toOption.map fun collected =>
      .ofClass name parentName collected token
  | .behaviourDecl name body =>
    (Collected.ofBody name .ofBehaviour body).toOption.map fun collected =>
      .ofBehaviour (collected.toBehaviour name token)
  | .functionDecl name params body shared _ =>
    if shared then none
    else
      (checkFunctionBody body).toOption.map fun _ =>
        .ofFunction { name, params, body, owner := none, home := none, token }
  | .propertyDecl .. | .constructorDecl .. | .hasBehaviour _ | .updateOrder _ | .contract .. => none
  | _ => (statement.checkPlacement false).toOption.map fun _ => .nothing

/-- What every step of a fold keeps, the fold keeps. -/
theorem foldlM_keeps {α β : Type} {P : α → Prop} {step : α → β → Option α} {items : List β}
    (hs : ∀ item ∈ items, ∀ {before after}, P before → step before item = some after → P after)
    {start last : α} (h : P start) (hf : items.foldlM step start = some last) : P last := by
  induction items generalizing start with
  | nil =>
    obtain rfl := Option.some.inj hf
    exact h
  | cons item rest ih =>
    rw [List.foldlM_cons] at hf
    obtain ⟨next, hn, hr⟩ := Option.bind_eq_some_iff.mp hf
    refine ih (fun other ho => hs other (List.mem_cons_of_mem _ ho)) ?_ hr
    exact hs item List.mem_cons_self h hn

namespace Store

/-- The scope of a file, made and declared on first use. -/
def openFile (root : ScopeId) (store : Store) (name : String) : ScopeId × Store :=
  match store.fileOf? root name with
  | some file => (file, store)
  | none =>
    let (file, store) := store.newScope .file root
    (file, store.declare root { files := [(name, file)] })

/-- Declare an item of a file, whose name has to be new. -/
def declareItem (root file : ScopeId) (store : Store) : Item → Option Store
  | .ofClass name parentName collected token =>
    if (store.scope root).classes.binds name then none
    else
      let (id, store) := store.makeClass file name parentName collected token
      some (store.declare root { classes := [(name, id)] })
  | .ofBehaviour behaviour =>
    if (store.scope root).behaviours.binds behaviour.name then none
    else some (store.declare root { behaviours := [behaviour] })
  | .ofFunction function =>
    if (store.scope root).functions.binds function.name then none
    else some (store.declare root { functions := [{ function with home := some file }] })
  | .nothing => some store

/-- Declare what a statement of a file declares. -/
def declareStatement (root file : ScopeId) (store : Store) (statement : Node) : Option Store :=
  (Item.ofStatement? statement).bind (store.declareItem root file)

/-- Declare what the statements of a file declare. -/
def declareFile (root : ScopeId) (store : Store) (file : Node) : Option Store :=
  match file.kind with
  | .file name body =>
    body.foldlM (declareStatement root (store.openFile root name).1) (store.openFile root name).2
  | _ => none

/-- Declare what the files of a unit declare. -/
def declareUnit (root : ScopeId) (store : Store) (files : List Node) : Option Store :=
  files.foldlM (declareFile root) store

/-- The files of two units one after the other. -/
theorem declareUnit_append (root : ScopeId) (store : Store) (files more : List Node) :
    store.declareUnit root (files ++ more)
      = (store.declareUnit root files).bind fun between => between.declareUnit root more := by
  unfold declareUnit
  rw [List.foldlM_append]
  rfl

end Store

end StepScript
