import StepScript.Machine.Frame
set_option autoImplicit false

/-!
# Calls

A call binds its arguments, evaluates the parameters that are left, and runs the body
of the function in a scope of its own.
-/

namespace StepScript

/-! ## Binding parameters -/

structure Binding where
  bound : Table Constant := []
  /-- Parameters without an argument, with the expressions for their values. -/
  left : List (String × Node) := []
  deriving Inhabited

namespace Binding

def collect (callee : Callee) (binding : Binding) :
    List Parameter → List Constant → Except Error Binding
  | [], _ => .ok binding
  | param :: params, value :: args =>
    collect callee { binding with bound := binding.bound.insert param.name value } params args
  | param :: params, [] =>
    match param.initial with
    | some initial =>
      collect callee { binding with left := binding.left ++ [(param.name, initial)] }
        params []
    | none => .error (.arity (.missing param.name callee))

def ofArguments (callee : Callee) (params : List Parameter) (args : List Constant) :
    Except Error Binding :=
  if params.length < args.length then
    .error (.arity (.tooMany callee params.length args.length))
  else collect callee {} params args

end Binding

def Store.setAllOwn (store : Store) (id : ScopeId) (values : Table Constant) : Store :=
  values.foldl (fun store entry => store.setOwn id entry.1 entry.2) store

/-- The scope that a call of a function runs under: that of its file, or the one that
declares it. -/
def Function.callParent (function : Function) (found : ScopeId) : ScopeId :=
  function.home.getD found

namespace Call

def ofArguments (function : Function) (args : List Constant) (parent : ScopeId) : Call :=
  { function, parent, stage := .bind args }

def ofBody (store : Store) (function : Function) (parent : ScopeId) : Call × Store :=
  let (scope, store) := store.newScope .function parent
  ({ function, parent, stage := .ready scope }, store)

/-- Evaluate the next parameter without an argument, or pause before the body runs. -/
def fillNext (call : Call) (store : Store) (scope : ScopeId) :
    List (String × Node) → Resumed Call
  | (param, initial) :: rest =>
    ⟨{ call with stage := .fill scope param rest }, store,
      .ok (.push (.node initial scope))⟩
  | [] => ⟨{ call with stage := .ready scope }, store, .ok .yield⟩

def resume (call : Call) (store : Store) (incoming : Option Outcome) : Resumed Call :=
  match call.stage with
  | .bind args =>
    match Binding.ofArguments (.function call.function.qualifiedName) call.function.params
        args with
    | .error error => ⟨{ call with stage := .bind [] }, store, .error error⟩
    | .ok binding =>
      let (scope, store) := store.newScope .function call.parent
      call.fillNext (store.setAllOwn scope binding.bound) scope binding.left
  | .fill scope param rest =>
    match Outcome.receivedValue incoming with
    | .error error => ⟨call, store, .error error⟩
    | .ok value => call.fillNext (store.setOwn scope param value) scope rest
  | .ready scope =>
    let call := { call with stage := .running scope }
    match call.function.body with
    | some body => ⟨call, store, .ok (.push (.node body scope))⟩
    | none => ⟨call, store, .ok (.push (.native call.function scope))⟩
  | .running _ =>
    match Outcome.received incoming with
    | .error error => ⟨call, store, .error error⟩
    | .ok (.value value) =>
      ⟨call, store, .ok (.give (if call.function.isNative then value else .none))⟩
    | .ok (.giveBack value) => ⟨call, store, .ok (.give value)⟩
    | .ok .breakLoop | .ok .continueLoop =>
      ⟨call, store, .error (.internal .jumpOutsideLoop)⟩

end Call

end StepScript
