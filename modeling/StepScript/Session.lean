import StepScript.Program
import StepScript.Host.Standard
import StepScript.Input
set_option autoImplicit false

/-!
# Sessions

A session keeps a program across inputs.  Each input is loaded as one more unit and run
to its end.
-/

namespace StepScript

structure Session (σ : Type) where
  program : Program
  world : World σ
  config : Config

namespace Session

variable {σ : Type}

def library : List Source := [⟨Standard.preludeName, Standard.preludeText⟩]

def inputName : String := "<repl>"

def start (config : Config) (context : Context σ) : Except Error (Session σ) :=
  match Program.build library [] with
  | .error error => .error error
  | .ok (program, store) => .ok { program, world := ⟨store, context⟩, config }

/-- Run an input.  When a frame fails, the input ends without a value. -/
def eval (bound : Nat) (session : Session σ) (input : String) :
    Option (Except Error Constant × Session σ) :=
  let ⟨program, ⟨store, context⟩, config⟩ := session
  let source : Source := { name := inputName, text := Input.complete input }
  match program.extend store source with
  | (.error error, store) => some (.error error, ⟨program, ⟨store, context⟩, config⟩)
  | (.ok code, store) =>
    match program.drive Standard.host bound config inputName
        (program.machineOf store code) ⟨store, context⟩ with
    | none => none
    | some ((_, some error, _), world) => some (.error error, { program, world, config })
    | some ((_, none, value), world) => some (.ok value, { program, world, config })

end Session

end StepScript
