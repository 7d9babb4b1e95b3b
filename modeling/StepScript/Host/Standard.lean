import StepScript.Host.Basic
set_option autoImplicit false

/-!
# The standard host

Functions that print, show values, sleep and compute, and the source text that declares
them to a program.
-/

namespace StepScript.Standard

def preludeName : String := "<prelude>"

def preludeText : String :=
  "
native function print(value)
native function str(value)
native function sleep(ms)

class Math
    shared native function floor(x)
    shared native function sqrt(x)
end

class Time
    shared native function frame()
end
"

structure Sleep where
  deadline : Nat
  deriving DecidableEq, Repr, Inhabited

variable {σ τ : Type}

/-- A native function that computes from a value and does nothing else. -/
def pureNative (name : String) (compute : Constant → Except Error Constant) : Native σ τ :=
  fun argument context =>
    match argument name with
    | .error error => (.error error, context)
    | .ok value =>
      match compute value with
      | .error error => (.error error, context)
      | .ok result => (.ok (.done result), context)

def mathNative (compute : Float → Float) : Native σ τ :=
  pureNative "x" fun value =>
    match value.asNumber with
    | .error error => .error error
    | .ok x => .ok (.number (compute x))

def print : Native σ τ := fun argument context =>
  match argument "value" with
  | .error error => (.error error, context)
  | .ok value =>
    match context.sink.write (value.text ++ "\n") with
    | .error fault => (.error (.runtime (.host s!"print: {fault}")), context)
    | .ok sink => (.ok (.done .none), { context with sink })

def milliseconds (duration : Float) : Nat := duration.toUInt64.toNat

def sleep : Native σ Sleep := fun argument context =>
  match argument "ms" with
  | .error error => (.error error, context)
  | .ok value =>
    match value.asNumber with
    | .error error => (.error error, context)
    | .ok duration =>
      if duration < 0 then
        (.error (.runtime (.host "sleep: negative duration")), context)
      else
        let deadline := context.clock + milliseconds duration
        (.ok (.pending (.polled ⟨deadline⟩)), context)

def frame : Native σ τ := fun _ context =>
  (.ok (.done (.number (Float.ofNat context.frame))), context)

def native? : Option String → String → Option (Native σ Sleep)
  | none, "print" => some print
  | none, "str" => some (pureNative "value" fun value => .ok (.string value.text))
  | none, "sleep" => some sleep
  | some "Math", "floor" => some (mathNative Number.floor)
  | some "Math", "sqrt" => some (mathNative Float.sqrt)
  | some "Time", "frame" => some frame
  | _, _ => none

def host : Host σ Sleep where
  native? := native?
  poll task context :=
    if task.deadline ≤ context.clock then (.ok (.ready .none), task, context)
    else (.ok .pending, task, context)
  finish _ context := (.ok .none, context)
  refs _ := []

end StepScript.Standard
