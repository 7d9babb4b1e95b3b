import StepScript.Error
set_option autoImplicit false

/-!
# Faults

A failed attempt to match a rule.  Attempts are compared by how far they got, so a
fault knows the index of the last token that its attempt reached.
-/

namespace StepScript.Grammar

structure Fault where
  message : String
  /-- The token that the message points at. -/
  token : Token
  /-- Index of the last token that the attempt reached. -/
  progress : Nat
  deriving DecidableEq, Repr, Inhabited

namespace Fault

def here (message : String) (token : Token) : Fault := ⟨message, token, token.index⟩

def reached (message : String) (token : Token) (progress : Nat) : Fault :=
  ⟨message, token, progress⟩

def expected (what : String) (found : Token) : Fault :=
  here s!"expected {what}, found {found.describe} at token {found.index}" found

/-- The source nests deeper than its number of tokens allows. -/
def exhausted (token : Token) : Fault := here "nesting too deep" token

/-- The fault of the attempt that got further; of two that got equally far, the
first. -/
def furthest (first second : Fault) : Fault :=
  if first.progress < second.progress then second else first

def toError (fault : Fault) : Error := .atToken (.parse fault.message) fault.token

end Fault

/-- The first of the faults seen so far and `fault` that got furthest. -/
def furthestOf (seen : Option Fault) (fault : Fault) : Fault :=
  match seen with
  | some old => old.furthest fault
  | none => fault

/-- An attempt: how it ends, and the furthest of the faults that it has recorded on its
way. -/
structure Attempt (α : Type) where
  outcome : Except Fault α
  recorded : Option Fault := none

namespace Attempt

variable {α β : Type}

/-- The furthest of the faults recorded by an attempt and by what follows it. -/
def recordedBoth (first second : Option Fault) : Option Fault :=
  match second with
  | some fault => some (furthestOf first fault)
  | none => first

def andThen (attempt : Attempt α) (next : α → Attempt β) : Attempt β :=
  match attempt.outcome with
  | .error fault => ⟨.error fault, attempt.recorded⟩
  | .ok answer =>
    let later := next answer
    ⟨later.outcome, recordedBoth attempt.recorded later.recorded⟩

instance : Monad Attempt where
  pure answer := ⟨.ok answer, none⟩
  bind := andThen

def fail (fault : Fault) : Attempt α := ⟨.error fault, none⟩

def record (fault : Fault) : Attempt Unit := ⟨.ok (), some fault⟩

def observe (attempt : Attempt α) : Attempt (Except Fault α) :=
  ⟨.ok attempt.outcome, attempt.recorded⟩

def ofExcept (outcome : Except Fault α) : Attempt α := ⟨outcome, none⟩

end Attempt

end StepScript.Grammar
