import StepScript.CommandLine
set_option autoImplicit false

/-!
# The program

Reads files and lines, keeps the time, and writes what programs print as soon as they
have printed it.
-/

namespace StepScript.Terminal

open CommandLine

/-- More moves than a step makes. -/
def bound : Nat := Nat.pow 10 18

def flushSink (world : World Unit) : IO (World Unit) := do
  let ⟨store, context⟩ := world
  let stdout ← IO.getStdout
  stdout.putStr context.sink.written
  stdout.flush
  return ⟨store, { context with sink := {} }⟩

def now (world : World Unit) : IO (World Unit) := do
  let clock ← IO.monoMsNow
  return { world with context := { world.context with clock } }

def answered {α : Type} : Option α → IO α
  | some answer => return answer
  | none => throw (IO.userError "out of moves")

partial def batch (program : Program) (start : Nat) (scheduler : Scheduler Standard.Sleep)
    (world : World Unit) : IO (Scheduler Standard.Sleep × World Unit) := do
  if scheduler.isStopped then return (scheduler, world)
  let world ← now world
  let (progressed, scheduler, world) ←
    answered (scheduler.tick Standard.host (fun _ => program.refs) bound world)
  let world ← flushSink world
  let spent := (← IO.monoMsNow) - start
  if !progressed || scheduler.config.budget ≤ spent then return (scheduler, world)
  else batch program start scheduler world

partial def rounds (program : Program) (failed : Option Error)
    (scheduler : Scheduler Standard.Sleep) (world : World Unit) :
    IO (Option Error × Scheduler Standard.Sleep × World Unit) := do
  let (scheduler, world) ← batch program (← IO.monoMsNow) scheduler world
  if scheduler.isStopped then return (failed, scheduler, world)
  let (failed, scheduler, world) ←
    answered (program.frameBetween Standard.host bound failed scheduler (← now world))
  let world ← flushSink world
  if scheduler.isStopped then return (failed, scheduler, world)
  IO.sleep scheduler.config.pause.toUInt32
  rounds program failed scheduler world

/-- Run a machine to its end: the failure of a frame, the failure of the machine, and
its value. -/
def drive (program : Program) (config : Config) (name : String)
    (machine : Machine Standard.Sleep) (world : World Unit) :
    IO ((Option Error × Option Error × Constant) × World Unit) := do
  let (id, scheduler) := Scheduler.spawn { config } name machine
  let (failed, scheduler, world) ← rounds program none scheduler world
  let problem := scheduler.failures.head?.map (·.error)
  return ((failed, problem, (scheduler.result? id).getD .none), world)

def write (report : Report) : IO UInt32 := do
  IO.print report.stdout
  IO.eprint report.stderr
  return report.code.toUInt32

def readText (file : String) : IO (Except ReadFault String) := do
  match ← (IO.FS.readBinFile file).toBaseIO with
  | .ok bytes =>
    match String.fromUTF8? bytes with
    | some text => return .ok text
    | none => return .error .notText
  | .error (.noFileOrDirectory ..) => return .error .missing
  | .error (.permissionDenied ..) => return .error .permissionDenied
  | .error (.inappropriateType _ 21 _) => return .error .isAFolder
  | .error (.inappropriateType ..) => return .error .notAFolder
  | .error (.invalidArgument ..) => return .error .nameTooLong
  | .error error => return .error (.other (toString error))

def sources (files : List String) : IO (Except String (List Source)) := do
  let texts ← files.mapM fun file => return (file, ← readText file)
  return readSources (fun file => (texts.lookup file).getD (.error .missing)) files

def runFiles (config : Config) (files : List Source) : IO UInt32 := do
  match Program.build Session.library files with
  | .error error => write (failure "" error.message)
  | .ok (program, store) =>
    let (ended, _) ← drive program config "main" (program.machine store)
      ⟨store, { state := () }⟩
    match ended with
    | (some error, _, _) => write (failure "" error.message)
    | (none, some error, _) => write (failure "" error.message)
    | (none, none, _) => return 0

def evalInput (session : Session Unit) (input : String) : IO (Session Unit) := do
  let ⟨program, ⟨store, context⟩, config⟩ := session
  let source : Source := { name := Session.inputName, text := Input.complete input }
  match program.extend store source with
  | (.error error, store) =>
    IO.eprintln error.message
    return ⟨program, ⟨store, context⟩, config⟩
  | (.ok code, store) =>
    let ((_, problem, value), world) ← drive program config Session.inputName
      (program.machineOf store code) ⟨store, context⟩
    match problem with
    | some error => IO.eprintln error.message
    | none => IO.print (shown value)
    return ⟨program, world, config⟩

/-- Read inputs line by line and run them, where `before` is what an open input has so
far. -/
partial def converse (session : Session Unit) (before : String) : IO UInt32 := do
  let line ← (← IO.getStdin).getLine
  if line.isEmpty then
    IO.println quit
    return 0
  match Input.extend before line with
  | .unfinished before => converse session before
  | .finished input =>
    if isQuit input then return 0
    else converse (← evalInput session input) ""

def openSession (config : Config) : IO UInt32 := do
  IO.print welcome
  match Session.start config { state := () } with
  | .error error => write (failure "" error.message)
  | .ok session => converse session ""

def execute (args : List String) : IO UInt32 := do
  match Request.ofArguments args with
  | none => write usageReport
  | some ⟨_, .version⟩ => write versionReport
  | some ⟨config, .session⟩ => openSession config
  | some ⟨config, .run files⟩ =>
    match ← sources files with
    | .error message => write (failure "" message)
    | .ok files => runFiles config files
  | some ⟨_, .check files⟩ =>
    match ← sources files with
    | .error message => write (failure "" message)
    | .ok files => write (check files)

end StepScript.Terminal

def main (args : List String) : IO UInt32 := StepScript.Terminal.execute args
