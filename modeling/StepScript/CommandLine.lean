import StepScript.Session
import StepScript.Folder
set_option autoImplicit false

/-!
# The command line

Run files as a program, check them, or open a session.  Everything here is pure: files
and standard input come in as texts, and a report says what is written where.
-/

namespace StepScript.CommandLine

/-! ## Arguments -/

inductive Command where
  /-- Run files as one program. -/
  | run (files : List String)
  /-- Parse and register files without running them. -/
  | check (files : List String)
  | session
  /-- Show the version. -/
  | version
  deriving DecidableEq, Repr, Inhabited

structure Request where
  config : Config := {}
  command : Command := .session
  deriving DecidableEq, Repr, Inhabited

/-- A number of milliseconds below 2^64, in digits. -/
def readMilliseconds? (text : String) : Option Nat :=
  let digits :=
    match text.toList with
    | '+' :: rest => rest
    | chars => chars
  if digits.isEmpty || !digits.all Char.isDigit then none
  else
    let value := digits.foldl (fun value digit => 10 * value + (digit.toNat - '0'.toNat)) 0
    if value < Nat.pow 2 64 then some value else none

inductive Verb where
  | run
  | check
  | session
  deriving DecidableEq, Repr, Inhabited

def Verb.ofWord? : String → Option Verb
  | "run" => some .run
  | "check" => some .check
  | "repl" => some .session
  | _ => none

/-- The options that may stand before the verb and behind it. -/
inductive Setting where
  | debug
  | budget
  | pause
  deriving DecidableEq, Repr, Inhabited

def Setting.ofLong? : String → Option Setting
  | "--budget-ms" => some .budget
  | "--pause-ms" => some .pause
  | _ => none

structure Reading where
  config : Config := {}
  verb : Option Verb := none
  files : List String := []
  /-- The options on this side of the verb. -/
  given : List Setting := []
  deriving Inhabited

namespace Reading

def finish (reading : Reading) : Option Request :=
  match reading.verb, reading.files with
  | none, _ | some .session, _ => some ⟨reading.config, .session⟩
  | some .run, file :: files => some ⟨reading.config, .run (file :: files)⟩
  | some .check, file :: files => some ⟨reading.config, .check (file :: files)⟩
  | _, [] => none

/-- Show the version.  It can be asked for only before the verb. -/
def version (reading : Reading) : Option Request :=
  if reading.verb.isNone then some ⟨reading.config, .version⟩ else none

def addFile (reading : Reading) (file : String) : Option Reading :=
  match reading.verb with
  | some .run | some .check =>
    if file.isEmpty then none else some { reading with files := reading.files ++ [file] }
  | _ => none

/-- Read a word that is not an option: the verb, or the name of a file behind it. -/
def addWord (reading : Reading) (word : String) : Option Reading :=
  match reading.verb with
  | none => (Verb.ofWord? word).map fun verb => { reading with verb := some verb, given := [] }
  | some _ => reading.addFile word

def addFiles : Reading → List String → Option Reading
  | reading, [] => some reading
  | reading, file :: rest => (reading.addFile file).bind fun reading => reading.addFiles rest

/-- Note an option.  It may stand once on each side of the verb. -/
def give (reading : Reading) (setting : Setting) : Option Reading :=
  if reading.given.contains setting then none
  else some { reading with given := setting :: reading.given }

/-- Set one of the times.  What stands behind the verb counts more. -/
def setTime (reading : Reading) (setting : Setting) (value : String) : Option Reading :=
  match readMilliseconds? value, reading.give setting with
  | some time, some reading =>
    match setting with
    | .budget => some { reading with config := { reading.config with budget := time } }
    | .pause => some { reading with config := { reading.config with pause := time } }
    | .debug => none
  | _, _ => none

/-- Read the letters of short options.  The answer is a request if one of them ends the
reading. -/
def readLetters : Reading → List Char → Option (Request ⊕ Reading)
  | reading, [] => some (.inr reading)
  | reading, 'd' :: rest => (reading.give .debug).bind fun reading => reading.readLetters rest
  | reading, 'V' :: _ => reading.version.map .inl
  | _, _ => none

def splitOption (option : String) : Option (String × String) :=
  let chars := option.toList
  match chars.dropWhile (· != '=') with
  | _ :: value => some (String.ofList (chars.takeWhile (· != '=')), String.ofList value)
  | [] => none

def setTimeWithin (reading : Reading) (option : String) : Option Reading :=
  (splitOption option).bind fun (name, value) =>
    (Setting.ofLong? name).bind fun setting => reading.setTime setting value

/-- Read the arguments.  Behind two dashes there are only names of files. -/
def readAll : Reading → List String → Option Request
  | reading, [] => reading.finish
  | reading, "--" :: rest => (reading.addFiles rest).bind finish
  | reading, "--version" :: _ => reading.version
  | reading, "--debug" :: rest => (reading.give .debug).bind fun reading => reading.readAll rest
  | reading, "--budget-ms" :: value :: rest =>
    (reading.setTime .budget value).bind fun reading => reading.readAll rest
  | reading, "--pause-ms" :: value :: rest =>
    (reading.setTime .pause value).bind fun reading => reading.readAll rest
  | reading, arg :: rest =>
    match arg.toList with
    | '-' :: '-' :: _ => (reading.setTimeWithin arg).bind fun reading => reading.readAll rest
    | '-' :: letter :: letters =>
      match reading.readLetters (letter :: letters) with
      | none => none
      | some (.inl request) => some request
      | some (.inr reading) => reading.readAll rest
    | _ => (reading.addWord arg).bind fun reading => reading.readAll rest

end Reading

def Request.ofArguments (args : List String) : Option Request := Reading.readAll {} args

/-! ## Reports -/

structure Report where
  code : Nat := 0
  stdout : String := ""
  stderr : String := ""
  deriving DecidableEq, Repr, Inhabited

def languageName : String := "kestrel"

def languageVersion : String := "0.1.0"

def usage : String :=
  s!"Usage: {languageName} [--budget-ms <MS>] [--pause-ms <MS>] [run <FILES>... | check <FILES>... | repl]\n"

def usageReport : Report := { code := 2, stderr := usage }

def versionReport : Report := { stdout := s!"{languageName} {languageVersion}\n" }

def failure (stdout message : String) : Report :=
  { code := 1, stdout, stderr := s!"Error: {message}\n" }

def readFailure (file : String) (fault : ReadFault) : String :=
  s!"Failed to read {file}\n\nCaused by:\n    {fault.message}"

def checkedReport (count : Nat) : Report := { stdout := s!"ok: {count} files\n" }

def welcome : String :=
  s!"{languageName} v{languageVersion}\n" ++
    "Type 'quit' or press Ctrl-D to leave, end a line with '\\' to continue it\n\n"

def quit : String := "quit"

def isQuit (input : String) : Bool := Text.trimBlanks input == quit

def shown : Constant → String
  | .none => ""
  | value => value.quoted ++ "\n"

/-! ## Commands -/

def readSources (read : String → Except ReadFault String) :
    List String → Except String (List Source)
  | [] => .ok []
  | file :: rest =>
    match read file with
    | .error fault => .error (readFailure file fault)
    | .ok text => (readSources read rest).map (⟨file, text⟩ :: ·)

def check (sources : List Source) : Report :=
  match Program.check Session.library sources with
  | .error error => failure "" error.message
  | .ok () => checkedReport sources.length

def run (bound : Nat) (config : Config) (sources : List Source) : Option Report :=
  (Program.run Standard.host bound Session.library sources config { state := () }).map
    fun (result, context) =>
      match result with
      | .error error => failure context.sink.written error.message
      | .ok _ => { stdout := context.sink.written }

def converse (bound : Nat) : List String → Session Unit → Report → Option Report
  | [], _, report => some { report with stdout := report.stdout ++ quit ++ "\n" }
  | input :: rest, session, report =>
    if isQuit input then some report
    else
      match session.eval bound input with
      | none => none
      | some (result, ⟨program, ⟨store, context⟩, config⟩) =>
        let out := report.stdout ++ context.sink.written
        let session : Session Unit :=
          ⟨program, ⟨store, { context with sink := {} }⟩, config⟩
        match result with
        | .ok value => converse bound rest session { report with stdout := out ++ shown value }
        | .error error =>
          converse bound rest session
            { report with stdout := out, stderr := report.stderr ++ error.message ++ "\n" }

def session (bound : Nat) (config : Config) (stdin : String) : Option Report :=
  match Session.start config { state := () } with
  | .error error => some (failure welcome error.message)
  | .ok session =>
    converse bound (Input.ofLines "" (Input.streamLines [] stdin.toList)) session
      { stdout := welcome }

def execute (bound : Nat) (read : String → Except ReadFault String) (args : List String)
    (stdin : String) : Option Report :=
  match Request.ofArguments args with
  | none => some usageReport
  | some ⟨_, .version⟩ => some versionReport
  | some ⟨config, .session⟩ => session bound config stdin
  | some ⟨config, .run files⟩ =>
    match readSources read files with
    | .error message => some (failure "" message)
    | .ok sources => run bound config sources
  | some ⟨_, .check files⟩ =>
    match readSources read files with
    | .error message => some (failure "" message)
    | .ok sources => some (check sources)

end StepScript.CommandLine
