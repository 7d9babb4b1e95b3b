import StepScript.Program
set_option autoImplicit false

/-!
# Folders

A folder holds files, and other folders on the way to them.  A path is followed name by name
from the working folder, or from the top of the system if it begins with a slash.  Of what
lies outside the working folder only the empty device is known.
-/

namespace StepScript

inductive ReadFault where
  | missing
  | permissionDenied
  /-- The path goes on behind a file. -/
  | notAFolder
  /-- The path leads to a folder. -/
  | isAFolder
  | nameTooLong
  /-- The bytes of the file are no text. -/
  | notText
  | other (reason : String)
  deriving DecidableEq, Repr, Inhabited

def ReadFault.message : ReadFault → String
  | missing => "No such file or directory (os error 2)"
  | permissionDenied => "Permission denied (os error 13)"
  | notAFolder => "Not a directory (os error 20)"
  | isAFolder => "Is a directory (os error 21)"
  | nameTooLong => "File name too long (os error 36)"
  | notText => "stream did not contain valid UTF-8"
  | other reason => reason

/-- A folder, as the files in it with the names that lead to them. -/
structure Folder where
  files : List (List String × String) := []
  deriving DecidableEq, Repr, Inhabited

namespace Folder

/-! ## Paths -/

/-- The pieces of a path between its slashes, where `before` holds the characters of the
current piece so far, the last one first. -/
def pieces : (before : List Char) → List Char → List String
  | before, [] => [String.ofList before.reverse]
  | before, c :: rest =>
    if c = '/' then String.ofList before.reverse :: pieces [] rest
    else pieces (c :: before) rest

/-- The steps of a path: its pieces without the empty ones.  A slash at its end is a step
that stays where it is. -/
def steps (path : String) : List String :=
  let pieces := pieces [] path.toList
  pieces.filter (· != "") ++ if pieces.getLast? = some "" then ["."] else []

def nameLimit : Nat := 255

def pathLimit : Nat := 4095

/-! ## Reading -/

inductive Entry where
  | folder
  | file (text : String)
  deriving DecidableEq, Repr, Inhabited

def ofSources (sources : List Source) : Folder where
  files := sources.map fun source => ((steps source.name).filter (· != "."), source.text)

/-- What is known of the system outside the working folder. -/
def system : Folder where
  files := [(["dev", "null"], "")]

/-- What the names lead to.  On the way to each file stand folders. -/
def entry? (folder : Folder) (names : List String) : Option Entry :=
  match folder.files.lookup names with
  | some text => some (.file text)
  | none =>
    if names.isEmpty || folder.files.any fun file => names.isPrefixOf file.1 then
      some .folder
    else none

/-- Follow the steps of a path from the place that `names` lead to.  Above the top of a
folder is another one, in which nothing is known. -/
def follow : (folder : Folder) → (names : List String) → List String → Except ReadFault Entry
  | folder, names, [] =>
    match folder.entry? names with
    | some entry => .ok entry
    | none => .error .missing
  | folder, names, step :: rest =>
    match folder.entry? names with
    | none => .error .missing
    | some (.file _) => .error .notAFolder
    | some .folder =>
      if step = "." then follow folder names rest
      else if step = ".." then
        if names.isEmpty then follow {} [] rest else follow folder names.dropLast rest
      else if nameLimit < step.utf8ByteSize then .error .nameTooLong
      else follow folder (names ++ [step]) rest

def read (folder : Folder) (path : String) : Except ReadFault String :=
  if path.isEmpty then .error .missing
  else if pathLimit < path.utf8ByteSize then .error .nameTooLong
  else
    let top := if path.toList.head? = some '/' then system else folder
    match top.follow [] (steps path) with
    | .error fault => .error fault
    | .ok .folder => .error .isAFolder
    | .ok (.file text) => .ok text

end Folder

end StepScript
