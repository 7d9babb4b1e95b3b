import StepScript.Token.Lexer
import StepScript.Text.Cluster
set_option autoImplicit false

/-!
# Input of a session

An input goes on over several lines while it leaves a block open or while its last line
ends in a backslash.  A backspace in it takes back the cluster before it.
-/

namespace StepScript.Input

/-! ## Open blocks -/

def lineDepth : List Token → Int
  | [] => 0
  | first :: rest =>
    if first.spells "shared" then
      match rest with
      | second :: _ =>
        if second.spells "function" || second.spells "constructor" then 1 else 0
      | [] => 0
    else if first.kind ≠ .keyword then 0
    else if ["class", "behaviour", "while", "for", "repeat", "function",
        "constructor"].contains first.text then 1
    else if first.text = "if" && (rest.getLast?.getD first).spells "then" then 1
    else if first.text = "end" || first.text = "until" then -1
    else 0

/-- The change over a list of tokens, where `line` holds the tokens of the current line
so far, the last one first. -/
def depthFrom : (line : List Token) → List Token → Int
  | _, [] => 0
  | line, token :: rest =>
    match token.kind with
    | .endOfLine | .endOfFile => lineDepth line.reverse + depthFrom [] rest
    | _ => depthFrom (token :: line) rest

/-- Number of blocks that a text leaves open; negative if it closes more than it
opens. -/
def openBlocks (text : String) : Int :=
  depthFrom [] (tokenize text "<input>").toList

/-! ## Joined lines -/

/-- Replace each backslash at the end of a line, together with the line end, by a
blank. -/
def joinLines : List Char → List Char
  | '\\' :: '\n' :: rest => ' ' :: joinLines rest
  | c :: rest => c :: joinLines rest
  | [] => []

def closeLine (chars : List Char) : List Char :=
  if chars.getLast? = some '\n' then chars else chars ++ ['\n']

/-- A text as the parser takes it: continued lines are joined and the last line is
closed. -/
def complete (text : String) : String :=
  String.ofList (closeLine (joinLines text.toList))

/-! ## Backspaces -/

/-- The character that takes back what stands before it. -/
def backspace : Char := '\x08'

structure Typed where
  /-- The characters, the last one first. -/
  chars : List Char := []
  /-- The sizes of the clusters that can still be taken back, the last one first. -/
  sizes : List Nat := []
  deriving DecidableEq, Repr, Inhabited

namespace Typed

def byteSize : List Char → Nat
  | [] => 0
  | c :: rest => c.utf8Size + byteSize rest

def dropBytes : Nat → List Char → List Char
  | 0, chars => chars
  | _, [] => []
  | bytes + 1, c :: rest => dropBytes (bytes + 1 - c.utf8Size) rest

/-- Take one more cluster: a backspace takes back the cluster before it, if there is one.
The size of a cluster is kept in one byte, so of a very long cluster only a part goes. -/
def push (typed : Typed) (cluster : List Char) : Typed :=
  if cluster = [backspace] then
    match typed.sizes with
    | [] => typed
    | size :: sizes => { chars := dropBytes size typed.chars, sizes }
  else
    { chars := cluster.reverse ++ typed.chars
      sizes := byteSize cluster % 256 :: typed.sizes }

end Typed

def takeBack (text : String) : String :=
  String.ofList ((Text.clusters text.toList).foldl Typed.push {}).chars.reverse

/-! ## Inputs of a stream -/

/-- The text goes on in the next line: it leaves a block open or ends in a backslash. -/
def isOpen (text : String) : Bool :=
  text.toList.getLast? == some '\\' || 0 < openBlocks text

/-- The lines of a stream, each with its line end, where `before` are the characters of
the current line so far, the last one first. -/
def streamLines : (before : List Char) → List Char → List String
  | [], [] => []
  | before, [] => [String.ofList before.reverse]
  | before, c :: rest =>
    if c = '\n' then String.ofList (c :: before).reverse :: streamLines [] rest
    else streamLines (c :: before) rest

def splitLineEnd (line : String) : String × String :=
  match line.toList.reverse with
  | '\n' :: '\r' :: rest => (String.ofList rest.reverse, "\r\n")
  | '\n' :: rest => (String.ofList rest.reverse, "\n")
  | _ => (line, "")

inductive Extended where
  /-- The input goes on behind this text. -/
  | unfinished (before : String)
  /-- The input is whole. -/
  | finished (input : String)
  deriving DecidableEq, Repr, Inhabited

/-- Take one more line, where `before` is what an open input has so far.  Backspaces reach
back over the ends of its lines. -/
def extend (before line : String) : Extended :=
  let (text, lineEnd) := splitLineEnd line
  let input := takeBack (before ++ text)
  if isOpen input then .unfinished (input ++ lineEnd) else .finished input

/-- The inputs that lines of a stream make, where `before` is what an open input has so far.
An input that is still open at the end of the stream is none. -/
def ofLines : (before : String) → List String → List String
  | _, [] => []
  | before, line :: rest =>
    match extend before line with
    | .unfinished before => ofLines before rest
    | .finished input => input :: ofLines "" rest

end StepScript.Input
