import StepScript.Token.Basic
import StepScript.Text.Letter
set_option autoImplicit false

/-!
# From lines to tokens

A line is first cut into lexemes: numbers, words, operators and single characters.
The lexemes then become tokens from left to right.  A quote takes everything up to
the next quote, or to the end of the line, into a string.  `//` drops the rest of
the line, and `/*` drops all lexemes up to the next `*/`, on this or a later line.
-/

namespace StepScript

namespace Lexer

/-! ## Lexemes -/

/-- The characters that only separate lexemes. -/
def isSpace (c : Char) : Bool := c == ' ' || c == '\t' || c == '\r'

def isWordStart (c : Char) : Bool := c.isAlpha || c == '_'

def isWordPart (c : Char) : Bool := c.isAlphanum || c == '_'

/-- The lexemes of two signs. -/
def longSigns : List (Char × Char) :=
  [('/', '/'), ('/', '*'), ('*', '/'), ('=', '='), ('!', '='), ('<', '='), ('>', '=')]

/-- How many characters of `rest` belong to the number whose first digit stands in
front of it: further digits, and a point if digits follow it. -/
def numberTail (rest : List Char) : Nat :=
  let whole := (rest.takeWhile Char.isDigit).length
  match rest.drop whole with
  | '.' :: more =>
    let fraction := (more.takeWhile Char.isDigit).length
    if fraction = 0 then whole else whole + 1 + fraction
  | _ => whole

/-- How many characters of `rest` belong to the lexeme that starts with `c`. -/
def tailLength (c : Char) (rest : List Char) : Nat :=
  if c.isDigit then numberTail rest
  else if isWordStart c then (rest.takeWhile isWordPart).length
  else
    match rest with
    | d :: _ => if longSigns.contains (c, d) then 1 else 0
    | [] => 0

structure Lexeme where
  column : Nat
  text : List Char
  deriving DecidableEq, Repr, Inhabited

def lexemesFrom (column : Nat) : List Char → List Lexeme
  | [] => []
  | c :: rest =>
    if isSpace c then lexemesFrom (column + 1) rest
    else
      let extra := tailLength c rest
      ⟨column, c :: rest.take extra⟩ :: lexemesFrom (column + 1 + extra) (rest.drop extra)
termination_by cs => cs.length
decreasing_by
  all_goals simp only [List.length_cons, List.length_drop]; omega

def lexemes (line : List Char) : List Lexeme := lexemesFrom 0 line

/-! ## Tokens of a line -/

/-- The kind of a lexeme that is no comment sign and no quote. -/
def classify (text : String) : TokenKind :=
  match TokenKind.reserved? text with
  | some kind => kind
  | none =>
    match text.toList with
    | [] => .unknown
    | c :: _ =>
      if Text.isUppercase c then .typeName
      else if Text.isAlphabetic c || c == '_' then .identifier
      else if c.isDigit then .number
      else .unknown

/-- A token within its line: everything but its line, index and source. -/
structure Piece where
  kind : TokenKind
  text : String
  start : Nat
  stop : Nat
  deriving DecidableEq, Repr, Inhabited

/-- The string that starts with the quote at `column` of `line`: it goes to the next
quote, or to the end of the line. -/
def stringAt (line : List Char) (column : Nat) : List Char :=
  match line.drop column with
  | [] => []
  | quote :: rest =>
    let body := rest.takeWhile (· != '"')
    quote :: body ++ (rest.drop body.length).take 1

/-- The tokens of the lexemes of `line`, and whether a comment is open after them.
Lexemes in front of column `resume` belong to a string that has been taken. -/
def piecesFrom (line : List Char) : (comment : Bool) → (resume : Nat) → List Lexeme →
    List Piece × Bool
  | comment, _, [] => ([], comment)
  | comment, resume, lexeme :: rest =>
    if lexeme.column < resume then piecesFrom line comment resume rest
    else if comment then
      piecesFrom line (lexeme.text != ['*', '/']) resume rest
    else
      match lexeme.text with
      | ['/', '/'] => ([], false)
      | ['/', '*'] => piecesFrom line true resume rest
      | ['"'] =>
        let literal := stringAt line lexeme.column
        let stop := lexeme.column + literal.length
        let piece := ⟨.string, String.ofList literal, lexeme.column + 1, stop⟩
        let (pieces, stillOpen) := piecesFrom line false stop rest
        (piece :: pieces, stillOpen)
      | chars =>
        let text := String.ofList chars
        let piece :=
          ⟨classify text, text, lexeme.column + 1, lexeme.column + chars.length⟩
        let (pieces, stillOpen) := piecesFrom line false resume rest
        (piece :: pieces, stillOpen)

/-- The tokens of a line with the end of the line behind them, and whether a comment
is open after it. -/
def linePieces (comment : Bool) (line : List Char) : List Piece × Bool :=
  let (pieces, stillOpen) := piecesFrom line comment 0 (lexemes line)
  let column := line.length + 1
  (pieces ++ [⟨.endOfLine, "", column, column⟩], stillOpen)

/-! ## Tokens of a source -/

def sourcePieces (comment : Bool) (line : Nat) : List String → List (Nat × Piece)
  | [] => []
  | text :: rest =>
    let (pieces, stillOpen) := linePieces comment text.toList
    pieces.map (fun piece => (line, piece)) ++ sourcePieces stillOpen (line + 1) rest

/-- Line and column of the end of the file: behind the last character. -/
def endPlace (lines : List String) : Nat × Nat :=
  match lines.getLast? with
  | some last => (lines.length, last.toList.length + 1)
  | none => (1, 1)

/-- The lines of a text.  A line ends with a line feed, or with a carriage return and
a line feed; a text that ends so has no further line. -/
def splitLines (text : List Char) : List (List Char) :=
  if text.isEmpty then []
  else
    let line := text.takeWhile (· != '\n')
    match _h : text.dropWhile (· != '\n') with
    | [] => [line]
    | _ :: rest =>
      (if line.getLast? = some '\r' then line.dropLast else line) :: splitLines rest
termination_by text.length
decreasing_by
  have shorter := (List.dropWhile_sublist (l := text) (· != '\n')).length_le
  simp_all only [List.length_cons]
  omega

end Lexer

/-- The tokens of `lines`.  Each line ends with an end of line, and the last token is
the only end of file. -/
def tokenizeLines (lines : List String) (source : String) : Array Token :=
  let (line, column) := Lexer.endPlace lines
  let pieces := Lexer.sourcePieces false 1 lines ++ [(line, ⟨.endOfFile, "", column, column⟩)]
  let token := fun (entry : (Nat × Lexer.Piece) × Nat) =>
    let ((line, piece), index) := entry
    { kind := piece.kind, text := piece.text, line, start := piece.start,
      stop := piece.stop, index, source : Token }
  (pieces.zipIdx.map token).toArray

def tokenize (text : String) (source : String) : Array Token :=
  tokenizeLines ((Lexer.splitLines text.toList).map String.ofList) source

end StepScript
