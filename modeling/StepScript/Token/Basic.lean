set_option autoImplicit false

/-!
# Tokens

A token is a piece of a source line with its kind and its place.  The kind alone
decides how an operator binds; the kind and the text decide whether a token ends
an expression.
-/

namespace StepScript

inductive TokenKind where
  | number
  /-- A quoted string; its text keeps the quotes. -/
  | string
  /-- A word that starts with an uppercase letter: a type, `True`, `False` or `None`. -/
  | typeName
  /-- Any other word. -/
  | identifier
  | keyword
  | plus
  | minus
  | star
  | slash
  | percent
  /-- `is` or `==` -/
  | equal
  /-- `isnt` or `!=` -/
  | notEqual
  | less
  | lessEqual
  | greater
  | greaterEqual
  | and
  | or
  | not
  | assign
  | dot
  | comma
  | leftParen
  | rightParen
  | unknown
  | endOfLine
  | endOfFile
  deriving DecidableEq, Repr, Inhabited

namespace TokenKind

/-- How tightly the kind binds as a binary operator; lower values bind looser. -/
def binaryPriority? : TokenKind → Option Nat
  | .or => some 10
  | .and => some 20
  | .equal | .notEqual => some 30
  | .less | .lessEqual | .greater | .greaterEqual => some 40
  | .plus | .minus => some 50
  | .star | .slash | .percent => some 60
  | .dot => some 100
  | _ => none

/-- How tightly the kind binds in front of its operand. -/
def unaryPriority? : TokenKind → Option Nat
  | .not => some 25
  | .minus => some 70
  | _ => none

/-- The kind is an operator, so that a sign behind it is a unary one. -/
def isOperator (kind : TokenKind) : Bool :=
  kind.binaryPriority?.isSome || kind == .not

def describe : TokenKind → String
  | .number => "number"
  | .string => "string"
  | .typeName => "type name"
  | .identifier => "identifier"
  | .keyword => "keyword"
  | .endOfLine => "end of line"
  | .endOfFile => "end of file"
  | .unknown => "unknown character"
  | _ => "operator"

def signs : List (String × TokenKind) :=
  [("+", .plus), ("-", .minus), ("*", .star), ("/", .slash), ("%", .percent),
   ("==", .equal), ("!=", .notEqual), ("<", .less), ("<=", .lessEqual),
   (">", .greater), (">=", .greaterEqual), ("=", .assign), (".", .dot), (",", .comma),
   ("(", .leftParen), (")", .rightParen)]

def keywords : List String :=
  ["if", "then", "else", "end", "while", "do", "repeat", "until", "for", "from", "to",
   "step", "by", "function", "return", "break", "continue", "class", "of", "type",
   "new", "property", "shared", "constructor", "behaviour", "has", "requires",
   "supports", "excludes", "native", "wait"]

def wordOperators : List (String × TokenKind) :=
  [("is", .equal), ("isnt", .notEqual), ("and", .and), ("or", .or), ("not", .not)]

/-- The kind that a text has because it is an operator or a keyword. -/
def reserved? (text : String) : Option TokenKind :=
  match signs.lookup text with
  | some kind => some kind
  | none =>
    if keywords.contains text then some .keyword else wordOperators.lookup text

end TokenKind

structure Token where
  kind : TokenKind
  text : String
  /-- Line, counted from one. -/
  line : Nat
  /-- Column of the first character, counted from one. -/
  start : Nat
  /-- Column of the last character. -/
  stop : Nat
  /-- Position among the tokens of the source. -/
  index : Nat
  /-- Name of the source. -/
  source : String
  deriving DecidableEq, Repr, Inhabited

namespace Token

/-- The token is the word or sign `text`, and not a string that happens to read so. -/
def spells (token : Token) (text : String) : Bool :=
  token.text == text && token.kind != .string

def expressionKeywords : List String := ["new"]

/-- An expression outside of parentheses stops in front of the token. -/
def endsExpression (token : Token) : Bool :=
  match token.kind with
  | .endOfLine | .endOfFile | .assign | .comma => true
  | .keyword => !expressionKeywords.contains token.text
  | _ => false

def describe (token : Token) : String :=
  match token.kind with
  | .endOfLine | .endOfFile => token.kind.describe
  | _ => s!"'{token.text}'"

def place (token : Token) : String :=
  s!"{token.source}:{token.line}:{token.start}"

end Token

end StepScript
