import StepScript.Token.Basic
set_option autoImplicit false

/-!
# Operations

The unary and binary operations of expressions and the operators that write them.
-/

namespace StepScript

inductive BinaryOp where
  | add
  | sub
  | mul
  | div
  | mod
  | equal
  | notEqual
  | less
  | lessEqual
  | greater
  | greaterEqual
  | and
  | or
  deriving DecidableEq, Repr, Inhabited

namespace BinaryOp

def ofKind? : TokenKind → Option BinaryOp
  | .plus => some .add
  | .minus => some .sub
  | .star => some .mul
  | .slash => some .div
  | .percent => some .mod
  | .equal => some .equal
  | .notEqual => some .notEqual
  | .less => some .less
  | .lessEqual => some .lessEqual
  | .greater => some .greater
  | .greaterEqual => some .greaterEqual
  | .and => some .and
  | .or => some .or
  | _ => none

def text : BinaryOp → String
  | .add => "+"
  | .sub => "-"
  | .mul => "*"
  | .div => "/"
  | .mod => "%"
  | .equal => "is"
  | .notEqual => "isnt"
  | .less => "<"
  | .lessEqual => "<="
  | .greater => ">"
  | .greaterEqual => ">="
  | .and => "and"
  | .or => "or"

end BinaryOp

inductive UnaryOp where
  | negate
  | not
  deriving DecidableEq, Repr, Inhabited

def UnaryOp.text : UnaryOp → String
  | .negate => "-"
  | .not => "not"

end StepScript
