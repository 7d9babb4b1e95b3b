import StepScript.Error
set_option autoImplicit false

/-!
# Arithmetic

What the operations of expressions yield.  Equality is defined for all values; the
other operations are defined for values of one type, except that a string can be
joined with a number.
-/

namespace StepScript

/-- The text that a value adds to a string it is joined with. -/
def Constant.joinText? : Constant → Option String
  | .string value => some value
  | .number value => some (Number.text value)
  | _ => Option.none

def Constant.isString : Constant → Bool
  | .string _ => true
  | _ => false

namespace BinaryOp

def mismatch (op : BinaryOp) (lhs rhs : Constant) : Except Error Constant :=
  .error (.type (.binary op lhs rhs))

/-- Whether a comparison holds, given whether the left operand is less than, and
whether it is equal to, the right one.  With neither less, equal nor greater, as
when one is a NaN, no comparison holds. -/
def holds (op : BinaryOp) (less equal greater : Bool) : Bool :=
  match op with
  | .less => less
  | .lessEqual => less || equal
  | .greater => greater
  | _ => greater || equal

def join (lhs rhs : Constant) : Except Error Constant :=
  match lhs.joinText?, rhs.joinText? with
  | some l, some r => .ok (.string (l ++ r))
  | _, _ => mismatch .add lhs rhs

/-- Compare two numbers or two strings; strings go by their characters' code points. -/
def compare (op : BinaryOp) (lhs rhs : Constant) : Except Error Constant :=
  match lhs, rhs with
  | .number l, .number r => .ok (.boolean (op.holds (l < r) (l == r) (r < l)))
  | .string l, .string r => .ok (.boolean (op.holds (l < r) (l == r) (r < l)))
  | _, _ => mismatch op lhs rhs

/-- Calculate with two numbers.  Division and remainder need a divisor that is not
zero. -/
def calculate (op : BinaryOp) (l r : Float) : Except Error Constant :=
  match op with
  | .add => .ok (.number (l + r))
  | .sub => .ok (.number (l - r))
  | .mul => .ok (.number (l * r))
  | .div =>
    if r == 0.0 then .error { cause := .divisionByZero } else .ok (.number (l / r))
  | .mod =>
    if r == 0.0 then .error { cause := .divisionByZero }
    else .ok (.number (Number.remainder l r))
  | _ => mismatch op (.number l) (.number r)

def apply (op : BinaryOp) (lhs rhs : Constant) : Except Error Constant :=
  match op with
  | .equal => .ok (.boolean (lhs.same rhs))
  | .notEqual => .ok (.boolean (!lhs.same rhs))
  | .and =>
    match lhs, rhs with
    | .boolean l, .boolean r => .ok (.boolean (l && r))
    | _, _ => mismatch op lhs rhs
  | .or =>
    match lhs, rhs with
    | .boolean l, .boolean r => .ok (.boolean (l || r))
    | _, _ => mismatch op lhs rhs
  | .less | .lessEqual | .greater | .greaterEqual => op.compare lhs rhs
  | _ =>
    if op == .add && (lhs.isString || rhs.isString) then join lhs rhs
    else
      match lhs, rhs with
      | .number l, .number r => op.calculate l r
      | _, _ => mismatch op lhs rhs

end BinaryOp

def UnaryOp.apply (op : UnaryOp) (operand : Constant) : Except Error Constant :=
  match op, operand with
  | .negate, .number value => .ok (.number (-value))
  | .not, .boolean value => .ok (.boolean (!value))
  | op, operand => .error (.type (.unary op operand))

end StepScript
