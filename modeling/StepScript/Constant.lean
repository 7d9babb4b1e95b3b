import StepScript.Number.Text
import StepScript.Number.Reading
set_option autoImplicit false

/-!
# Constants

The values of the language.  An identifier is a constant only inside trees:
evaluation replaces it by the value that it names.
-/

namespace StepScript

/-- An object, by its identity.  The name of its class or behaviour and its number
never change, so they travel with the reference. -/
structure ObjectRef where
  /-- Place of the object in the store. -/
  key : Nat
  typeName : String
  /-- The number that the object is shown with. -/
  serial : Nat
  deriving DecidableEq, Repr, Inhabited

def ObjectRef.text (object : ObjectRef) : String :=
  s!"<{object.typeName}#{object.serial}>"

/-- A value, or an identifier that has not been looked up yet. -/
inductive Constant where
  | none
  | boolean (value : Bool)
  | number (value : Float)
  | string (value : String)
  | identifier (name : String)
  | object (value : ObjectRef)
  deriving DecidableEq, Inhabited

namespace Constant

/-- The constant that a number, string, word or identifier token stands for.  A quote
at the start makes it a string, whether or not there is one at the end. -/
def ofLexeme (text : String) : Constant :=
  match text with
  | "True" => .boolean true
  | "False" => .boolean false
  | "None" => .none
  | _ =>
    match text.toList with
    | '"' :: body =>
      .string (String.ofList (if body.getLast? = some '"' then body.dropLast else body))
    | chars =>
      match Number.read? chars with
      | some value => .number value
      | _ => .identifier text

def typeName : Constant → String
  | .none => "None"
  | .boolean _ => "Boolean"
  | .number _ => "Number"
  | .string _ => "String"
  | .identifier _ => "Variable"
  | .object _ => "Object"

/-- `False`, `None`, zero and the empty string are false in a condition. -/
def truthy : Constant → Bool
  | .none => false
  | .boolean value => value
  | .number value => value != 0.0
  | .string value => !value.isEmpty
  | .identifier _ | .object _ => true

def text : Constant → String
  | .none => "None"
  | .boolean value => if value then "True" else "False"
  | .number value => Number.text value
  | .string value => value
  | .identifier name => name
  | .object value => value.text

/-- The text of the constant, with quotes around a string. -/
def quoted : Constant → String
  | .string value => s!"\"{value}\""
  | value => value.text

def describe : Constant → String
  | .none => "None"
  | .string value => s!"String \"{value}\""
  | .object value => value.text
  | value => s!"{value.typeName} {value.text}"

/-- The two constants are equal: numbers as floats, so that a NaN differs from itself,
and objects by identity. -/
def same : Constant → Constant → Bool
  | .none, .none => true
  | .boolean a, .boolean b => a == b
  | .number a, .number b => a == b
  | .string a, .string b => a == b
  | .identifier a, .identifier b => a == b
  | .object a, .object b => a.key == b.key
  | _, _ => false

def object? : Constant → Option ObjectRef
  | .object value => some value
  | _ => Option.none

end Constant

end StepScript
