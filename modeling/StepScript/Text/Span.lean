set_option autoImplicit false

/-!
# Spans of characters

A class of characters is kept as the list of the spans of code points in it, from the first
to the last.  A span says how far it lies behind the one before it, and how many code points
it has.
-/

namespace StepScript.Text

/-- A span of code points: how many lie between it and the span before it, or below it when it
is the first, and how many are in it. -/
abbrev Span : Type := Nat × Nat

/-- The code point that lies `offset` behind the spans before these lies in one of them. -/
def offsetInSpans : List Span → Nat → Bool
  | [], _ => false
  | (gap, length) :: rest, offset =>
    if offset < gap + length then gap ≤ offset else offsetInSpans rest (offset - (gap + length))

def memSpans (spans : List Span) (c : Char) : Bool :=
  offsetInSpans spans c.toNat

end StepScript.Text
