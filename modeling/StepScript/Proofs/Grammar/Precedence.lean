import StepScript.Proofs.Grammar.Splitting
set_option autoImplicit false

/-!
# Priorities of operators

In the rendering of an expression an operand stands in parentheses only where its operator
could not hold it together: on the left and behind a sign if it binds looser than the operator,
on the right also if it binds as tightly.  What is parsed of such a rendering is the expression
itself, whatever its operators are and however deep they stand.
-/

namespace StepScript.Grammar

/-- The node is an expression.  Its leaves and names can be spelled, and a member is a variable,
a type name or a call. -/
inductive IsExpression : Node → Prop where
  | leaf {token : Token} {node : Node} (lexical : token.symbol.Lexical)
      (made : Grammar.leaf token = .ok node) : IsExpression node
  | unary {op : UnaryOp} {operand : Node} (token : Token) (inner : IsExpression operand) :
      IsExpression ⟨.unary op operand, token⟩
  | binary {op : BinaryOp} {lhs rhs : Node} (token : Token) (first : IsExpression lhs)
      (second : IsExpression rhs) : IsExpression ⟨.binary op lhs rhs, token⟩
  | member {target member : Node} (token : Token) (fits : isMember member = true)
      (first : IsExpression target) (second : IsExpression member) :
      IsExpression ⟨.member target member, token⟩
  | call {name : String} {args : List Node} (token : Token) (named : IsIdentifier name)
      (inner : ∀ arg ∈ args, IsExpression arg) : IsExpression ⟨.call name args, token⟩
  | create {name : String} {args : List Node} (token : Token) (named : IsType name)
      (inner : ∀ arg ∈ args, IsExpression arg) : IsExpression ⟨.create name args, token⟩

theorem exists_reads_arguments {arg : Node} {args : List Node}
    (h : ∀ node ∈ arg :: args, ∃ list, Reads (.expression node) list) :
    ∃ list, Reads (.arguments (arg :: args)) list := by
  induction args generalizing arg with
  | nil =>
    obtain ⟨list, hl⟩ := h arg (List.mem_cons_self ..)
    exact ⟨list, .lastArgument hl⟩
  | cons next rest ih =>
    rw [List.forall_mem_cons] at h
    obtain ⟨⟨first, hf⟩, ht⟩ := h
    obtain ⟨more, hm⟩ := ih ht
    exact ⟨_, .nextArgument hf hm⟩

theorem exists_reads_argumentList {args : List Node}
    (h : ∀ node ∈ args, ∃ list, Reads (.expression node) list) :
    ∃ list, Reads (.argumentList args) list := by
  cases args with
  | nil => exact ⟨[], .noArguments⟩
  | cons arg rest =>
    obtain ⟨list, hl⟩ := exists_reads_arguments h
    exact ⟨list, .someArguments hl⟩

/-- Every expression can be read off some symbols. -/
theorem IsExpression.exists_reads {node : Node} (h : IsExpression node) :
    ∃ list, Reads (.expression node) list := by
  induction h with
  | leaf lexical made => exact ⟨_, .leaf lexical made⟩
  | unary token _ ih =>
    obtain ⟨list, hl⟩ := ih
    exact ⟨_, .unary token hl⟩
  | @binary op _ _ token _ _ ihFirst ihSecond =>
    obtain ⟨left, hl⟩ := ihFirst
    obtain ⟨right, hr⟩ := ihSecond
    exact ⟨_, .binary token (lexical_symbol op) (canonical_symbol op) hl hr⟩
  | member token fits _ _ ihFirst ihSecond =>
    obtain ⟨left, hl⟩ := ihFirst
    obtain ⟨right, hr⟩ := ihSecond
    exact ⟨_, .member token fits hl hr⟩
  | call token named _ ih =>
    obtain ⟨list, hl⟩ := exists_reads_argumentList ih
    exact ⟨_, .call token named hl⟩
  | create token named _ ih =>
    obtain ⟨list, hl⟩ := exists_reads_argumentList ih
    exact ⟨_, .createWith token named hl⟩

/-- The rendering of an expression, in front of a token that ends it, is parsed to the expression,
and the parser stops at that token.  A sub-parser in the run has depth enough if it has two more
than the run has tokens. -/
theorem expressionAt_rendering {node : Node} (h : IsExpression node) {view : View} {pos depth : Nat}
    {run more : List Token} {stop : Token} (hf : view.from pos = run ++ stop :: more)
    (hrun : symbols run = node.canonical) (hs : Stops stop) (hd : run.length + 2 ≤ depth) :
    view.peek (pos + run.length) = stop ∧
      ∃ other, (expressionAt view (headedRun (matchOne depth)) pos).outcome
        = .ok (other, pos + run.length) ∧ other.erase = node.erase := by
  obtain ⟨list, hr⟩ := h.exists_reads
  obtain ⟨-, other, ho, he⟩ :=
    (hr.expressible node (List.mem_singleton_self _)).expressionAt hf hrun hs
  obtain ⟨hne, hend, hsp⟩ := expressionAt_ok_iff.mp ho
  have hl : runLength 0 (view.from pos) = run.length := by omega
  -- the depth only matters for calls and creations, which lie within the run
  have hsame : split (headedRun (matchOne depth)) (run.length + 1) run stop
      = split (headedRun entryAt) (run.length + 1) run stop :=
    split_congr (fun part after _ hp => headedRun_matchOne (by omega)) _ run stop (Nat.le_refl _)
  have hp : view.peek (pos + run.length) = stop := (View.peek_of_from (View.from_append hf)).1
  refine ⟨hp, other, expressionAt_ok_iff.mpr ⟨hne, hend, ?_⟩, he⟩
  rw [hl, hp, hf, List.take_left] at hsp ⊢
  rw [hsame]
  exact hsp

/-- A word, in no place in particular. -/
def wordToken (text : String) : Token := ⟨Lexer.classify text, text, 1, 1, 1, 0, ""⟩

/-- What the expression `a - (b - -c).f(not x) * y` is parsed to: the right operand of the first
operator needs no parentheses, and the operand of the point does. -/
theorem expressionAt_rendering_operands :
    ∃ other, (expressionAt ⟨(["a", "-", "(", "b", "-", "-", "c", ")", ".", "f", "(", "not", "x",
        ")", "*", "y", ")"].map wordToken).toArray, wordToken ")"⟩
        (headedRun (matchOne 18)) 0).outcome = .ok (other, 16) ∧
      other.erase = Node.erase ⟨.binary .sub ⟨.literal (.identifier "a"), wordToken "a"⟩
        ⟨.binary .mul
          ⟨.member
            ⟨.binary .sub ⟨.literal (.identifier "b"), wordToken "b"⟩
              ⟨.unary .negate ⟨.literal (.identifier "c"), wordToken "c"⟩, wordToken "-"⟩,
              wordToken "-"⟩
            ⟨.call "f" [⟨.unary .not ⟨.literal (.identifier "x"), wordToken "x"⟩,
              wordToken "not"⟩], wordToken "f"⟩, wordToken "."⟩
          ⟨.literal (.identifier "y"), wordToken "y"⟩, wordToken "*"⟩, wordToken "-"⟩ := by
  have hleaf : ∀ text ∈ ["a", "b", "c", "x", "y"],
      IsExpression ⟨.literal (.identifier text), wordToken text⟩ := by
    intro text ht
    have hm : leaf (wordToken text) = .ok ⟨.literal (.identifier text), wordToken text⟩ := by
      simp only [List.mem_cons, List.not_mem_nil, or_false] at ht
      rcases ht with rfl | rfl | rfl | rfl | rfl <;> rfl
    exact .leaf (show (wordToken text).symbol.Lexical from .ofWord text) hm
  have hf : View.from ⟨(["a", "-", "(", "b", "-", "-", "c", ")", ".", "f", "(", "not", "x",
        ")", "*", "y", ")"].map wordToken).toArray, wordToken ")"⟩ 0
      = ["a", "-", "(", "b", "-", "-", "c", ")", ".", "f", "(", "not", "x", ")", "*",
        "y"].map wordToken ++ wordToken ")" :: [] := rfl
  have hargs : ∀ arg ∈ [(⟨.unary .not ⟨.literal (.identifier "x"), wordToken "x"⟩,
      wordToken "not"⟩ : Node)], IsExpression arg :=
    List.forall_mem_singleton.mpr (.unary _ (hleaf "x" (by simp)))
  exact (expressionAt_rendering (.binary _ (hleaf "a" (by simp)) (.binary _
    (.member _ rfl (.binary _ (hleaf "b" (by simp)) (.unary _ (hleaf "c" (by simp))))
      (.call _ (show IsIdentifier "f" from rfl) hargs)) (hleaf "y" (by simp))))
    hf (by decide +kernel) (.inl rfl) (by decide)).2

end StepScript.Grammar
