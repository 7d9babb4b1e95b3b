import StepScript.Proofs.Grammar.Runs
set_option autoImplicit false

/-!
# Rendered expressions are split into themselves

The run of a rendered expression is split at the operator that the rendering put there, and its
operands in turn, so that the parser gives the expression again, up to the places of tokens
(`Reads.splits`).  A run without operators is an expression in parentheses, a leaf, a call or a
creation, and the arguments of the last two are runs within the run.
-/

namespace StepScript.Grammar

variable {point : SplitPoint} {sign token after : Token} {priority pos : Nat} {node : Node}
  {rest : List Token} {view : View} {args : List Node} {list : List Symbol} {name : String}

open Symbol (keyword identifier leftParen rightParen comma assign dot fileEnd)

/-! ## Where a run is split -/

theorem loosest_mem {best : Option SplitPoint} {points : List SplitPoint}
    (h : loosest best points = some point) : best = some point ∨ point ∈ points := by
  induction points generalizing best with
  | nil => exact .inl h
  | cons first rest ih =>
    rcases ih h with hb | hr
    · have hl : looser best first = point := Option.some.inj hb
      unfold looser at hl
      split at hl
      · split at hl
        · exact .inr (hl ▸ List.mem_cons_self ..)
        · exact .inl (congrArg some hl)
      · exact .inr (hl ▸ List.mem_cons_self ..)
    · exact .inr (List.mem_cons_of_mem _ hr)

/-- A point is kept if none to its left is looser. -/
theorem loosest_some {others : List SplitPoint}
    (h : ∀ other ∈ others, point.priority ≤ other.priority) :
    loosest (some point) others = some point := by
  induction others with
  | nil => rfl
  | cons other rest ih =>
    rw [List.forall_mem_cons] at h
    have hl : looser (some point) other = point := if_neg (Nat.not_lt.mpr h.1)
    change loosest (some (looser (some point) other)) rest = some point
    rw [hl, ih h.2]

/-- A run is split at a point that is looser than those to its right and no tighter than those
to its left. -/
theorem loosest_between {points others : List SplitPoint}
    (hp : ∀ other ∈ points, point.priority < other.priority)
    (ho : ∀ other ∈ others, point.priority ≤ other.priority) :
    loosest none (points ++ point :: others) = some point := by
  have hr : looser (loosest none points) point = point := by
    cases hb : loosest none points with
    | none => rfl
    | some best =>
      rcases loosest_mem hb with hn | hmem
      · cases hn
      · exact if_pos (hp best hmem)
  calc loosest none (points ++ point :: others)
      = loosest (some (looser (loosest none points) point)) others := by
        simp [loosest, List.foldl_append]
    _ = some point := by rw [hr, loosest_some ho]

section Split

variable {headed : List Token → Token → Attempt (Node × Nat)} {depth : Nat}

theorem split_sign {second : List Token} {argument : Node}
    (hp : splitPoint? (sign :: second) after = .ok (some ⟨0, true, priority⟩))
    (har : (split headed depth second after).outcome = .ok argument) :
    (split headed (depth + 1) (sign :: second) after).outcome
      = .ok ⟨.unary (unaryOperation sign) argument, sign⟩ := by
  unfold split
  rw [Attempt.outcome_bind_of_ok hp]
  exact Attempt.outcome_bind_of_ok har

theorem split_operation {first second : List Token} {op : Token} {lhs rhs node : Node}
    (hp : splitPoint? (first ++ op :: second) after = .ok (some ⟨first.length, false, priority⟩))
    (hlhs : (split headed depth first op).outcome = .ok lhs)
    (hrhs : (split headed depth second after).outcome = .ok rhs)
    (hn : operation op lhs rhs (second.headD after) = .ok node) :
    (split headed (depth + 1) (first ++ op :: second) after).outcome = .ok node := by
  have hd : (first ++ op :: second).drop first.length = op :: second := List.drop_left
  have ht : (first ++ op :: second).take first.length = first := List.take_left
  generalize hrun : first ++ op :: second = run at hp hd ht ⊢
  cases run with
  | nil => simp at hrun
  | cons head rest =>
    unfold split
    rw [Attempt.outcome_bind_of_ok hp]
    simp only [hd, ht, Bool.false_eq_true, if_false]
    rw [Attempt.outcome_bind_of_ok hlhs, Attempt.outcome_bind_of_ok hrhs]
    exact hn

theorem split_group {start close : Token} {inside : List Token}
    (hpn : splitPoint? (start :: (inside ++ [close])) after = .ok none)
    (hs : start.kind = .leftParen) (hc : close.kind = .rightParen)
    (hi : Balanced false (symbols inside)) :
    (split headed (depth + 1) (start :: (inside ++ [close])) after).outcome
      = (split headed depth inside close).outcome := by
  have hp : isParenthesised (start :: (inside ++ [close])) = true := by
    have hcl : closingFrom 0 0 (start :: (inside ++ [close]))
        = some (start :: (inside ++ [close])).length.pred := by
      rw [closingFrom.eq_def]
      simp only [hs]
      rw [hi.closingFrom_append rfl, closingFrom.eq_def]
      simp [hc]
      omega
    simp [isParenthesised, hs, hcl]
  have hl : (start :: (inside ++ [close])).getLastD after = close := by
    rw [← List.cons_append, List.getLastD_concat]
  rw [split, Attempt.outcome_bind_of_ok hpn]
  simp only [hp, if_true, hl, List.dropLast_concat]

theorem split_leaf (hp : splitPoint? [token] after = .ok none) (hk : token.kind ≠ .leftParen)
    (hn : leaf token = .ok node) :
    (split headed (depth + 1) [token] after).outcome = .ok node := by
  rw [split, Attempt.outcome_bind_of_ok hp]
  simp [isParenthesised, hk, hn]

theorem split_headed {head : Token} (hp : splitPoint? (head :: rest) after = .ok none)
    (hk : head.kind ≠ .leftParen) (hr : rest ≠ [])
    (hn : (headed (head :: rest) after).outcome = .ok (node, (head :: rest).length)) :
    (split headed (depth + 1) (head :: rest) after).outcome = .ok node := by
  rw [split, Attempt.outcome_bind_of_ok hp]
  simp only [isParenthesised, hk, decide_false, Bool.false_and, Bool.false_eq_true, if_false,
    List.isEmpty_iff, hr]
  rw [Attempt.outcome_bind_of_ok hn]
  simp

end Split

/-! ## Expressions in a view -/

/-- Splitting the run of the rendered expression gives the expression. -/
def Splits (node : Node) : Prop :=
  ∀ run after depth, symbols run = node.canonical → after.kind ≠ .leftParen → run.length < depth →
    ∃ other, (split (headedRun entryAt) depth run after).outcome = .ok other ∧
      other.erase = node.erase

/-- The node is an expression that is given by its rendering. -/
structure Expressible (node : Node) : Prop where
  reads : ∃ list, Reads (.expression node) list
  splits : Splits node

/-- Parentheses around an operand make no difference. -/
theorem Expressible.operand (h : Expressible node) {grouped : Bool} {run : List Token} {depth : Nat}
    (hrun : symbols run = StepScript.operand parenthesised grouped node.canonical)
    (haf : after.kind ≠ .leftParen) (hd : run.length < depth) :
    ∃ other, (split (headedRun entryAt) depth run after).outcome = .ok other ∧
      other.erase = node.erase := by
  cases grouped with
  | false => exact h.splits run after depth hrun haf hd
  | true =>
    obtain ⟨start, inside, close, back, rfl, hs, hc, hi, hbc⟩ := symbols_eq_group hrun
    obtain rfl := symbols_eq_nil hbc
    have hb : Balanced false (symbols inside) := by
      obtain ⟨list, hr⟩ := h.reads
      rw [hi]
      exact (hr.rendering.balanced rfl).enclosed
    obtain ⟨depth, rfl⟩ : ∃ less, depth = less + 1 := ⟨depth - 1, by omega⟩
    have hp := (scans_group hs hc hb).splitPoint?_eq after
    rw [split_group hp hs hc hb]
    refine h.splits inside close depth hi (by rw [hc]; decide) ?_
    simp only [List.length_cons, List.length_append] at hd
    omega

/-- A run stops in front of the token, outside of parentheses. -/
def Stops (token : Token) : Prop := token.kind = .rightParen ∨ token.endsExpression = true

theorem Stops.runLength_eq (h : Stops token) (rest : List Token) :
    runLength 0 (token :: rest) = 0 := by
  rw [runLength]
  split <;> simp_all [Stops, Token.endsExpression]

theorem Stops.kind_ne (h : Stops token) : token.kind ≠ .leftParen := by
  intro hk
  simp [Stops, Token.endsExpression, hk] at h

theorem View.peek_of_from (h : view.from pos = token :: rest) :
    view.peek pos = token ∧ view.from (pos + 1) = rest := by
  have hpos : pos < view.tokens.size := View.lt_size_of_from_ne_nil (by rw [h]; simp)
  rw [View.from_eq_cons hpos] at h
  exact List.cons.inj h

theorem View.from_append {front rest : List Token} (h : view.from pos = front ++ rest) :
    view.from (pos + front.length) = rest := by
  rw [← View.from_add, h, List.drop_left]

/-- A rendered expression is read up to a token that it stops at. -/
theorem Expressible.expressionAt (h : Expressible node) {run more : List Token} {stop : Token}
    (hf : view.from pos = run ++ stop :: more) (hrun : symbols run = node.canonical)
    (hs : Stops stop) :
    run ≠ [] ∧ ∃ other, (Grammar.expressionAt view (headedRun entryAt) pos).outcome
      = .ok (other, pos + run.length) ∧ other.erase = node.erase := by
  obtain ⟨list, hr⟩ := h.reads
  have hl : runLength 0 (view.from pos) = run.length := by
    rw [hf, (hr.rendering.balanced rfl).runLength_append hrun (.inl rfl),
      hs.runLength_eq, Nat.add_zero]
  have hne : run ≠ [] := by
    rintro rfl
    obtain ⟨symbol, rest, hst, -⟩ := hr.rendering.exists_start rfl
    exact List.cons_ne_nil symbol rest (hrun.trans hst).symm
  have hp : view.peek (pos + run.length) = stop := (View.peek_of_from (View.from_append hf)).1
  obtain ⟨other, hsp, he⟩ := h.splits run stop (run.length + 1) hrun hs.kind_ne (by omega)
  refine ⟨hne, other, expressionAt_ok_iff.mpr ⟨?_, by rw [hl], ?_⟩, he⟩
  · rw [hl]
    exact fun hz => hne (List.length_eq_zero_iff.mp hz)
  · rw [hl, hp, hf, List.take_left]
    exact hsp

/-! ## Arguments -/

/-- Rendered expressions with commas between them. -/
theorem argumentsFrom_complete (har : ∀ arg ∈ args, Expressible arg) (hne : args ≠ [])
    {run more : List Token} {stop : Token} (hf : view.from pos = run ++ stop :: more)
    (hrun : symbols run = argumentsRendering parenthesised args) (hs : stop.kind = .rightParen)
    {rounds : Nat} (hrn : run.length < rounds) (found : List Node) :
    ∃ others, (argumentsFrom view (expressionAt view (headedRun entryAt)) rounds pos found).outcome
      = .ok (found.reverse ++ others, pos + run.length) ∧ eraseAll others = eraseAll args := by
  induction args generalizing pos run rounds found with
  | nil => exact absurd rfl hne
  | cons arg args ih =>
    rw [List.forall_mem_cons] at har
    obtain ⟨rounds, rfl⟩ : ∃ less, rounds = less + 1 := ⟨rounds - 1, by omega⟩
    cases args with
    | nil =>
      obtain ⟨-, other, ho, he⟩ := har.1.expressionAt hf hrun (.inl hs)
      refine ⟨[other], ?_, by simp [eraseAll, he]⟩
      have hp := (View.peek_of_from (View.from_append hf)).1
      rw [argumentsFrom, Attempt.outcome_bind_of_ok ho]
      simp [hp, hs]
    | cons second args =>
      obtain ⟨first, back, rfl, hfr, hb⟩ := symbols_eq_append hrun
      obtain ⟨between, rest, rfl, hbt, hr⟩ := symbols_eq_cons hb
      have hc : between.kind = .comma := congrArg Symbol.kind hbt
      rw [List.append_assoc, List.cons_append] at hf
      have hst : Stops between := .inr (by simp [Token.endsExpression, hc])
      obtain ⟨-, other, ho, he⟩ := har.1.expressionAt hf hfr hst
      obtain ⟨hp, hl⟩ := View.peek_of_from (View.from_append hf)
      simp only [List.length_append, List.length_cons] at hrn ⊢
      obtain ⟨others, hot, heo⟩ := @ih _ har.2 (by simp) rest hl hr
        rounds (by omega) (other :: found)
      refine ⟨other :: others, ?_, by rw [eraseAll, eraseAll, he, heo]⟩
      have hn : pos + first.length + 1 + rest.length
          = pos + (first.length + (rest.length + 1)) := by omega
      rw [argumentsFrom, Attempt.outcome_bind_of_ok ho]
      simp only [hp, hc, if_true]
      rw [hot, hn, List.reverse_cons, List.append_assoc, List.singleton_append]

theorem Reads.some_of_cons {arg : Node} (h : Reads (.argumentList (arg :: args)) list) :
    Reads (.arguments (arg :: args)) list := by
  cases h with
  | someArguments inner => exact inner

/-- Rendered arguments in their parentheses. -/
theorem argumentListAt_complete (hr : Reads (.argumentList args) list)
    (har : ∀ arg ∈ args, Expressible arg) {run more : List Token}
    (hf : view.from pos = run ++ more)
    (hrun : symbols run = parenthesised (argumentsRendering parenthesised args)) :
    ∃ others, (argumentListAt view (expressionAt view (headedRun entryAt)) pos).outcome
      = .ok (others, pos + run.length) ∧ eraseAll others = eraseAll args := by
  obtain ⟨start, inside, close, back, rfl, hs, hc, hi, hb⟩ := symbols_eq_group hrun
  obtain rfl := symbols_eq_nil hb
  rw [List.cons_append, List.append_assoc, List.singleton_append] at hf
  obtain ⟨ho, hl⟩ := View.peek_of_from hf
  obtain ⟨hp, -⟩ := View.peek_of_from (View.from_append hl)
  obtain ⟨others, hot, he⟩ : ∃ others, (listOrNone view (pos + 1)
      (argumentsFrom view (expressionAt view (headedRun entryAt)) (view.tokens.size + 2) (pos + 1)
        [])).outcome = .ok (others, pos + 1 + inside.length) ∧
      eraseAll others = eraseAll args := by
    cases args with
    | nil =>
      obtain rfl := symbols_eq_nil hi
      refine ⟨[], ?_, rfl⟩
      rw [listOrNone, if_pos]
      · rfl
      · rw [(View.peek_of_from hl).1, hc]
    | cons arg args =>
      obtain ⟨symbol, rest, hst, hfr⟩ := hr.some_of_cons.rendering.exists_start rfl
      have hi : symbols inside = argumentsRendering parenthesised (arg :: args) := hi
      obtain ⟨first, behind, rfl, hsy, -⟩ := symbols_eq_cons (hi.trans hst)
      have hnot : (view.peek (pos + 1)).kind ≠ .rightParen := by
        rw [(View.peek_of_from hl).1, ← Token.symbol_kind, hsy]
        exact ne_rightParen_of_startsExpression hfr
      have hrn : (first :: behind).length < view.tokens.size + 2 := by
        have hln := congrArg List.length hl
        simp only [View.from, List.length_drop, List.length_append, Array.length_toList]
          at hln
        omega
      rw [listOrNone, if_neg hnot]
      exact argumentsFrom_complete har (by simp) hl hi hc hrn []
  refine ⟨others, ?_, he⟩
  have hn : pos + 1 + inside.length + 1 = pos + (start :: (inside ++ [close])).length := by
    simp only [List.length_cons, List.length_append, List.length_nil]
    omega
  unfold argumentListAt
  simp only [ho, hs, ne_eq, not_true_eq_false, if_false]
  rw [Attempt.outcome_bind_of_ok hot]
  simp only [hp, hc, not_true_eq_false, if_false, hn]
  rfl

/-! ## Calls and creations -/

theorem from_run (run : List Token) (after : Token) (pos : Nat) :
    View.from ⟨run.toArray, after⟩ pos = run.drop pos := rfl

/-- Rendered arguments are matched in the view of a run. -/
theorem entryAt_arguments (hr : Reads (.argumentList args) list)
    (har : ∀ arg ∈ args, Expressible arg) {run more : List Token}
    (hf : view.from pos = run ++ more)
    (hrun : symbols run = parenthesised (argumentsRendering parenthesised args))
    (slot : Option Slot) :
    ∃ others, (entryAt view (slot, .arguments) pos).outcome
      = .ok (inSlot slot (.nodes others), pos + run.length) ∧
        eraseAll others = eraseAll args := by
  obtain ⟨others, ho, he⟩ := argumentListAt_complete hr har hf hrun
  refine ⟨others, ?_, he⟩
  rw [entryAt, matchOne_arguments (by unfold depthFor; omega)]
  exact Attempt.outcome_bind_of_ok ho

/-- A rendered call is matched by its rule. -/
theorem headedRun_call (hn : IsIdentifier name) (hr : Reads (.argumentList args) list)
    (har : ∀ arg ∈ args, Expressible arg) {head : Token} (hh : head.symbol = identifier name)
    (hrs : symbols rest = parenthesised (argumentsRendering parenthesised args)) (after : Token) :
    ∃ others, (headedRun entryAt (head :: rest) after).outcome
      = .ok (⟨.call name others, head⟩, (head :: rest).length) ∧
        eraseAll others = eraseAll args := by
  obtain ⟨rfl⟩ : name = head.text := (congrArg Symbol.text hh).symm
  have hk : head.kind = .identifier := congrArg Symbol.kind hh
  have hf : View.from ⟨(head :: rest).toArray, after⟩ 1 = rest ++ [] := by
    rw [from_run, List.append_nil]
    rfl
  obtain ⟨others, ho, he⟩ := entryAt_arguments hr har hf hrs (some .args)
  have hnx : 1 + rest.length = (head :: rest).length := Nat.add_comm ..
  rw [hnx] at ho
  refine ⟨others, @alternatives_of_fails _ _ _ [createRule] [] callRule _ _ ?_ ?_, he⟩
  · rw [List.forall_mem_singleton]
    rintro ⟨node, next⟩ hm
    obtain ⟨captures, hmt, -⟩ := matchRule_ok_iff.mp hm
    obtain ⟨_, _, hnew, -⟩ := hmt.uncons rfl
    obtain ⟨hw, -, -⟩ := entryAt_token_ok hnew rfl
    have ht : head.text = "new" := by
      have hs : head.spells "new" = true := hw
      simp only [Token.spells, Bool.and_eq_true, beq_iff_eq] at hs
      exact hs.1
    rw [ht, IsIdentifier, classify_keyword "new" (by decide)] at hn
    cases hn
  · have hac : Entry.accepts .identifier head = true := by simpa [Entry.accepts] using hk
    exact matchRule_ok_iff.mpr
      ⟨_, matches_token rfl hac ((matches_cons rfl).mpr ⟨_, _, ho, rfl⟩), rfl⟩

theorem optionalArguments_ok_iff {found : Captures} {next : Nat} :
    (entryAt view (optionally [capture .args .arguments]) pos).outcome = .ok (found, next) ↔
      (entryAt view (some .args, .arguments) pos).outcome = .ok (found, next) := by
  rw [optionally, capture, entryAt_optional_arguments]
  simp only [matchEntry, Attempt.outcome_bind_ok_iff, matchEntries_ok_iff, Prod.exists,
    Attempt.outcome_pure, Except.ok.injEq, Prod.mk.injEq]
  constructor
  · rintro ⟨inside, stop, hi, rfl, rfl⟩
    obtain ⟨args, last, har, hend⟩ := hi.uncons rfl
    obtain ⟨rfl, rfl⟩ := hend.nil
    simpa [inSlot] using har
  · intro har
    exact ⟨found, next, (matches_cons rfl).mpr ⟨found, next, har, by simp [Matches]⟩, rfl, rfl⟩

/-- Arguments stand behind an opening parenthesis. -/
theorem leftParen_of_entryAt {slot : Option Slot} {found : Captures} {next : Nat}
    (h : (entryAt view (slot, .arguments) pos).outcome = .ok (found, next)) :
    (view.peek pos).kind = .leftParen := by
  rw [entryAt, matchOne_arguments (by unfold depthFor; omega)] at h
  obtain ⟨⟨args, last⟩, har, -⟩ := Attempt.outcome_bind_ok_iff.mp h
  exact (argumentListAt_ok har).1

/-- A rendered creation is matched by its rule.  Without arguments the rule looks past the end of
the run, where no parenthesis opens. -/
theorem headedRun_create (hn : IsType name) (hrd : Reads (.argumentList args) list)
    (har : ∀ arg ∈ args, Expressible arg) {head type : Token}
    (hh : head.symbol = keyword "new") (ht : type.symbol = .typeName name)
    (hr : symbols rest = listed args (argumentsRendering parenthesised args))
    (haf : after.kind ≠ .leftParen) :
    ∃ others, (headedRun entryAt (head :: type :: rest) after).outcome
      = .ok (⟨.create name others, head⟩, (head :: type :: rest).length) ∧
        eraseAll others = eraseAll args := by
  obtain ⟨rfl⟩ : name = type.text := (congrArg Symbol.text ht).symm
  have hw : Entry.accepts (.word "new") head = true := by
    have htx : head.text = "new" := congrArg Symbol.text hh
    have hk : head.kind = .keyword := congrArg Symbol.kind hh
    simp [Entry.accepts, Token.spells, htx, hk]
  have hc : Entry.accepts .typeName type = true := by
    have hk : type.kind = .typeName := congrArg Symbol.kind ht
    simpa [Entry.accepts, hk] using hn.2
  have hrl : ∀ {others captures} {next : Nat}, Matches (entryAt
      ⟨(head :: type :: rest).toArray, after⟩) [optionally [capture .args .arguments]] 2
        [(.name, .text type.text)] (captures, next) →
      createRule.build captures head = .ok ⟨.create type.text others, head⟩ →
      (headedRun entryAt (head :: type :: rest) after).outcome
        = .ok (⟨.create type.text others, head⟩, next) := by
    intro others captures next hm hb
    refine @alternatives_of_fails _ _ _ [] [callRule] createRule _ _ (by simp) ?_
    exact matchRule_ok_iff.mpr
      ⟨captures, matches_token rfl hw (matches_token rfl hc hm), hb⟩
  cases args with
  | nil =>
    obtain rfl := symbols_eq_nil hr
    refine ⟨[], hrl ((matches_optional_cons rfl).mpr (.inr ⟨?_, rfl⟩)) rfl, rfl⟩
    rintro ⟨found, next⟩ hf
    exact haf (leftParen_of_entryAt (optionalArguments_ok_iff.mp hf))
  | cons arg args =>
    have hfr : View.from ⟨(head :: type :: rest).toArray, after⟩ 2 = rest ++ [] := by
      rw [from_run, List.append_nil]
      rfl
    obtain ⟨others, ho, he⟩ := entryAt_arguments hrd har hfr hr (some .args)
    have hnx : 2 + rest.length = (head :: type :: rest).length := Nat.add_comm ..
    rw [hnx] at ho
    have hm : Matches (entryAt ⟨(head :: type :: rest).toArray, after⟩)
        [optionally [capture .args .arguments]] 2 [(.name, .text type.text)]
        ([(.args, .nodes others), (.name, .text type.text)], (head :: type :: rest).length) :=
      (matches_optional_cons rfl).mpr
        (.inl ⟨_, _, optionalArguments_ok_iff.mpr ho, rfl⟩)
    exact ⟨others, hrl hm rfl, he⟩

/-! ## Expressions -/

theorem leaf_of_symbol_eq {token other : Token} (h : leaf token = .ok node)
    (hs : other.symbol = token.symbol) :
    ∃ found, leaf other = .ok found ∧ found.erase = node.erase := by
  have hk : other.kind = token.kind := congrArg Symbol.kind hs
  have ht : other.text = token.text := congrArg Symbol.text hs
  have hp : other.placeless = token.placeless := by
    unfold Token.placeless
    rw [hk, ht]
  unfold leaf at h ⊢
  rw [hk, ht]
  split at h
  case h_4 =>
    split at h
    · obtain rfl := Except.ok.inj h
      exact ⟨_, rfl, congrArg (Node.mk _) hp⟩
    · obtain rfl := Except.ok.inj h
      exact ⟨_, rfl, congrArg (Node.mk _) hp⟩
  case h_5 => cases h
  all_goals
    obtain rfl := Except.ok.inj h
    exact ⟨_, rfl, congrArg (Node.mk _) hp⟩

theorem isMember_erase (node : Node) : isMember node.erase = isMember node := by
  unfold isMember
  rw [Node.kind_erase]
  cases node.kind <;> first | rfl | simp

/-- The expressions of a phrase that is an expression or a list of them. -/
def Phrase.expressions : Phrase → List Node
  | .expression node => [node]
  | .arguments nodes | .argumentList nodes => nodes
  | _ => []

/-- Behind an operator, points are strictly tighter than a sign that they are not looser than. -/
theorem lt_of_isBinary {op : UnaryOp} (hb : point.IsBinary)
    (hle : op.priority ≤ point.priority) : op.priority < point.priority := by
  obtain ⟨kind, hk⟩ := hb
  refine Nat.lt_of_le_of_ne hle fun heq => ?_
  rw [← heq] at hk
  cases op <;> cases kind <;> simp [TokenKind.binaryPriority?, UnaryOp.priority, UnaryOp.kind,
    TokenKind.unaryPriority?] at hk

theorem Expressible.unary {op : UnaryOp} {argument : Node} (h : Expressible argument)
    (token : Token) : Splits ⟨.unary op argument, token⟩ := by
  intro run after depth hrun haf hd
  obtain ⟨list, hr⟩ := h.reads
  obtain ⟨sign, second, points, rfl, hs, hsn, hsc, hfit⟩ :=
    @Scanned.sign _ _ hr.scanned hr op _ (by simp) _ [] hrun
  have hpr : sign.kind.unaryPriority? = some op.priority := by
    rw [← Token.symbol_kind, hs, UnaryOp.unaryPriority?_kind]
  have hp : splitPoint? (sign :: second) after = .ok (some ⟨0, true, op.priority⟩) := by
    rw [hsc.splitPoint?_eq, candidate?, hpr]
    refine congrArg _ (loosest_between (fun point hmem => ?_) (by simp))
    exact lt_of_isBinary (hfit.binary (by simp) point hmem) (hfit.priority point hmem)
  obtain ⟨depth, rfl⟩ : ∃ less, depth = less + 1 := ⟨depth - 1, by omega⟩
  rw [List.length_cons] at hd
  obtain ⟨other, ho, he⟩ := h.operand hsn haf (Nat.lt_of_succ_lt_succ hd)
  refine ⟨_, split_sign hp ho, ?_⟩
  have hop : unaryOperation sign = op := by
    have hk : sign.kind = op.kind := congrArg Symbol.kind hs
    unfold unaryOperation
    rw [hk]
    cases op <;> rfl
  change (⟨.unary (unaryOperation sign) other.erase, default⟩ : Node) = _
  rw [hop, he]
  rfl

/-- Both operands of an operation, which is built from them. -/
theorem Expressible.operation {lhs rhs : Node} (hlhs : Expressible lhs) (hrhs : Expressible rhs)
    {loose tight : Bool} (hls : loose = false → priority ≤ lhs.priority)
    (ht : tight = false → priority < rhs.priority) {symbol : Symbol}
    (hs : symbol.kind.binaryPriority? = some priority) {run : List Token}
    (hrun : symbols run = StepScript.operand parenthesised loose lhs.canonical
      ++ symbol :: StepScript.operand parenthesised tight rhs.canonical)
    (haf : after.kind ≠ .leftParen) {depth : Nat} (hd : run.length < depth) :
    ∃ op left right start, op.symbol = symbol ∧ left.erase = lhs.erase ∧
      right.erase = rhs.erase ∧ ∀ node, Grammar.operation op left right start = .ok node →
        (split (headedRun entryAt) depth run after).outcome = .ok node := by
  obtain ⟨_, hrl⟩ := hlhs.reads
  obtain ⟨_, hrr⟩ := hrhs.reads
  obtain ⟨first, op, second, points, others, rfl, hop, hf, hsn, hsc, hpn, ho⟩ :=
    Scanned.operation hrl.scanned hrr.scanned hrl hrr hls ht
      hs hrun fresh_nil
  have hp : splitPoint? (first ++ op :: second) after
      = .ok (some ⟨first.length, false, priority⟩) := by
    rw [hsc.splitPoint?_eq]
    exact congrArg _ (loosest_between hpn.priority ho.priority)
  have hk : op.kind ≠ .leftParen := by
    intro hk
    rw [← hop, Token.symbol_kind, hk] at hs
    cases hs
  obtain ⟨depth, rfl⟩ : ∃ less, depth = less + 1 := ⟨depth - 1, by omega⟩
  rw [List.length_append, List.length_cons] at hd
  obtain ⟨left, hl, hel⟩ := hlhs.operand hf hk
    (show first.length < depth by omega)
  obtain ⟨right, hr, her⟩ := hrhs.operand hsn haf
    (show second.length < depth by omega)
  exact ⟨op, left, right, _, hop, hel, her, fun node hn => split_operation hp hl hr hn⟩

theorem operation_binary {op : BinaryOp} (h : sign.symbol = op.symbol) (lhs rhs : Node)
    (start : Token) :
    operation sign lhs rhs start = .ok ⟨.binary op lhs rhs, sign⟩ := by
  have hk : sign.kind = op.kind := congrArg Symbol.kind h
  have hdot : op.kind ≠ .dot := by cases op <;> decide
  unfold operation
  rw [hk, if_neg hdot, BinaryOp.ofKind?_kind]

theorem operation_member (h : sign.symbol = dot) {rhs : Node} (hm : isMember rhs = true)
    (lhs : Node) (start : Token) :
    operation sign lhs rhs start = .ok ⟨.member lhs rhs, sign⟩ := by
  have hk : sign.kind = .dot := congrArg Symbol.kind h
  rw [operation, if_pos hk, if_pos hm]

theorem splits_call (hn : IsIdentifier name) (hr : Reads (.argumentList args) list)
    (har : ∀ arg ∈ args, Expressible arg) (token : Token) : Splits ⟨.call name args, token⟩ := by
  intro run after depth hrun haf hd
  have hp := (scans_call hr hrun []).splitPoint?_eq after
  obtain ⟨head, rest, rfl, hh, hrs⟩ := symbols_eq_cons hrun
  obtain ⟨others, ho, he⟩ := headedRun_call hn hr har hh hrs after
  obtain ⟨depth, rfl⟩ : ∃ less, depth = less + 1 := ⟨depth - 1, by omega⟩
  have hk : head.kind = .identifier := congrArg Symbol.kind hh
  refine ⟨_, split_headed hp (by simp [hk]) ?_ ho, ?_⟩
  · rintro rfl
    cases hrs
  · change (⟨.call name (eraseAll others), default⟩ : Node) = _
    rw [he]
    rfl

theorem splits_create (hn : IsType name) (hr : Reads (.argumentList args) list)
    (har : ∀ arg ∈ args, Expressible arg) (token : Token) :
    Splits ⟨.create name args, token⟩ := by
  intro run after depth hrun haf hd
  have hp := (scans_create hr hrun []).splitPoint?_eq after
  obtain ⟨head, back, rfl, hh, hb⟩ := symbols_eq_cons hrun
  obtain ⟨type, rest, rfl, ht, hrs⟩ := symbols_eq_cons hb
  obtain ⟨others, ho, he⟩ := headedRun_create hn hr har hh ht hrs haf
  obtain ⟨depth, rfl⟩ : ∃ less, depth = less + 1 := ⟨depth - 1, by omega⟩
  have hk : head.kind = .keyword := congrArg Symbol.kind hh
  refine ⟨_, split_headed hp (by simp [hk]) (by simp) ho, ?_⟩
  change (⟨.create name (eraseAll others), default⟩ : Node) = _
  rw [he]
  rfl

/-- Every expression of a phrase is given by its rendering. -/
theorem Reads.expressible {phrase : Phrase} (h : Reads phrase list) :
    ∀ node ∈ phrase.expressions, Expressible node := by
  induction h with
  | @leaf token node lexical made =>
    refine List.forall_mem_singleton.mpr ⟨⟨_, .leaf lexical made⟩, ?_⟩
    intro run after depth hrun haf hd
    obtain ⟨other, rfl, hsy, hsc⟩ := scans_leaf made hrun []
    obtain ⟨found, hf, he⟩ := leaf_of_symbol_eq made hsy
    obtain ⟨depth, rfl⟩ : ∃ less, depth = less + 1 := ⟨depth - 1, by omega⟩
    refine ⟨found, split_leaf (hsc.splitPoint?_eq after) ?_ hf, he⟩
    rcases leaf_kind hf with hk | hk | hk | hk <;> simp [hk]
  | group inner ih => exact ih
  | unary token inner ih =>
    refine List.forall_mem_singleton.mpr ⟨⟨_, .unary token inner⟩, ?_⟩
    exact (List.forall_mem_singleton.mp ih).unary token
  | @binary op lhs rhs _ _ _ token lexical operator first second ihFirst ihSecond =>
    refine List.forall_mem_singleton.mpr ⟨⟨_, .binary token lexical operator first second⟩, ?_⟩
    intro run after depth hrun haf hd
    obtain ⟨sign, left, right, start, hs, hl, hr, hsp⟩ :=
      (List.forall_mem_singleton.mp ihFirst).operation (List.forall_mem_singleton.mp ihSecond)
        (by simp) (by simp) (BinaryOp.binaryPriority?_kind op) hrun haf hd
    refine ⟨_, hsp _ (operation_binary hs left right start), ?_⟩
    change (⟨.binary op left.erase right.erase, default⟩ : Node) = _
    rw [hl, hr]
    rfl
  | @member target member _ _ token fits first second ihFirst ihSecond =>
    refine List.forall_mem_singleton.mpr ⟨⟨_, .member token fits first second⟩, ?_⟩
    intro run after depth hrun haf hd
    have ht : memberPriority < member.priority := by
      rw [priority_of_isMember fits]
      decide
    obtain ⟨sign, left, right, start, hs, hl, hr, hsp⟩ :=
      (List.forall_mem_singleton.mp ihFirst).operation (List.forall_mem_singleton.mp ihSecond)
        (by simp) (fun _ => ht) binaryPriority?_dot (canonical_member hrun) haf hd
    have hm : isMember right = true := by
      rw [← isMember_erase, hr, isMember_erase, fits]
    refine ⟨_, hsp _ (operation_member hs hm left start), ?_⟩
    change (⟨.member left.erase right.erase, default⟩ : Node) = _
    rw [hl, hr]
    rfl
  | call token named inner ih =>
    exact List.forall_mem_singleton.mpr
      ⟨⟨_, .call token named inner⟩, splits_call named inner ih token⟩
  | create token named =>
    exact List.forall_mem_singleton.mpr
      ⟨⟨_, .create token named⟩, splits_create named .noArguments (by simp) token⟩
  | createWith token named inner ih =>
    exact List.forall_mem_singleton.mpr
      ⟨⟨_, .createWith token named inner⟩, splits_create named inner ih token⟩
  | noArguments => simp [Phrase.expressions]
  | someArguments _ ih => exact ih
  | lastArgument _ ih => exact ih
  | nextArgument _ _ ihHead ihTail =>
    exact List.forall_mem_cons.mpr ⟨List.forall_mem_singleton.mp ihHead, ihTail⟩
  | _ => simp [Phrase.expressions]

end StepScript.Grammar
