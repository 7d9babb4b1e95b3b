import StepScript.Proofs.Grammar.Depth
import StepScript.Proofs.Grammar.Derivation
set_option autoImplicit false

/-!
# Expressions are read off their runs

Whatever splitting a run gives can be derived from the symbols of the run
(`split_reads`).  The rules of expressions look at the run as a file of its own and could
look past its end; they do not, because the parentheses of a run are balanced
(`splitPointFrom_balance`).
-/

namespace StepScript.Grammar

variable {after token : Token} {depth next pos : Nat} {run : List Token} {node : Node}
  {headed : List Token → Token → Attempt (Node × Nat)} {view : View}

/-- The symbols of tokens. -/
def symbols (tokens : List Token) : List Symbol := tokens.map Token.symbol

@[simp] theorem symbols_nil : symbols [] = [] := rfl

@[simp] theorem symbols_cons (token : Token) (rest : List Token) :
    symbols (token :: rest) = token.symbol :: symbols rest := rfl

@[simp] theorem symbols_append (first second : List Token) :
    symbols (first ++ second) = symbols first ++ symbols second :=
  List.map_append

/-- All tokens are as the lexer makes them. -/
def AllLexical (tokens : List Token) : Prop := ∀ token ∈ tokens, token.symbol.Lexical

theorem AllLexical.sub {tokens part : List Token} (h : AllLexical tokens)
    (hp : ∀ token ∈ part, token ∈ tokens) : AllLexical part :=
  fun token ht => h token (hp token ht)

/-! ## Balanced parentheses -/

/-- How a symbol changes the number of open parentheses. -/
def weight (symbol : Symbol) : Int :=
  match symbol.kind with
  | .leftParen => 1
  | .rightParen => -1
  | _ => 0

/-- How many more parentheses are opened than closed. -/
def balance : List Symbol → Int
  | [] => 0
  | symbol :: rest => weight symbol + balance rest

@[simp] theorem balance_append (first second : List Symbol) :
    balance (first ++ second) = balance first + balance second := by
  induction first with
  | nil => simp [balance]
  | cons symbol rest ih =>
    rw [List.cons_append, balance, balance, ih]
    omega

theorem balance_reverse (list : List Symbol) : balance list.reverse = balance list := by
  induction list with
  | nil => rfl
  | cons symbol rest ih =>
    rw [List.reverse_cons, balance_append, ih]
    simp only [balance]
    omega

/-- The phrase is an expression or a list of expressions. -/
def Phrase.isExpression : Phrase → Bool
  | .expression _ | .arguments _ | .argumentList _ => true
  | _ => false

@[simp] theorem weight_unary (op : UnaryOp) : weight op.symbol = 0 := by
  cases op <;> rfl

/-- Expressions close all parentheses that they open. -/
theorem Reads.balance_eq_zero {phrase : Phrase} {list : List Symbol} (h : Reads phrase list)
    (hp : phrase.isExpression = true) : balance list = 0 := by
  induction h with
  | leaf lexical made => rcases leaf_kind made with hk | hk | hk | hk <;> simp [balance, weight, hk]
  | group inner ih => simp [balance, ih rfl, weight, Symbol.leftParen, Symbol.rightParen]
  | unary token inner ih => simp [balance, ih rfl]
  | @binary op _ _ _ _ symbol token lexical operator first second ihFirst ihSecond =>
    have hk : symbol.kind = op.kind := by rw [← Symbol.canonical_kind, operator]; rfl
    have hw : weight symbol = 0 := by
      unfold weight
      rw [hk]
      cases op <;> rfl
    simp [balance, ihFirst rfl, ihSecond rfl, hw]
  | member token fits first second ihFirst ihSecond =>
    simp [balance, ihFirst rfl, ihSecond rfl, weight, Symbol.dot]
  | call token named inner ih =>
    simp [balance, ih rfl, weight, Symbol.leftParen, Symbol.rightParen, Symbol.identifier]
  | create token named => simp [balance, weight, Symbol.keyword, Symbol.typeName]
  | createWith token named inner ih =>
    simp [balance, ih rfl, weight, Symbol.leftParen, Symbol.rightParen, Symbol.keyword,
      Symbol.typeName]
  | noArguments => rfl
  | someArguments inner ih => exact ih rfl
  | lastArgument only ih => exact ih rfl
  | nextArgument head tail ihHead ihTail =>
    simp [balance, ihHead rfl, ihTail rfl, weight, Symbol.comma]
  | _ => cases hp

/-- A part that ends a run never opens more parentheses than it closes. -/
theorem splitPointFrom_balance {reversed : List Token} {best point : Option SplitPoint}
    (h : splitPointFrom after reversed depth best = .ok point) {front back : List Token}
    (hrv : reversed = front ++ back) :
    balance (symbols front) ≤ depth := by
  induction reversed generalizing depth best front with
  | nil =>
    obtain ⟨rfl, -⟩ := List.append_eq_nil_iff.mp hrv.symm
    simp [balance]
  | cons token left ih =>
    cases front with
    | nil => simp [balance]
    | cons first rest =>
      obtain ⟨rfl, rfl⟩ := List.cons.inj hrv
      simp only [symbols_cons, balance]
      unfold splitPointFrom at h
      split at h
      · next hk =>
        have hr := ih h rfl
        simp only [weight, Token.symbol_kind, hk]
        omega
      · next hk =>
        split at h
        · cases h
        · have hr := ih h rfl
          simp only [weight, Token.symbol_kind, hk]
          omega
      · next hrg hl =>
        have hw : weight token.symbol = 0 := by
          unfold weight
          split <;> simp_all
        have hr : balance (symbols rest) ≤ depth := by
          split at h
          · exact ih h rfl
          · split at h <;> exact ih h rfl
        omega

/-- The end of a run that can be split closes all parentheses that it opens. -/
theorem splitPoint?_balance {point : Option SplitPoint} (h : splitPoint? run after = .ok point)
    {front back : List Token} (hrun : run = front ++ back) :
    balance (symbols back) ≤ 0 := by
  have hr : run.reverse = back.reverse ++ front.reverse := by
    rw [hrun, List.reverse_append]
  have hb := splitPointFrom_balance h hr
  rwa [symbols, List.map_reverse, balance_reverse] at hb

/-! ## Where a run is split -/

/-- The point to split a run at is one of its operators. -/
theorem splitPointFrom_candidate {reversed : List Token} {best : Option SplitPoint}
    {point : SplitPoint} (h : splitPointFrom after reversed depth best = .ok (some point)) :
    best = some point ∨ ∃ front op left, reversed = front ++ op :: left ∧
      candidate? op left = some point := by
  induction reversed generalizing depth best with
  | nil => exact .inl (Except.ok.inj h)
  | cons token left ih =>
    have further : ∀ {depth best}, splitPointFrom after left depth best = .ok (some point) →
        best = some point ∨ ∃ front op rest, token :: left = front ++ op :: rest ∧
          candidate? op rest = some point := by
      intro depth best hlf
      rcases ih hlf with hb | ⟨front, op, rest, hr, hc⟩
      · exact .inl hb
      · exact .inr ⟨token :: front, op, rest, by rw [hr]; rfl, hc⟩
    unfold splitPointFrom at h
    split at h
    · exact further h
    · split at h
      · cases h
      · exact further h
    · split at h
      · exact further h
      · split at h
        · next candidate hc =>
          rcases further h with hb | hl
          · have hp : looser best candidate = point := Option.some.inj hb
            unfold looser at hp
            split at hp
            · split at hp
              · exact .inr ⟨[], token, left, rfl, hp ▸ hc⟩
              · exact .inl (congrArg some hp)
            · exact .inr ⟨[], token, left, rfl, hp ▸ hc⟩
          · exact .inr hl
        · exact further h

/-- A run is split at an operator in front of it all, or between two parts. -/
theorem splitPoint?_some {point : SplitPoint} (h : splitPoint? run after = .ok (some point)) :
    (∃ op right priority, run = op :: right ∧ point = ⟨0, true, priority⟩ ∧
      op.kind.unaryPriority? = some priority) ∨
    (∃ left op right priority, left ≠ [] ∧ run = left ++ op :: right ∧
      point = ⟨left.length, false, priority⟩ ∧ op.kind.binaryPriority? = some priority) := by
  rcases splitPointFrom_candidate h with hn | ⟨front, op, left, hr, hc⟩
  · cases hn
  have hrun : run = left.reverse ++ op :: front.reverse := by
    rw [← List.reverse_reverse run, hr]
    simp
  cases left with
  | nil =>
    obtain ⟨priority, hp, rfl⟩ := Option.map_eq_some_iff.mp hc
    exact .inl ⟨op, front.reverse, priority, hrun, rfl, hp⟩
  | cons previous rest =>
    unfold candidate? at hc
    dsimp only at hc
    split at hc
    · cases hc
    · obtain ⟨priority, hp, rfl⟩ := Option.map_eq_some_iff.mp hc
      refine .inr ⟨_, op, front.reverse, priority, ?_, hrun, ?_, hp⟩
      · simp
      · simp

/-- The parenthesis that closes the first one is a closing one. -/
theorem closingFrom_kind {depth index close : Nat} {tokens : List Token}
    (h : closingFrom depth index tokens = some close) :
    index ≤ close ∧ ∃ token, tokens[close - index]? = some token ∧ token.kind = .rightParen := by
  induction tokens generalizing depth index with
  | nil => cases h
  | cons token rest ih =>
    have further : ∀ {depth}, closingFrom depth (index + 1) rest = some close →
        index ≤ close ∧ ∃ found, (token :: rest)[close - index]? = some found ∧
          found.kind = .rightParen := by
      intro depth hr
      obtain ⟨hle, found, hf, hk⟩ := ih hr
      refine ⟨by omega, found, ?_, hk⟩
      have hi : close - index = close - (index + 1) + 1 := by omega
      rw [hi, List.getElem?_cons_succ]
      exact hf
    unfold closingFrom at h
    split at h
    · exact further h
    · next hk =>
      split at h
      · cases h
      · obtain rfl := Option.some.inj h
        exact ⟨Nat.le_refl _, token, by simp, hk⟩
      · exact further h
    · exact further h

/-- A run in parentheses. -/
theorem isParenthesised_eq {first : Token} {rest : List Token}
    (h : isParenthesised (first :: rest) = true) :
    ∃ inner last, rest = inner ++ [last] ∧ first.kind = .leftParen ∧
      last.kind = .rightParen := by
  unfold isParenthesised at h
  simp only [Bool.and_eq_true, decide_eq_true_eq] at h
  obtain ⟨hf, hc⟩ := h
  obtain ⟨-, last, hl, hk⟩ := closingFrom_kind hc
  cases hr : rest.reverse with
  | nil =>
    obtain rfl := List.reverse_eq_nil_iff.mp hr
    simp only [List.length_cons, List.length_nil, Nat.zero_add, Nat.sub_self,
      List.getElem?_cons_zero, Option.some.injEq] at hl
    rw [← hl, hf] at hk
    cases hk
  | cons final before =>
    have hs : rest = before.reverse ++ [final] := by
      rw [← List.reverse_reverse rest, hr]
      simp
    subst hs
    have hfn : final = last := by
      simpa using hl
    exact ⟨before.reverse, final, rfl, hf, hfn ▸ hk⟩

/-! ## Splitting a run -/

/-- The sign in front of an operand. -/
theorem symbol_unaryOperation {op : Token} (hop : op.symbol.Lexical) {priority : Nat}
    (hp : op.kind.unaryPriority? = some priority) :
    op.symbol = (unaryOperation op).symbol := by
  unfold unaryOperation
  cases hk : op.kind <;> rw [hk] at hp <;> simp only [TokenKind.unaryPriority?, reduceCtorEq] at hp
  · exact hop.eq_sign (by decide) hk rfl
  · exact hop.eq_sign (by decide) hk rfl

/-- Two operands with their operator between them. -/
theorem reads_operation {op start : Token} {lhs rhs node : Node} {left right : List Symbol}
    (hop : op.symbol.Lexical) (hn : operation op lhs rhs start = .ok node)
    (hlhs : Reads (.expression lhs) left) (hrhs : Reads (.expression rhs) right) :
    Reads (.expression node) (left ++ op.symbol :: right) := by
  unfold operation at hn
  split at hn
  · next hk =>
    split at hn
    · next hm =>
      obtain rfl := Except.ok.inj hn
      have hs : op.symbol = .dot := hop.eq_sign (by decide) hk rfl
      rw [hs]
      exact .member op hm hlhs hrhs
    · cases hn
  · split at hn
    · next binary hb =>
      obtain rfl := Except.ok.inj hn
      exact .binary op hop (hop.canonical_eq hb) hlhs hrhs
    · cases hn

/-- What the rules of expressions give of runs up to a length can be read off the runs. -/
def HeadedReads (headed : List Token → Token → Attempt (Node × Nat)) (bound : Nat) : Prop :=
  ∀ run after point node next, 2 ≤ run.length → run.length ≤ bound → AllLexical run →
    after.kind ≠ .leftParen → splitPoint? run after = .ok point →
    (headed run after).outcome = .ok (node, next) → run.drop next = [] →
    Reads (.expression node) (symbols run)

theorem split_reads {bound : Nat} (hh : HeadedReads headed bound) (hrun : run.length ≤ bound)
    (hl : AllLexical run) (haf : after.kind ≠ .leftParen)
    (h : (split headed depth run after).outcome = .ok node) :
    Reads (.expression node) (symbols run) := by
  induction depth generalizing run after node with
  | zero => simp [split] at h
  | succ depth ih =>
    cases run with
    | nil => simp [split] at h
    | cons first rest =>
      unfold split at h
      replace ⟨point, hpn, h⟩ := Attempt.outcome_bind_ok_iff.mp h
      rw [Attempt.outcome_ofExcept] at hpn
      cases point with
      | some point =>
        rcases splitPoint?_some hpn with
          ⟨op, right, priority, hs, rfl, hp⟩ |
          ⟨left, op, right, priority, hlf, hs, rfl, hp⟩
        · obtain ⟨rfl, rfl⟩ := List.cons.inj hs
          obtain ⟨operand, hor, hn⟩ := Attempt.outcome_bind_ok_iff.mp h
          obtain rfl := Except.ok.inj hn
          have hf := hl first (List.mem_cons_self ..)
          rw [symbols_cons, symbol_unaryOperation hf hp]
          refine .unary first (ih ?_ ?_ haf hor)
          · rw [List.length_cons] at hrun
            omega
          · exact hl.sub fun token ht => List.mem_cons_of_mem _ ht
        · rw [hs] at hrun hl ⊢
          simp only [hs, List.drop_left, List.take_left, Bool.false_eq_true,
            if_false] at h
          replace ⟨lhs, hlhs, h⟩ := Attempt.outcome_bind_ok_iff.mp h
          obtain ⟨rhs, hrhs, hn⟩ := Attempt.outcome_bind_ok_iff.mp h
          rw [List.length_append, List.length_cons] at hrun
          have hop : op.kind ≠ .leftParen := by
            intro hk
            rw [hk] at hp
            cases hp
          rw [symbols_append, symbols_cons]
          refine reads_operation (hl op (by simp)) hn (ih ?_ ?_ hop hlhs)
            (ih ?_ ?_ haf hrhs)
          · omega
          · exact hl.sub fun token ht => by simp [ht]
          · omega
          · exact hl.sub fun token ht => by simp [ht]
      | none =>
        dsimp only at h
        split at h
        · next hpr =>
          obtain ⟨inner, last, rfl, hf, hls⟩ := isParenthesised_eq hpr
          have ho : first.symbol = .leftParen := (hl first (by simp)).eq_sign (by decide) hf rfl
          have hc : last.symbol = .rightParen := (hl last (by simp)).eq_sign (by decide) hls rfl
          have hgl : (first :: (inner ++ [last])).getLastD after = last := by
            rw [← List.cons_append, List.getLastD_concat]
          rw [hgl, List.dropLast_concat] at h
          rw [symbols_cons, symbols_append, symbols_cons, symbols_nil, ho, hc]
          refine .group (ih ?_ ?_ ?_ h)
          · simp only [List.length_cons, List.length_append] at hrun
            omega
          · exact hl.sub fun token ht => by simp [ht]
          · rw [hls]
            decide
        · split at h
          · next hsn =>
            obtain rfl := List.isEmpty_iff.mp hsn
            exact .leaf (hl first (by simp)) h
          · next hm =>
            replace ⟨⟨found, next⟩, hfn, h⟩ := Attempt.outcome_bind_ok_iff.mp h
            dsimp only at h
            split at h
            · next hnx =>
              obtain rfl := Except.ok.inj h
              have hln : 2 ≤ (first :: rest).length := by
                have hpos := List.length_pos_iff.mpr (fun hnil => hm (List.isEmpty_iff.mpr hnil))
                rw [List.length_cons]
                omega
              exact hh _ after none found next hln hrun hl haf hpn
                hfn hnx
            · simp at h

/-! ## Expressions in a view -/

/-- What stands in a view is as the lexer makes it, and no parenthesis opens past its end. -/
structure View.Lexical (view : View) : Prop where
  tokens : AllLexical view.tokens.toList
  after : view.after.kind ≠ .leftParen

namespace View

theorem from_eq_cons (h : pos < view.tokens.size) :
    view.from pos = view.peek pos :: view.from (pos + 1) := by
  unfold View.from View.peek
  rw [List.drop_eq_getElem_cons (by simpa using h), Array.getElem?_eq_getElem h]
  simp

theorem from_eq_nil (h : view.tokens.size ≤ pos) : view.from pos = [] := by
  unfold View.from
  rw [List.drop_eq_nil_iff]
  simpa using h

theorem lt_size_of_from_ne_nil (h : view.from pos ≠ []) : pos < view.tokens.size :=
  Nat.lt_of_not_le fun hle => h (from_eq_nil hle)

theorem from_add (count : Nat) : (view.from pos).drop count = view.from (pos + count) := by
  unfold View.from
  rw [List.drop_drop]

theorem Lexical.from (h : view.Lexical) (pos : Nat) : AllLexical (view.from pos) :=
  h.tokens.sub fun _ ht => List.mem_of_mem_drop ht

theorem Lexical.peek (h : view.Lexical) (hpos : pos < view.tokens.size) :
    (view.peek pos).symbol.Lexical := by
  refine h.from pos (view.peek pos) ?_
  rw [from_eq_cons hpos]
  exact List.mem_cons_self ..

end View

/-- A run stops in front of a parenthesis only if it closes one. -/
theorem runLength_stop {tokens : List Token} (h : tokens[runLength depth tokens]? = some token) :
    token.kind ≠ .leftParen := by
  induction tokens generalizing depth with
  | nil => simp at h
  | cons first rest ih =>
    unfold runLength at h
    split at h
    · next hk => simp_all
    · next hk => simp_all
    · rw [List.getElem?_cons_succ] at h
      exact ih h
    · next hk =>
      split at h
      · simp_all
      · rw [List.getElem?_cons_succ] at h
        exact ih h
    · next hl _ _ _ =>
      split at h
      · simp_all
      · rw [List.getElem?_cons_succ] at h
        exact ih h

/-- Some tokens between two positions can be read as a phrase. -/
def Spans (view : View) (pos next : Nat) (phrase : Phrase) : Prop :=
  ∃ part, view.from pos = part ++ view.from next ∧ Reads phrase (symbols part)

theorem HeadedReads.mono {bound less : Nat} (h : HeadedReads headed bound) (hl : less ≤ bound) :
    HeadedReads headed less :=
  fun run after point node next hln hs => h run after point node next hln (Nat.le_trans hs hl)

/-- The expression at a position can be read off the tokens that it takes. -/
theorem expressionAt_reads (hv : view.Lexical)
    (hh : HeadedReads headed (view.tokens.size - pos))
    (h : (expressionAt view headed pos).outcome = .ok (node, next)) :
    pos < view.tokens.size ∧ Spans view pos next (.expression node) := by
  obtain ⟨hl, rfl, hs⟩ := expressionAt_ok_iff.mp h
  generalize hc : runLength 0 (view.from pos) = count at *
  have haf : (view.peek (pos + count)).kind ≠ .leftParen := by
    by_cases hin : pos + count < view.tokens.size
    · refine @runLength_stop _ 0 (view.from pos) ?_
      rw [hc, ← List.head?_drop, View.from_add, View.from_eq_cons hin]
      rfl
    · rw [View.peek_eq_after (Nat.le_of_not_lt hin)]
      exact hv.after
  refine ⟨View.lt_size_of_from_ne_nil ?_, (view.from pos).take count, ?_, ?_⟩
  · intro hnil
    rw [hnil] at hc
    exact hl hc.symm
  · rw [← View.from_add, List.take_append_drop]
  · refine split_reads hh ?_ ?_ haf hs
    · have hf : (view.from pos).length = view.tokens.size - pos := by simp [View.from]
      exact hf ▸ List.length_take_le' count _
    · exact (hv.from pos).sub fun token ht => List.mem_of_mem_take ht

/-! ## Arguments -/

/-- From `pos` on, expressions can be read off the tokens that they take. -/
def ExpressionsRead (view : View) (expression : Nat → Attempt (Node × Nat)) (pos : Nat) : Prop :=
  ∀ at_ node next, pos ≤ at_ → (expression at_).outcome = .ok (node, next) →
    at_ < view.tokens.size ∧ Spans view at_ next (.expression node)

theorem peek_comma (hv : view.Lexical) (hc : (view.peek pos).kind = .comma)
    (hn : pos + 1 < view.tokens.size) :
    ∃ comma, view.from pos = comma :: view.from (pos + 1) ∧ comma.symbol = .comma := by
  have hpos : pos < view.tokens.size := by omega
  refine ⟨view.peek pos, View.from_eq_cons hpos, ?_⟩
  exact (hv.peek hpos).eq_sign (by decide) hc rfl

theorem argumentsFrom_reads (hv : view.Lexical) {expression : Nat → Attempt (Node × Nat)}
    (hf : Forward expression) {rounds pos : Nat}
    (he : ExpressionsRead view expression pos) {found nodes : List Node}
    (h : (argumentsFrom view expression rounds pos found).outcome = .ok (nodes, next)) :
    pos < view.tokens.size ∧ ∃ args, nodes = found.reverse ++ args ∧
      Spans view pos next (.arguments args) := by
  induction rounds generalizing pos found with
  | zero => simp [argumentsFrom] at h
  | succ rounds ih =>
    unfold argumentsFrom at h
    obtain ⟨⟨node, stop⟩, hn, h⟩ := Attempt.outcome_bind_ok_iff.mp h
    obtain ⟨hpos, part, hp, hr⟩ := he pos node stop (Nat.le_refl pos) hn
    have hst := hf pos node stop hn
    refine ⟨hpos, ?_⟩
    dsimp only at h
    split at h
    · next hc =>
      have hl : ExpressionsRead view expression (stop + 1) := fun at_ other last hle =>
        he at_ other last (by omega)
      obtain ⟨hs, args, hnd, rest, hrs, hrr⟩ := ih hl h
      obtain ⟨comma, hfr, hsy⟩ := peek_comma hv hc hs
      refine ⟨node :: args, ?_, part ++ comma :: rest, ?_, ?_⟩
      · simp [hnd]
      · rw [hp, hfr, hrs, List.append_assoc, List.cons_append]
      · rw [symbols_append, symbols_cons, hsy]
        exact .nextArgument hr hrr
    · obtain ⟨rfl, rfl⟩ := Prod.mk.inj (Except.ok.inj h)
      exact ⟨[node], by simp, part, hp, .lastArgument hr⟩

/-- Arguments in their parentheses.  The parentheses of the view balance from `pos` on, so
that the closing one is a token of the view. -/
theorem argumentListAt_reads (hv : view.Lexical) {expression : Nat → Attempt (Node × Nat)}
    (hf : Forward expression) (he : ExpressionsRead view expression (pos + 1))
    (hb : balance (symbols (view.from pos)) ≤ 0) {nodes : List Node}
    (h : (argumentListAt view expression pos).outcome = .ok (nodes, next)) :
    ∃ part inner, view.from pos = part ++ view.from next ∧
      symbols part = .leftParen :: (inner ++ [.rightParen]) ∧
      Reads (.argumentList nodes) inner := by
  obtain ⟨ho, close, rfl, hc, hit⟩ := argumentListAt_ok h
  have hpos : pos < view.tokens.size := by
    refine Nat.lt_of_not_le fun hle => hv.after ?_
    rw [← View.peek_eq_after hle, ho]
  have hl : (view.peek pos).symbol = .leftParen := (hv.peek hpos).eq_sign (by decide) ho rfl
  obtain ⟨inner, hi, hr⟩ : Spans view (pos + 1) close (.argumentList nodes) := by
    rcases listOrNone_ok hit with ⟨-, rfl, rfl⟩ | hs
    · exact ⟨[], rfl, .noArguments⟩
    · obtain ⟨-, args, hn, inner, hi, hr⟩ :=
        argumentsFrom_reads hv hf he hs
      obtain rfl : nodes = args := hn
      exact ⟨inner, hi, .someArguments hr⟩
  have hin : close < view.tokens.size := by
    refine View.lt_size_of_from_ne_nil fun hnil => ?_
    rw [View.from_eq_cons hpos, hi, hnil, List.append_nil, symbols_cons, hl, balance,
      hr.balance_eq_zero rfl] at hb
    exact absurd hb (by decide)
  have hrg : (view.peek close).symbol = .rightParen := (hv.peek hin).eq_sign (by decide) hc rfl
  refine ⟨view.peek pos :: (inner ++ [view.peek close]), symbols inner, ?_, ?_, hr⟩
  · rw [View.from_eq_cons hpos, hi, View.from_eq_cons hin]
    simp
  · simp [hl, hrg]

/-! ## The rules of expressions -/

theorem symbol_of_accepts_word (hl : token.symbol.Lexical) {text : String}
    (h : Entry.accepts (.word text) token = true) (hne : text ≠ "") :
    token.symbol = .word text := by
  simp only [Entry.accepts, Token.spells, Bool.and_eq_true, beq_iff_eq, bne_iff_ne, ne_eq] at h
  exact hl.eq_word h.1 h.2 hne

theorem symbol_of_accepts_identifier (hl : token.symbol.Lexical)
    (h : Entry.accepts .identifier token = true) :
    token.symbol = .identifier token.text ∧ IsIdentifier token.text := by
  have hk : token.kind = .identifier := by simpa [Entry.accepts] using h
  refine ⟨?_, hl.classify_text hk (.inl rfl)⟩
  unfold Token.symbol
  rw [hk]
  rfl

theorem symbol_of_accepts_typeName (hl : token.symbol.Lexical)
    (h : Entry.accepts .typeName token = true) :
    token.symbol = .typeName token.text ∧ IsType token.text := by
  simp only [Entry.accepts, Bool.and_eq_true, decide_eq_true_eq, Bool.not_eq_true',
    List.contains_eq_mem, decide_eq_false_iff_not] at h
  refine ⟨?_, hl.classify_text h.1 (.inr rfl), h.2⟩
  unfold Token.symbol
  rw [h.1]
  rfl

theorem exists_cons_cons (h : 2 ≤ run.length) :
    ∃ head second rest, run = head :: second :: rest := by
  match run, h with
  | head :: second :: rest, _ => exact ⟨head, second, rest, rfl⟩

/-- What the rules of expressions give can be read off the run. -/
theorem headedReads (bound : Nat) : HeadedReads (headedRun entryAt) bound := by
  induction bound with
  | zero =>
    intro run after point node next hln hsh
    omega
  | succ bound ih =>
    intro run after point node next hln hsh hl haf hpn h hnx
    have hv : View.Lexical ⟨run.toArray, after⟩ := ⟨hl, haf⟩
    have hfr : Forward (expressionAt ⟨run.toArray, after⟩ (headedRun entryAt)) :=
      fun _ _ _ => expressionAt_forward
    have he : ∀ pos, 1 ≤ pos →
        ExpressionsRead ⟨run.toArray, after⟩ (expressionAt ⟨run.toArray, after⟩
          (headedRun entryAt)) pos := by
      intro pos hpos at_ other last hle ho
      refine expressionAt_reads hv (ih.mono ?_) ho
      simp only [List.size_toArray]
      omega
    obtain ⟨rule, hrl, hmt⟩ := alternatives_ok h
    obtain ⟨captures, hm, hb⟩ := matchRule_ok_iff.mp hmt
    have hag : ∀ {slot : Option Slot} {pos : Nat} {found : Captures} {stop : Nat},
        (entryAt ⟨run.toArray, after⟩ (slot, .arguments) pos).outcome = .ok (found, stop) →
          ∃ args part inner, found = inSlot slot (.nodes args) ∧
            run.drop pos = part ++ run.drop stop ∧
            symbols part = .leftParen :: (inner ++ [.rightParen]) ∧
            Reads (.argumentList args) inner := by
      intro slot pos found stop hf
      rw [entryAt, matchOne_arguments (by unfold depthFor; omega)] at hf
      obtain ⟨⟨args, last⟩, har, hc⟩ := Attempt.outcome_bind_ok_iff.mp hf
      obtain ⟨rfl, rfl⟩ := Prod.mk.inj (Except.ok.inj hc)
      have hbl : balance (symbols (View.from ⟨run.toArray, after⟩ pos)) ≤ 0 :=
        splitPoint?_balance hpn (List.take_append_drop pos run).symm
      obtain ⟨part, inner, hp, hs, hr⟩ := argumentListAt_reads hv hfr
        (he (pos + 1) (by omega)) hbl har
      exact ⟨args, part, inner, rfl, hp, hs, hr⟩
    obtain ⟨head, second, rest, rfl⟩ := exists_cons_cons hln
    have hh := hl head (by simp)
    have hsc := hl second (by simp)
    simp only [expressionRules, List.mem_cons, List.not_mem_nil, or_false] at hrl
    rcases hrl with rfl | rfl
    · obtain ⟨_, _, hnew, hm⟩ := hm.uncons rfl
      obtain ⟨hw, rfl, rfl⟩ := entryAt_token_ok hnew rfl
      obtain ⟨_, _, hn, hm⟩ := hm.uncons rfl
      obtain ⟨hac, rfl, rfl⟩ := entryAt_token_ok hn rfl
      have hk : head.symbol = .keyword "new" := symbol_of_accepts_word hh hw (by decide)
      obtain ⟨hsy, ht⟩ := symbol_of_accepts_typeName hsc hac
      rcases hm.uncons_optional rfl with ⟨found, stop, hf, hend⟩ | ⟨-, hend⟩
      · obtain ⟨rfl, rfl⟩ := Prod.mk.inj hend
        change (entryAt _ (none, .optional [(some .args, .arguments)]) _).outcome = _ at hf
        rw [entryAt_optional_arguments] at hf
        obtain ⟨⟨inside, last⟩, hin, hc⟩ := Attempt.outcome_bind_ok_iff.mp hf
        obtain ⟨rfl, rfl⟩ := Prod.mk.inj (Except.ok.inj hc)
        obtain ⟨_, _, har, hend⟩ := (matchEntries_ok_iff.mp hin).uncons rfl
        obtain ⟨rfl, rfl⟩ := Prod.mk.inj hend
        obtain ⟨args, part, inner, rfl, hp, hs, hr⟩ := hag har
        obtain rfl : rest = part := by simpa [hnx] using hp
        obtain rfl := Except.ok.inj hb
        rw [symbols_cons, symbols_cons, hk, hsy, hs]
        exact .createWith head ht hr
      · obtain ⟨rfl, rfl⟩ := Prod.mk.inj hend
        obtain rfl : rest = [] := hnx
        obtain rfl := Except.ok.inj hb
        rw [symbols_cons, symbols_cons, hk, hsy, symbols_nil]
        exact .create head ht
    · obtain ⟨_, _, hn, hm⟩ := hm.uncons rfl
      obtain ⟨hac, rfl, rfl⟩ := entryAt_token_ok hn rfl
      obtain ⟨hsy, hi⟩ := symbol_of_accepts_identifier hh hac
      obtain ⟨_, _, har, hend⟩ := hm.uncons rfl
      obtain ⟨rfl, rfl⟩ := Prod.mk.inj hend
      obtain ⟨args, part, inner, rfl, hp, hs, hr⟩ := hag har
      have hp : second :: rest = part := by simpa [hnx] using hp
      obtain rfl := Except.ok.inj hb
      rw [symbols_cons, hsy, hp, hs]
      exact .call head hi hr

/-- The expression at a position of a file can be read off the tokens that it takes. -/
theorem readsExpression (hv : view.Lexical)
    (h : (expressionAt view (headedRun entryAt) pos).outcome = .ok (node, next)) :
    pos < view.tokens.size ∧ Spans view pos next (.expression node) :=
  expressionAt_reads hv (headedReads _) h

end StepScript.Grammar
