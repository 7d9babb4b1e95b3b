import StepScript.Proofs.Grammar.Layout
set_option autoImplicit false

/-!
# The runs of renderings

How the parser goes over the tokens of an expression that is rendered: where the run ends
(`Balanced.runLength_append`), where a parenthesis closes (`Balanced.closingFrom_append`), and
which operators the run can be split at (`Reads.scanned`).  Those operators bind at least as
tightly as the expression does, since operands that bind looser stand in parentheses.
-/

namespace StepScript.Grammar

variable {tokens run left : List Token} {token op : Token} {outside : Bool} {phrase : Phrase}
  {list : List Symbol} {priority : Nat} {node : Node} {args : List Node}

open Symbol (keyword identifier leftParen rightParen comma assign dot fileEnd)

/-! ## Balanced symbols -/

/-- The symbol is neither a parenthesis nor the end of a line or file. -/
def isInner (symbol : Symbol) : Bool :=
  match symbol.kind with
  | .leftParen | .rightParen | .endOfLine | .endOfFile => false
  | _ => true

/-- An expression outside of parentheses stops in front of the symbol. -/
def endsExpression (symbol : Symbol) : Bool :=
  match symbol.kind with
  | .endOfLine | .endOfFile | .assign | .comma => true
  | .keyword => !Token.expressionKeywords.contains symbol.text
  | _ => false

theorem endsExpression_symbol (token : Token) :
    endsExpression token.symbol = token.endsExpression := rfl

/-- The symbols stand in one line and close the parentheses that they open.  If the whole
stands outside of parentheses, no symbol of it outside of parentheses ends an expression. -/
inductive Balanced : (outside : Bool) → List Symbol → Prop where
  | nil {outside : Bool} : Balanced outside []
  | cons {outside : Bool} {symbol : Symbol} {rest : List Symbol} (inner : isInner symbol = true)
      (stays : outside = true → endsExpression symbol = false)
      (tail : Balanced outside rest) : Balanced outside (symbol :: rest)
  | group {outside : Bool} {enclosed rest : List Symbol} (inside : Balanced false enclosed)
      (tail : Balanced outside rest) :
      Balanced outside (leftParen :: (enclosed ++ rightParen :: rest))

namespace Balanced

theorem append {first second : List Symbol} (hf : Balanced outside first)
    (hs : Balanced outside second) : Balanced outside (first ++ second) := by
  induction hf with
  | nil => exact hs
  | cons inner stays _ ih => exact .cons inner stays (ih hs)
  | group inside _ _ ih =>
    rw [List.cons_append, List.append_assoc, List.cons_append]
    exact .group inside (ih hs)

theorem enclosed (h : Balanced outside list) : Balanced false list := by
  induction h with
  | nil => exact .nil
  | cons inner _ _ ih => exact .cons inner nofun ih
  | group _ _ ihInside ihTail => exact .group ihInside ihTail

theorem parenthesised (h : Balanced outside list) : Balanced true (StepScript.parenthesised list) :=
  .group h.enclosed .nil

end Balanced

theorem symbols_eq_cons {symbol : Symbol} {rest : List Symbol}
    (h : symbols tokens = symbol :: rest) :
    ∃ first others, tokens = first :: others ∧ first.symbol = symbol ∧ symbols others = rest :=
  List.map_eq_cons_iff.mp h

theorem symbols_eq_append {first second : List Symbol} (h : symbols tokens = first ++ second) :
    ∃ front back, tokens = front ++ back ∧ symbols front = first ∧ symbols back = second :=
  List.map_eq_append_iff.mp h

theorem symbols_eq_nil (h : symbols tokens = []) : tokens = [] := List.map_eq_nil_iff.mp h

theorem symbols_eq_group {enclosed rest : List Symbol}
    (h : symbols tokens = leftParen :: (enclosed ++ rightParen :: rest)) :
    ∃ start inside close back, tokens = start :: (inside ++ close :: back) ∧
      start.kind = .leftParen ∧ close.kind = .rightParen ∧ symbols inside = enclosed ∧
      symbols back = rest := by
  obtain ⟨start, others, rfl, hs, ho⟩ := symbols_eq_cons h
  obtain ⟨inside, tail, rfl, hi, ht⟩ := symbols_eq_append ho
  obtain ⟨close, back, rfl, hc, hb⟩ := symbols_eq_cons ht
  exact ⟨start, inside, close, back, rfl, congrArg Symbol.kind hs, congrArg Symbol.kind hc, hi, hb⟩

/-! ## Over balanced tokens -/

section Inner

variable (h : isInner token.symbol = true)

include h

theorem runLength_inner {depth : Nat} (hs : 0 < depth ∨ endsExpression token.symbol = false)
    (rest : List Token) : runLength depth (token :: rest) = runLength depth rest + 1 := by
  have hst : (decide (depth = 0) && token.endsExpression) = false := by
    rcases hs with hpos | hs
    · simp [Nat.pos_iff_ne_zero.mp hpos]
    · rw [← endsExpression_symbol, hs, Bool.and_false]
  rw [runLength]
  split <;> simp_all [isInner]

theorem closingFrom_inner (depth index : Nat) (rest : List Token) :
    closingFrom depth index (token :: rest) = closingFrom depth (index + 1) rest := by
  rw [closingFrom.eq_def]
  dsimp only
  split <;> simp_all [isInner]

theorem splitPointFrom_inner (after : Token) (left : List Token) (depth : Nat)
    (best : Option SplitPoint) :
    splitPointFrom after (token :: left) (depth + 1) best
      = splitPointFrom after left (depth + 1) best := by
  rw [splitPointFrom]
  split <;> simp_all [isInner]

end Inner

theorem runLength_open (h : token.kind = .leftParen) (depth : Nat) (rest : List Token) :
    runLength depth (token :: rest) = runLength (depth + 1) rest + 1 := by
  rw [runLength, h]

theorem runLength_close (h : token.kind = .rightParen) (depth : Nat) (rest : List Token) :
    runLength (depth + 1) (token :: rest) = runLength depth rest + 1 := by
  rw [runLength, h]
  rfl

section Balanced

/-- A run goes on over balanced tokens. -/
theorem Balanced.runLength_append (h : Balanced outside list) (ht : symbols tokens = list)
    {depth : Nat} (hd : outside = true ∨ 0 < depth) (rest : List Token) :
    runLength depth (tokens ++ rest) = tokens.length + runLength depth rest := by
  induction h generalizing tokens depth rest with
  | nil =>
    obtain rfl := symbols_eq_nil ht
    simp
  | cons inner stays _ ih =>
    obtain ⟨first, others, rfl, rfl, ho⟩ := symbols_eq_cons ht
    rw [List.cons_append, runLength_inner inner (hd.symm.imp_right stays),
      ih ho hd, List.length_cons]
    omega
  | group _ _ ihInside ihTail =>
    obtain ⟨start, inside, close, back, rfl, hs, hc, hi, hb⟩ := symbols_eq_group ht
    have hin := ihInside hi (.inr (Nat.succ_pos depth)) (close :: (back ++ rest))
    have hout := ihTail hb hd rest
    simp only [List.cons_append, List.append_assoc, List.length_cons, List.length_append]
    rw [runLength_open hs, hin, runLength_close hc, hout]
    omega

/-- The parenthesis that closes the first one stands behind balanced tokens. -/
theorem Balanced.closingFrom_append (h : Balanced outside list) (ht : symbols tokens = list)
    (depth index : Nat) (rest : List Token) :
    closingFrom (depth + 1) index (tokens ++ rest)
      = closingFrom (depth + 1) (index + tokens.length) rest := by
  induction h generalizing tokens depth index rest with
  | nil =>
    obtain rfl := symbols_eq_nil ht
    rfl
  | cons inner _ _ ih =>
    obtain ⟨first, others, rfl, rfl, ho⟩ := symbols_eq_cons ht
    rw [List.cons_append, closingFrom_inner inner, ih ho, List.length_cons]
    congr 1
    omega
  | group _ _ ihInside ihTail =>
    obtain ⟨start, inside, close, back, rfl, hs, hc, hi, hb⟩ := symbols_eq_group ht
    have htl := ihTail hb depth (index + 1 + inside.length + 1) rest
    simp only [List.cons_append, List.append_assoc, closingFrom, hs, ihInside hi,
      hc, htl, List.length_cons, List.length_append]
    congr 1
    omega

/-- Inside of parentheses a run is not split. -/
theorem Balanced.splitPointFrom_append (h : Balanced outside list) (ht : symbols tokens = list)
    (after : Token) (left : List Token) (depth : Nat) (best : Option SplitPoint) :
    splitPointFrom after (tokens.reverse ++ left) (depth + 1) best
      = splitPointFrom after left (depth + 1) best := by
  induction h generalizing tokens left depth with
  | nil =>
    obtain rfl := symbols_eq_nil ht
    rfl
  | cons inner _ _ ih =>
    obtain ⟨first, others, rfl, rfl, ho⟩ := symbols_eq_cons ht
    rw [List.reverse_cons, List.append_assoc, ih ho]
    exact splitPointFrom_inner inner after left depth best
  | group _ _ ihInside ihTail =>
    obtain ⟨start, inside, close, back, rfl, hs, hc, hi, hb⟩ := symbols_eq_group ht
    simp only [List.reverse_cons, List.reverse_append, List.append_assoc, List.cons_append,
      List.nil_append, ihTail hb]
    rw [splitPointFrom, hc]
    dsimp only
    rw [ihInside hi, splitPointFrom, hs]
    rfl

end Balanced

/-! ## Expressions are balanced -/

/-- The phrase stands outside of parentheses. -/
def Phrase.isOutside : Phrase → Bool
  | .expression _ => true
  | _ => false

/-- Expressions are balanced, and lists of them are inside of parentheses. -/
theorem Reads.balanced (h : Reads phrase list) (hp : phrase.isExpression = true) :
    Balanced phrase.isOutside list := by
  induction h with
  | leaf _ made =>
    rcases leaf_kind made with hk | hk | hk | hk <;>
      exact .cons (by simp [isInner, hk]) (by simp [endsExpression, hk]) .nil
  | group _ ih => exact (ih rfl).parenthesised
  | @unary op _ _ _ _ ih =>
    exact .cons (by cases op <;> rfl) (fun _ => by cases op <;> rfl) (ih rfl)
  | @binary op _ _ _ _ symbol _ _ operator _ _ ihFirst ihSecond =>
    have hk : symbol.kind = op.kind := by rw [← Symbol.canonical_kind, operator]; rfl
    refine (ihFirst rfl).append (.cons ?_ (fun _ => ?_) (ihSecond rfl)) <;>
      cases op <;> simp [isInner, endsExpression, hk, BinaryOp.kind]
  | member _ _ _ _ ihFirst ihSecond =>
    exact (ihFirst rfl).append (.cons rfl (fun _ => rfl) (ihSecond rfl))
  | call _ _ _ ih => exact .cons rfl (fun _ => rfl) (ih rfl).parenthesised
  | create => exact .cons rfl (fun _ => rfl) (.cons rfl (fun _ => rfl) .nil)
  | createWith _ _ _ ih =>
    exact .cons rfl (fun _ => rfl) (.cons rfl (fun _ => rfl) (ih rfl).parenthesised)
  | noArguments => exact .nil
  | someArguments _ ih => exact ih rfl
  | lastArgument _ ih => exact (ih rfl).enclosed
  | nextArgument _ _ ihHead ihTail =>
    exact (ihHead rfl).enclosed.append (.cons rfl (by simp) (ihTail rfl))
  | _ => cases hp

/-- An expression ends with a symbol that is no operator. -/
theorem Reads.exists_last (h : Reads phrase list) (hp : phrase.isOutside = true) :
    ∃ front symbol, list = front ++ [symbol] ∧ symbol.kind.isOperator = false := by
  induction h with
  | leaf _ made =>
    refine ⟨[], _, rfl, ?_⟩
    rcases leaf_kind made with hk | hk | hk | hk <;> rw [Token.symbol_kind, hk] <;> rfl
  | group => exact ⟨_ :: _, rightParen, rfl, rfl⟩
  | unary _ _ ih =>
    obtain ⟨front, symbol, rfl, hl⟩ := ih rfl
    exact ⟨_ :: front, symbol, rfl, hl⟩
  | binary _ _ _ _ _ _ ih | member _ _ _ _ _ ih =>
    obtain ⟨front, symbol, rfl, hl⟩ := ih rfl
    exact ⟨_, symbol, (List.append_assoc _ (_ :: front) _).symm, hl⟩
  | call => exact ⟨_ :: _ :: _, rightParen, rfl, rfl⟩
  | create => exact ⟨[_], _, rfl, rfl⟩
  | createWith => exact ⟨_ :: _ :: _ :: _, rightParen, rfl, rfl⟩
  | _ => cases hp

/-! ## Operators to split at -/

/-- The loosest of the points, from right to left, and of what has been found before. -/
def loosest (best : Option SplitPoint) (points : List SplitPoint) : Option SplitPoint :=
  points.foldl (fun found point => some (looser found point)) best

/-- With `left` in front of the run, the points are those that the run can be split at. -/
def Scans (left run : List Token) (points : List SplitPoint) : Prop :=
  ∀ after best, splitPointFrom after (run.reverse ++ left) 0 best
    = splitPointFrom after left 0 (loosest best points)

theorem Scans.append {left first second : List Token} {points others : List SplitPoint}
    (hs : Scans (first.reverse ++ left) second points) (hf : Scans left first others) :
    Scans left (first ++ second) (points ++ others) := by
  intro after best
  rw [List.reverse_append, List.append_assoc, hs, hf, loosest, loosest, loosest, List.foldl_append]

/-- The only points of a run decide where it is split. -/
theorem Scans.splitPoint?_eq {points : List SplitPoint} (h : Scans [] run points) (after : Token) :
    splitPoint? run after = .ok (loosest none points) := by
  have hs := h after none
  rwa [List.append_nil] at hs

/-- A token without parentheses, if it is an operator at all. -/
theorem scans_token (h : isInner token.symbol = true) :
    Scans left [token] (candidate? token left).toList := by
  intro after best
  rw [List.reverse_singleton, List.singleton_append, splitPointFrom]
  split
  · simp_all [isInner]
  · simp_all [isInner]
  · cases candidate? token left <;> rfl

/-- Parentheses hide what is inside of them. -/
theorem scans_group {left inside : List Token} {start close : Token}
    (hs : start.kind = .leftParen) (hc : close.kind = .rightParen)
    (hi : Balanced false (symbols inside)) :
    Scans left (start :: (inside ++ [close])) [] := by
  intro after best
  simp only [List.reverse_cons, List.reverse_append, List.append_assoc, List.cons_append,
    List.nil_append, List.reverse_nil]
  rw [splitPointFrom, hc]
  dsimp only
  rw [hi.splitPointFrom_append rfl, splitPointFrom, hs]
  rfl

/-- In front of the run stands nothing, or an operator. -/
def Fresh (left : List Token) : Prop := ∀ token ∈ left.head?, token.kind.isOperator = true

theorem fresh_nil : Fresh [] := by simp [Fresh]

theorem fresh_cons (h : op.kind.isOperator = true) (left : List Token) : Fresh (op :: left) := by
  simpa [Fresh] using h

/-- An operator between operands. -/
theorem scans_operator {op previous : Token} (hp : previous.kind.isOperator = false)
    (hop : op.kind.binaryPriority? = some priority) :
    Scans (previous :: left) [op] [⟨left.length + 1, false, priority⟩] := by
  have hi : isInner op.symbol = true := by
    unfold isInner
    rw [Token.symbol_kind]
    split <;> simp_all [TokenKind.binaryPriority?]
  have hs := @scans_token (previous :: left) op hi
  simpa [candidate?, hp, hop] using hs

/-- The operator of the point stands between operands. -/
def SplitPoint.IsBinary (point : SplitPoint) : Prop :=
  ∃ kind : TokenKind, kind.binaryPriority? = some point.priority

/-- The points are no looser than `bound`.  Behind an operator they are all between operands. -/
structure PointsFit (left : List Token) (bound : Nat) (points : List SplitPoint) : Prop where
  priority : ∀ point ∈ points, bound ≤ point.priority
  binary : left ≠ [] → ∀ point ∈ points, point.IsBinary

theorem pointsFit_nil (left : List Token) (bound : Nat) : PointsFit left bound [] :=
  ⟨by simp, by simp⟩

theorem PointsFit.append {bound : Nat} {points others : List SplitPoint}
    (h : PointsFit left bound points) (ho : PointsFit left bound others) :
    PointsFit left bound (points ++ others) :=
  ⟨List.forall_mem_append.mpr ⟨h.priority, ho.priority⟩,
    fun hl => List.forall_mem_append.mpr ⟨h.binary hl, ho.binary hl⟩⟩

/-- The run of a rendered expression can be split at operators that are no looser than it. -/
def Scanned (node : Node) : Prop :=
  ∀ run left, symbols run = node.canonical → Fresh left →
    ∃ points, Scans left run points ∧ PointsFit left node.priority points

/-- An operand is in parentheses if it binds looser than `bound`. -/
theorem Scanned.operand (h : Scanned node) (hr : Reads (.expression node) list) {grouped : Bool}
    {bound : Nat} (hg : grouped = false → bound ≤ node.priority) {run left : List Token}
    (hrun : symbols run = StepScript.operand parenthesised grouped node.canonical)
    (hl : Fresh left) :
    ∃ points, Scans left run points ∧ PointsFit left bound points := by
  cases grouped with
  | true =>
    obtain ⟨start, inside, close, back, rfl, hst, hc, hi, hb⟩ := symbols_eq_group hrun
    obtain rfl := symbols_eq_nil hb
    have hbl : Balanced false (symbols inside) := by
      rw [hi]
      exact (hr.rendering.balanced rfl).enclosed
    exact ⟨[], scans_group hst hc hbl, pointsFit_nil left bound⟩
  | false =>
    obtain ⟨points, hs, hfit⟩ := h run left hrun hl
    refine ⟨points, hs, fun point hp => ?_, hfit.binary⟩
    exact Nat.le_trans (hg rfl) (hfit.priority point hp)

/-- Two operands with their operator between them. -/
theorem scans_operation {left first second : List Token} {front : List Symbol} {last : Symbol}
    {points others : List SplitPoint} (hf : symbols first = front ++ [last])
    (hl : last.kind.isOperator = false) (hop : op.kind.binaryPriority? = some priority)
    (hp : Scans (op :: (first.reverse ++ left)) second points)
    (ho : Scans left first others) :
    Scans left (first ++ op :: second)
      (points ++ (⟨first.length + left.length, false, priority⟩ :: others)) := by
  obtain ⟨before, ends, rfl, -, he⟩ := symbols_eq_append hf
  obtain ⟨previous, nothing, rfl, rfl, hn⟩ := symbols_eq_cons he
  obtain rfl := symbols_eq_nil hn
  have hm : Scans ((before ++ [previous]).reverse ++ left) [op]
      [⟨(before ++ [previous]).length + left.length, false, priority⟩] := by
    have hs := @scans_operator (before.reverse ++ left) priority op previous hl hop
    have hln : (before.reverse ++ left).length + 1
        = (before ++ [previous]).length + left.length := by
      simp only [List.length_append, List.length_reverse, List.length_singleton]
      omega
    rw [hln] at hs
    simpa using hs
  simpa only [List.append_assoc, List.singleton_append] using
    (hp.append hm).append ho

/-- The run of an operation: at its operator it can be split, and the points to the right of it
are tighter. -/
theorem Scanned.operation {lhs rhs : Node} {left right : List Symbol} (hlhs : Scanned lhs)
    (hrhs : Scanned rhs) (hf : Reads (.expression lhs) left)
    (hsc : Reads (.expression rhs) right) {loose tight : Bool}
    (hls : loose = false → priority ≤ lhs.priority)
    (ht : tight = false → priority < rhs.priority) {symbol : Symbol}
    (hsy : symbol.kind.binaryPriority? = some priority) {run before : List Token}
    (hrun : symbols run = StepScript.operand parenthesised loose lhs.canonical
      ++ symbol :: StepScript.operand parenthesised tight rhs.canonical) (hbf : Fresh before) :
    ∃ first op second points others, run = first ++ op :: second ∧ op.symbol = symbol ∧
      symbols first = StepScript.operand parenthesised loose lhs.canonical ∧
      symbols second = StepScript.operand parenthesised tight rhs.canonical ∧
      Scans before run
        (points ++ (⟨first.length + before.length, false, priority⟩ :: others)) ∧
      PointsFit [op] (priority + 1) points ∧ PointsFit before priority others := by
  obtain ⟨first, back, rfl, hs, hb⟩ := symbols_eq_append hrun
  obtain ⟨op, second, rfl, rfl, hss⟩ := symbols_eq_cons hb
  have hop : op.kind.isOperator = true := by
    unfold TokenKind.isOperator
    rw [← Token.symbol_kind, hsy]
    rfl
  obtain ⟨front, last, hl, ho⟩ := (reads_operand hf.rendering loose).exists_last rfl
  obtain ⟨others, hot, hfo⟩ := hlhs.operand hf hls hs hbf
  obtain ⟨points, hp, hfp⟩ := hrhs.operand hsc ht hss
    (fresh_cons hop (first.reverse ++ before))
  refine ⟨first, op, second, points, others, rfl, rfl, hs, hss, ?_,
    ⟨hfp.priority, fun _ => hfp.binary (by simp)⟩, hfo⟩
  exact scans_operation (hs.trans hl) ho hsy hp hot

/-- The point between tighter ones to its right and points to its left that are no looser. -/
theorem pointsFit_operation {before : List Token} {priority index : Nat}
    {points others : List SplitPoint} (hpr : op.kind.binaryPriority? = some priority)
    (hp : PointsFit [op] (priority + 1) points) (ho : PointsFit before priority others) :
    PointsFit before priority (points ++ (⟨index, false, priority⟩ :: others)) := by
  refine PointsFit.append ⟨fun point hpn => ?_, fun _ => hp.binary (by simp)⟩ ⟨?_, ?_⟩
  · exact Nat.le_of_succ_le (hp.priority point hpn)
  · exact List.forall_mem_cons.mpr ⟨Nat.le_refl _, ho.priority⟩
  · exact fun hb => List.forall_mem_cons.mpr ⟨⟨op.kind, hpr⟩, ho.binary hb⟩

/-- What is a member binds tighter than every operator. -/
theorem priority_of_isMember (h : isMember node = true) : node.priority = leafPriority := by
  obtain ⟨kind, token⟩ := node
  cases kind <;> first | rfl | cases h

theorem canonical_of_leaf (h : leaf token = .ok node) : node.canonical = [token.symbol] := by
  rcases leaf_node h with ⟨constant, rfl⟩ | ⟨name, rfl⟩ <;> rfl

@[simp] theorem BinaryOp.binaryPriority?_kind (op : BinaryOp) :
    op.symbol.kind.binaryPriority? = some op.priority := by
  cases op <;> rfl

@[simp] theorem UnaryOp.unaryPriority?_kind (op : UnaryOp) :
    op.symbol.kind.unaryPriority? = some op.priority := by
  cases op <;> rfl

/-- A token that is no operator gives no point. -/
theorem scans_plain (hi : isInner token.symbol = true)
    (hu : token.kind.unaryPriority? = none) (hb : token.kind.binaryPriority? = none) :
    Scans left [token] [] := by
  have hc : candidate? token left = none := by
    cases left <;> simp [candidate?, hu, hb]
  have hs := @scans_token left token hi
  rwa [hc] at hs

/-- A leaf is a single token, which gives no point. -/
theorem scans_leaf (h : leaf token = .ok node) (hrun : symbols run = node.canonical)
    (left : List Token) :
    ∃ other, run = [other] ∧ other.symbol = token.symbol ∧ Scans left run [] := by
  rw [canonical_of_leaf h] at hrun
  obtain ⟨other, nothing, rfl, hs, hn⟩ := symbols_eq_cons hrun
  obtain rfl := symbols_eq_nil hn
  have hk : other.kind = token.kind := congrArg Symbol.kind hs
  refine ⟨other, rfl, hs, scans_plain ?_ ?_ ?_⟩ <;>
    rcases leaf_kind h with hl | hl | hl | hl <;>
    simp [isInner, hk, hl, TokenKind.unaryPriority?, TokenKind.binaryPriority?]

/-- Names and words give no point. -/
theorem scans_word (h : token.kind = .identifier ∨ token.kind = .typeName ∨ token.kind = .keyword) :
    Scans left [token] [] := by
  refine scans_plain ?_ ?_ ?_ <;> rcases h with hk | hk | hk <;>
    simp [isInner, hk, TokenKind.unaryPriority?, TokenKind.binaryPriority?]

theorem binaryPriority?_dot : dot.kind.binaryPriority? = some memberPriority := rfl

/-- The member is never in parentheses. -/
theorem canonical_member {target member : Node}
    (h : list = Node.canonical ⟨.member target member, token⟩) :
    list = operand parenthesised (decide (target.priority < memberPriority)) target.canonical
      ++ dot :: operand parenthesised false member.canonical := h

/-- The run of a sign and its operand. -/
theorem Scanned.sign {argument : Node} (h : Scanned argument)
    (hr : Reads (.expression argument) list) {op : UnaryOp} {grouped : Bool}
    (hg : grouped = false → op.priority ≤ argument.priority) {run before : List Token}
    (hrun : symbols run
      = op.symbol :: StepScript.operand parenthesised grouped argument.canonical) :
    ∃ sign second points, run = sign :: second ∧ sign.symbol = op.symbol ∧
      symbols second = StepScript.operand parenthesised grouped argument.canonical ∧
      Scans before run (points ++ (candidate? sign before).toList) ∧
      PointsFit [sign] op.priority points := by
  obtain ⟨sign, second, rfl, hs, hsc⟩ := symbols_eq_cons hrun
  have hk : sign.kind = op.symbol.kind := congrArg Symbol.kind hs
  have ho : sign.kind.isOperator = true := by rw [hk]; cases op <;> rfl
  have hi : isInner sign.symbol = true := by rw [hs]; cases op <;> rfl
  obtain ⟨points, hp, hfit⟩ := h.operand hr hg hsc
    (fresh_cons ho before)
  refine ⟨sign, second, points, rfl, hs, hsc, ?_, ⟨hfit.priority, fun _ => hfit.binary (by simp)⟩⟩
  have hsn : Scans before ([sign] ++ second) _ := Scans.append hp (scans_token hi)
  exact hsn

/-- Arguments in their parentheses give no point. -/
theorem scans_arguments (h : Reads (.argumentList args) list)
    (hrun : symbols run = parenthesised (argumentsRendering parenthesised args))
    (left : List Token) :
    Scans left run [] := by
  obtain ⟨start, inside, close, back, rfl, hs, hc, hi, hb⟩ := symbols_eq_group hrun
  obtain rfl := symbols_eq_nil hb
  refine scans_group hs hc ?_
  rw [hi]
  exact h.rendering.balanced rfl

theorem scans_call {name : String} (h : Reads (.argumentList args) list)
    (hrun : symbols run = identifier name :: parenthesised (argumentsRendering parenthesised args))
    (left : List Token) : Scans left run [] := by
  obtain ⟨first, rest, rfl, hf, hr⟩ := symbols_eq_cons hrun
  have hn : Scans left [first] [] := scans_word (.inl (congrArg Symbol.kind hf))
  exact (scans_arguments h hr _).append hn

theorem scans_create {name : String} (h : Reads (.argumentList args) list)
    (hrun : symbols run = keyword "new" :: .typeName name
      :: listed args (argumentsRendering parenthesised args)) (left : List Token) :
    Scans left run [] := by
  obtain ⟨new, back, rfl, hnew, hb⟩ := symbols_eq_cons hrun
  obtain ⟨type, rest, rfl, ht, hr⟩ := symbols_eq_cons hb
  have hw : Scans left ([new] ++ [type]) ([] ++ []) :=
    Scans.append (scans_word (.inr (.inl (congrArg Symbol.kind ht))))
      (scans_word (.inr (.inr (congrArg Symbol.kind hnew))))
  cases args with
  | nil =>
    obtain rfl := symbols_eq_nil hr
    exact hw
  | cons arg args => exact (scans_arguments h hr _).append hw

/-- Every phrase that is an expression can be scanned. -/
def Phrase.Scanned : Phrase → Prop
  | .expression node => Grammar.Scanned node
  | _ => True

theorem Reads.scanned (h : Reads phrase list) : phrase.Scanned := by
  induction h with
  | leaf lexical made =>
    intro run left hrun hl
    obtain ⟨token, rfl, -, hs⟩ := scans_leaf made hrun left
    exact ⟨[], hs, pointsFit_nil _ _⟩
  | group _ ih => exact ih
  | @unary op argument _ token inner ih =>
    intro run left hrun hl
    obtain ⟨sign, second, points, rfl, hsg, -, hs, hfit⟩ :=
      Grammar.Scanned.sign ih inner (by simp) hrun
    refine ⟨_, hs, PointsFit.append ⟨hfit.priority, fun _ => hfit.binary (by simp)⟩ ?_⟩
    cases left with
    | nil =>
      have hpt : sign.kind.unaryPriority? = some op.priority := by
        rw [← Token.symbol_kind, hsg, UnaryOp.unaryPriority?_kind]
      simp only [candidate?, hpt]
      exact ⟨by simp [Node.priority], by simp⟩
    | cons previous others =>
      have hpr : previous.kind.isOperator = true := by simpa [Fresh] using hl
      simp only [candidate?, hpr]
      exact pointsFit_nil _ _
  | @binary op lhs rhs _ _ _ _ _ _ first second ihFirst ihSecond =>
    intro run left hrun hl
    obtain ⟨front, token, back, points, others, rfl, hsy, -, -, hs, hp, ho⟩ :=
      Grammar.Scanned.operation ihFirst ihSecond first second (by simp) (by simp)
        (BinaryOp.binaryPriority?_kind op) hrun hl
    refine ⟨_, hs, pointsFit_operation ?_ hp ho⟩
    rw [← Token.symbol_kind, hsy, BinaryOp.binaryPriority?_kind]
    rfl
  | @member target member _ _ _ fits first second ihFirst ihSecond =>
    intro run left hrun hl
    have ht : memberPriority < member.priority := by
      rw [priority_of_isMember fits]
      decide
    obtain ⟨front, token, back, points, others, rfl, hsy, -, -, hs, hp, ho⟩ :=
      Grammar.Scanned.operation ihFirst ihSecond first second (by simp) (fun _ => ht)
        binaryPriority?_dot (canonical_member hrun) hl
    refine ⟨_, hs, pointsFit_operation ?_ hp ho⟩
    rw [← Token.symbol_kind, hsy]
    rfl
  | call _ _ inner => exact fun run left hrun _ => ⟨[], scans_call inner hrun left,
      pointsFit_nil _ _⟩
  | create => exact fun run left hrun _ => ⟨[], scans_create .noArguments hrun left,
      pointsFit_nil _ _⟩
  | createWith _ _ inner => exact fun run left hrun _ => ⟨[], scans_create inner hrun left,
      pointsFit_nil _ _⟩
  | _ => trivial

end StepScript.Grammar
