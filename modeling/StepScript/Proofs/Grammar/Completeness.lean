import StepScript.Proofs.Grammar.Blocks
set_option autoImplicit false

/-!
# Rendered statements are parsed into themselves

The converse of reading statements off their tokens: wherever the rendering of a statement is
ahead, the table of rules gives the statement again, up to the places of tokens
(`Reads.given`).  There is one lemma for each form of a statement.  It matches the rule of the
form and shows that no rule in front of it matches.
-/

namespace StepScript.Grammar

attribute [local simp] Node.canonical Node.rendering NodeKind.rendering Node.erase NodeKind.erase

variable {view : View} {more listed rest list : List Symbol} {node thenBranch : Node} {pos : Nat}
  {params : List Parameter} {symbol : Symbol}

open Symbol (keyword identifier leftParen rightParen comma assign dot fileEnd)

/-- A rule gives a statement if the first symbols ahead do not fit the rules in front of it. -/
theorem given_of_rule (hv : view.IsFile) (known : List Symbol)
    (hah : view.ahead pos = known ++ more) (index : Nat) {rule : Rule}
    (hr : statementRules[index]? = some rule)
    (he : ((statementRules.take index).all fun other => !fits other.entries known) = true)
    {captures : Captures} {next : Nat}
    (hm : Matches (entryAt view) rule.entries pos [] (captures, next))
    (hb : rule.build captures (view.peek pos) = .ok node) :
    (statementAt view (entryAt view) pos).outcome = .ok (node, next) :=
  statementAt_of_rule hv hah index hr he
    (matchRule_ok_iff.mpr ⟨captures, hm, hb⟩)

section Forms

variable {condition : Node} {nodes : List Node} {name : String} (token start : Token)

/-- Lines up to `end`. -/
theorem matches_lines (hv : view.IsFile) (h : LinesGiven nodes)
    (hah : view.ahead pos
      = .lineEnd :: (linesRendering parenthesised nodes ++ keyword "end" :: rest)) :
    ∃ others next, eraseAll others = eraseAll nodes ∧ view.ahead next = rest ∧ ∀ {captures},
      Matches (entryAt view) [lineEnd, body .body ["end"], word "end"] pos captures
        ((.body, .node ⟨.block others, view.peek (pos + 1)⟩) :: captures, next) := by
  obtain ⟨-, hln⟩ := View.ahead_cons hah
  obtain ⟨others, last, ho, he, hend⟩ := h.body hv ["end"] hln (by decide) rfl
  obtain ⟨-, hr⟩ := View.ahead_cons hend
  exact ⟨others, last + 1, he, hr, matches_symbol rfl hah rfl (matches_body hv ho
    (matches_symbol rfl hend rfl rfl))⟩

/-! ## Declarations -/

theorem classDecl_given {parent : Option String} (named : IsType name)
    (extending : ∀ other ∈ parent, IsType other) (body : LinesGiven nodes) :
    StatementGiven ⟨.classDecl name parent ⟨.block nodes, start⟩, token⟩ := by
  intro view hv pos rest hah _
  replace hah : view.ahead pos = keyword "class" :: .typeName name :: (parentClause parent
      ++ .lineEnd :: (linesRendering parenthesised nodes ++ keyword "end" :: rest)) := by
    simpa using hah
  obtain ⟨-, hn⟩ := View.ahead_cons hah
  obtain ⟨-, hp⟩ := View.ahead_cons hn
  obtain ⟨mid, hl, hc⟩ := matches_parentClause hv extending hp
  obtain ⟨others, last, he, hr, hb⟩ := matches_lines hv body hl
  refine ⟨⟨.classDecl name parent ⟨.block others, view.peek (mid + 1)⟩, view.peek pos⟩, last,
    given_of_rule hv [keyword "class"] hah 0 rfl rfl (matches_symbol rfl hah rfl
      (matches_symbol rfl hn (acceptsSymbol_typeName named) (hc hb))) ?_, ?_, hr⟩
  · cases parent <;> rfl
  · simp [he]

theorem behaviourDecl_given (named : IsType name) (body : LinesGiven nodes) :
    StatementGiven ⟨.behaviourDecl name ⟨.block nodes, start⟩, token⟩ := by
  intro view hv pos rest hah _
  replace hah : view.ahead pos = keyword "behaviour" :: .typeName name :: .lineEnd
      :: (linesRendering parenthesised nodes ++ keyword "end" :: rest) := by
    simpa using hah
  obtain ⟨-, hn⟩ := View.ahead_cons hah
  obtain ⟨-, hl⟩ := View.ahead_cons hn
  obtain ⟨others, last, he, hr, hb⟩ := matches_lines hv body hl
  refine ⟨⟨.behaviourDecl name ⟨.block others, view.peek (pos + 3)⟩, view.peek pos⟩, last,
    given_of_rule hv [keyword "behaviour"] hah 1 rfl rfl (matches_symbol rfl hah rfl
      (matches_symbol rfl hn (acceptsSymbol_typeName named) hb)) rfl, ?_, hr⟩
  simp [he]

theorem functionDecl_given (shared : Bool) (list : Reads (.parameterList params) listed)
    (body : LinesGiven nodes) :
    StatementGiven
      ⟨.functionDecl name params (some ⟨.block nodes, start⟩) shared false, token⟩ := by
  intro view hv pos rest hah _
  replace hah : view.ahead pos = sharedMark shared ++ keyword "function" :: identifier name
      :: (StepScript.listed params (parametersRendering parenthesised params) ++ .lineEnd
        :: (linesRendering parenthesised nodes ++ keyword "end" :: rest)) := by
    simpa using hah
  obtain ⟨first, hf, hfl⟩ := matches_sharedFlag hv shared (by decide) hah
  obtain ⟨-, hn⟩ := View.ahead_cons hf
  obtain ⟨-, hp⟩ := View.ahead_cons hn
  obtain ⟨others, found, mid, hl, hep, hfn, hls⟩ := matches_parameterList hv list hp rfl
  obtain ⟨inner, last, he, hr, hb⟩ := matches_lines hv body hl
  have hk : view.ahead pos = (sharedMark shared ++ [keyword "function"]) ++ _ :=
    hah.trans (List.append_assoc _ [_] _).symm
  refine ⟨⟨.functionDecl name others (some ⟨.block inner, view.peek (mid + 1)⟩) shared false,
    view.peek pos⟩, last, given_of_rule hv _ hk 2 rfl (by cases shared <;> rfl) (hfl
      (matches_symbol rfl hf rfl (matches_symbol rfl hn rfl (hls hb)))) ?_, ?_, hr⟩
  · rcases hfn with rfl | ⟨rfl, rfl⟩ <;> cases shared <;> rfl
  · simp [he, hep]

theorem nativeDecl_given (shared : Bool) (list : Reads (.parameterList params) listed) :
    StatementGiven ⟨.functionDecl name params none shared true, token⟩ := by
  intro view hv pos rest hah hfw
  replace hah : view.ahead pos = sharedMark shared ++ keyword "native" :: keyword "function"
      :: identifier name
      :: (StepScript.listed params (parametersRendering parenthesised params) ++ rest) := by
    simpa using hah
  obtain ⟨first, hnt, hfl⟩ := matches_sharedFlag hv shared (by decide) hah
  obtain ⟨-, hf⟩ := View.ahead_cons hnt
  obtain ⟨-, hn⟩ := View.ahead_cons hf
  obtain ⟨-, hp⟩ := View.ahead_cons hn
  obtain ⟨others, found, next, hr, hep, hfn, hl⟩ :=
    matches_parameterList hv list hp (stops_of_follows hfw)
  have hk : view.ahead pos = (sharedMark shared ++ [keyword "native"]) ++ _ :=
    hah.trans (List.append_assoc _ [_] _).symm
  refine ⟨⟨.functionDecl name others none shared true, view.peek pos⟩, next,
    given_of_rule hv _ hk 3 rfl (by cases shared <;> rfl) (hfl
      (matches_symbol rfl hnt rfl (matches_symbol rfl hf rfl
        (matches_symbol rfl hn rfl (hl rfl))))) ?_, ?_, hr⟩
  · rcases hfn with rfl | ⟨rfl, rfl⟩ <;> cases shared <;> rfl
  · simp [hep]

theorem constructorDecl_given (shared : Bool) (list : Reads (.parameterList params) listed)
    (body : LinesGiven nodes) :
    StatementGiven ⟨.constructorDecl params ⟨.block nodes, start⟩ shared, token⟩ := by
  intro view hv pos rest hah _
  replace hah : view.ahead pos = sharedMark shared ++ keyword "constructor"
      :: (StepScript.listed params (parametersRendering parenthesised params) ++ .lineEnd
        :: (linesRendering parenthesised nodes ++ keyword "end" :: rest)) := by
    simpa using hah
  obtain ⟨first, hc, hf⟩ := matches_sharedFlag hv shared (by decide) hah
  obtain ⟨-, hp⟩ := View.ahead_cons hc
  obtain ⟨others, found, mid, hl, hep, hfn, hls⟩ := matches_parameterList hv list hp rfl
  obtain ⟨inner, last, he, hr, hb⟩ := matches_lines hv body hl
  have hk : view.ahead pos = (sharedMark shared ++ [keyword "constructor"]) ++ _ :=
    hah.trans (List.append_assoc _ [_] _).symm
  refine ⟨⟨.constructorDecl others ⟨.block inner, view.peek (mid + 1)⟩ shared, view.peek pos⟩,
    last, given_of_rule hv _ hk 4 rfl (by cases shared <;> rfl) (hf
      (matches_symbol rfl hc rfl (hls hb))) ?_, ?_, hr⟩
  · rcases hfn with rfl | ⟨rfl, rfl⟩ <;> cases shared <;> rfl
  · simp [he, hep]

theorem propertyDecl_given {initial : Option Node} (shared : Bool)
    (value : ∀ node ∈ initial, Expressible node) :
    StatementGiven ⟨.propertyDecl name initial shared, token⟩ := by
  intro view hv pos rest hah hf
  replace hah : view.ahead pos = sharedMark shared ++ keyword "property" :: identifier name
      :: (Phrase.rendering parenthesised (.clause [assign] initial) ++ rest) := by
    cases initial <;> simpa [Phrase.rendering] using hah
  obtain ⟨first, hp, hfl⟩ := matches_sharedFlag hv shared (by decide) hah
  obtain ⟨-, hn⟩ := View.ahead_cons hp
  obtain ⟨-, hi⟩ := View.ahead_cons hn
  have hab : fits (["="].map word) [rest.headD default] = false := by
    obtain ⟨symbol, more, rfl, hs⟩ := exists_of_follows hf
    rcases hs with rfl | ⟨rfl, -⟩ <;> rfl
  obtain ⟨other, next, hr, he, hc⟩ := matches_clause hv ["="] (by decide) value
    hi (stops_of_follows hf) (.inr hab)
  have hk : view.ahead pos = (sharedMark shared ++ [keyword "property"]) ++ _ :=
    hah.trans (List.append_assoc _ [_] _).symm
  refine ⟨⟨.propertyDecl name other shared, view.peek pos⟩, next,
    given_of_rule hv _ hk 5 rfl (by cases shared <;> rfl) (hfl
      (matches_symbol rfl hp rfl (matches_symbol rfl hn rfl (hc rfl)))) ?_, ?_, hr⟩
  · cases other <;> cases shared <;> rfl
  · cases other <;> cases initial <;> simp_all

theorem hasBehaviour_given (named : IsType name) : StatementGiven ⟨.hasBehaviour name, token⟩ := by
  intro view hv pos rest hah _
  replace hah : view.ahead pos = keyword "has" :: keyword "behaviour" :: .typeName name :: rest :=
    hah
  obtain ⟨-, hb⟩ := View.ahead_cons hah
  obtain ⟨-, hn⟩ := View.ahead_cons hb
  obtain ⟨-, hr⟩ := View.ahead_cons hn
  exact ⟨⟨.hasBehaviour name, view.peek pos⟩, _, given_of_rule hv [keyword "has"] hah 6 rfl rfl
    (matches_symbol rfl hah rfl (matches_symbol rfl hb rfl
      (matches_symbol rfl hn (acceptsSymbol_typeName named) rfl))) rfl, rfl, hr⟩

/-- Each contract has a rule of its own. -/
theorem contract_given (contract : Contract) (named : IsType name) :
    StatementGiven ⟨.contract contract name, token⟩ := by
  intro view hv pos rest hah _
  replace hah : view.ahead pos
      = keyword contract.text :: keyword "behaviour" :: .typeName name :: rest := hah
  obtain ⟨-, hb⟩ := View.ahead_cons hah
  obtain ⟨-, hn⟩ := View.ahead_cons hb
  obtain ⟨-, hr⟩ := View.ahead_cons hn
  have hm : Matches (entryAt view) (contractRule contract).entries pos []
      ([(.name, .text name)], pos + 3) :=
    matches_symbol (by cases contract <;> rfl) hah (by cases contract <;> rfl)
      (matches_symbol rfl hb rfl
        (matches_symbol rfl hn (acceptsSymbol_typeName named) rfl))
  refine ⟨⟨.contract contract name, view.peek pos⟩, pos + 3, ?_, rfl, hr⟩
  cases contract with
  | requires => exact given_of_rule hv [keyword "requires"] hah 7 rfl rfl hm rfl
  | supports => exact given_of_rule hv [keyword "supports"] hah 8 rfl rfl hm rfl
  | excludes => exact given_of_rule hv [keyword "excludes"] hah 9 rfl rfl hm rfl

theorem updateOrder_given (order : UpdateOrder) : StatementGiven ⟨.updateOrder order, token⟩ := by
  intro view hv pos rest hah _
  replace hah : view.ahead pos
      = identifier "update" :: identifier "order" :: identifier order.text :: rest := hah
  obtain ⟨-, ho⟩ := View.ahead_cons hah
  obtain ⟨-, hn⟩ := View.ahead_cons ho
  obtain ⟨-, hr⟩ := View.ahead_cons hn
  exact ⟨⟨.updateOrder order, view.peek pos⟩, _,
    given_of_rule hv [identifier "update"] hah 10 rfl rfl (matches_symbol rfl hah rfl
      (matches_symbol rfl ho rfl (matches_symbol rfl hn rfl rfl))) (by cases order <;> rfl),
    rfl, hr⟩

/-! ## Branches -/

/-- The condition of a branch and what stands in front of its first part. -/
theorem matches_test (hv : view.IsFile) (test : Expressible condition)
    (hah : view.ahead pos = keyword "if" :: (condition.canonical ++ keyword "then" :: rest)) :
    ∃ tested next, tested.erase = condition.erase ∧ view.ahead next = rest ∧
      ∀ {entries result}, Matches (entryAt view)
          (word "if" :: expression .condition :: word "then" :: entries) pos [] result ↔
        Matches (entryAt view) entries next [(.condition, .node tested)] result := by
  obtain ⟨-, hts⟩ := View.ahead_cons hah
  obtain ⟨tested, mid, hc, he, ht⟩ := test.ahead hts rfl
  obtain ⟨-, hn⟩ := View.ahead_cons ht
  refine ⟨tested, mid + 1, he, hn, fun {entries result} => ⟨fun h => ?_, fun h => ?_⟩⟩
  · obtain ⟨-, -, hex⟩ := h.takes rfl hah
    obtain ⟨-, -, hr⟩ := ((matches_expression_iff hv hc).mp hex).takes rfl ht
    exact hr
  · exact matches_symbol rfl hah rfl (matches_expression hv hc
      (matches_symbol rfl ht rfl h))

theorem branchBlock_given (test : Expressible condition) (body : LinesGiven nodes) :
    StatementGiven ⟨.branch condition ⟨.block nodes, start⟩ none, token⟩ := by
  intro view hv pos rest hah _
  replace hah : view.ahead pos = keyword "if" :: (condition.canonical ++ keyword "then"
      :: .lineEnd :: (linesRendering parenthesised nodes ++ keyword "end" :: rest)) := by
    simpa [Node.isBlock] using hah
  obtain ⟨tested, mid, het, hl, ho⟩ := matches_test hv test hah
  obtain ⟨-, hln⟩ := View.ahead_cons hl
  obtain ⟨others, last, hot, heb, hend⟩ := body.body hv ["else", "end"] hln (by decide) rfl
  obtain ⟨-, hr⟩ := View.ahead_cons hend
  refine ⟨⟨.branch tested ⟨.block others, view.peek (mid + 1)⟩ none, view.peek pos⟩, last + 1,
    given_of_rule hv [keyword "if"] hah 11 rfl rfl (ho.mpr
      (matches_symbol rfl hl rfl (matches_body hv hot (matches_absent hv rfl
        (fun inside next hi => ?_) (matches_symbol rfl hend rfl rfl))))) rfl, ?_, hr⟩
  · exact absurd (hi.takes rfl hend).1 (by decide)
  · simp [het, heb]

theorem branchBlockElse_given {others : List Node} (middle : Token) (test : Expressible condition)
    (body : LinesGiven nodes) (other : LinesGiven others) :
    StatementGiven ⟨.branch condition ⟨.block nodes, start⟩ (some ⟨.block others, middle⟩),
      token⟩ := by
  intro view hv pos rest hah _
  replace hah : view.ahead pos = keyword "if" :: (condition.canonical ++ keyword "then"
      :: .lineEnd :: (linesRendering parenthesised nodes ++ keyword "else" :: .lineEnd
        :: (linesRendering parenthesised others ++ keyword "end" :: rest))) := by
    simpa [Node.isBlock] using hah
  obtain ⟨tested, mid, het, hl, ho⟩ := matches_test hv test hah
  obtain ⟨-, hln⟩ := View.ahead_cons hl
  obtain ⟨inner, last, hi, heb, he⟩ := body.body hv ["else", "end"] hln (by decide) rfl
  obtain ⟨-, hle⟩ := View.ahead_cons he
  obtain ⟨-, hlie⟩ := View.ahead_cons hle
  obtain ⟨opposed, close, hop, heo, hend⟩ := other.body hv ["end"] hlie (by decide) rfl
  obtain ⟨-, hr⟩ := View.ahead_cons hend
  refine ⟨⟨.branch tested ⟨.block inner, view.peek (mid + 1)⟩
      (some ⟨.block opposed, view.peek (last + 2)⟩), view.peek pos⟩, close + 1,
    given_of_rule hv [keyword "if"] hah 11 rfl rfl (ho.mpr
      (matches_symbol rfl hl rfl (matches_body hv hi (matches_present hv rfl
        (matches_symbol rfl he rfl (matches_symbol rfl hle rfl
          (matches_body hv hop rfl))) (matches_symbol rfl hend rfl rfl))))) rfl, ?_, hr⟩
  simp [het, heb, heo]

/-- The rules in front of those for branches. -/
theorem fails_of_if (hv : view.IsFile) (hah : view.ahead pos = keyword "if" :: more) :
    ∀ rule ∈ statementRules.take 11, (matchRule view (entryAt view) rule pos).Fails := by
  have hf : ((statementRules.take 11).all fun rule => !fits rule.entries [keyword "if"])
      = true := rfl
  intro rule hr
  refine @matchRule_fails _ _ _ hv (List.mem_of_mem_take hr) [keyword "if"] more hah ?_
  simpa using List.all_eq_true.mp hf rule hr

theorem danglesNode_of_isBlockBranch (h : isBlockBranch node = true) :
    danglesNode node = false := by
  obtain ⟨kind, token⟩ := node
  cases kind
  case branch condition thenBranch elseBranch =>
    obtain ⟨first, start⟩ := thenBranch
    cases first <;> first | rfl | cases h
  all_goals cases h

theorem isBlockBranch_erase (node : Node) : isBlockBranch node.erase = isBlockBranch node := by
  unfold isBlockBranch
  rw [Node.kind_erase]
  cases node.kind
  case branch condition thenBranch elseBranch =>
    rw [NodeKind.erase_branch]
    exact thenBranch.isBlock_erase
  all_goals first | rfl | simp [-NodeKind.erase]

theorem branchChain_given {nested : Node} {opposed : List Symbol}
    (chained : isBlockBranch nested = true) (test : Expressible condition)
    (body : LinesGiven nodes) (reads : Reads (.statement nested) opposed)
    (other : StatementGiven nested) :
    StatementGiven ⟨.branch condition ⟨.block nodes, start⟩ (some nested), token⟩ := by
  intro view hv pos rest hah hf
  rw [Node.canonical, rendering_chain (isBlock_of_isBlockBranch chained)] at hah
  replace hah : view.ahead pos = keyword "if" :: (condition.canonical ++ keyword "then"
      :: .lineEnd :: (linesRendering parenthesised nodes ++ keyword "else"
        :: (nested.canonical ++ rest))) := by
    simpa using hah
  obtain ⟨tested, mid, het, hl, ho⟩ := matches_test hv test hah
  obtain ⟨-, hln⟩ := View.ahead_cons hl
  obtain ⟨inner, last, hin, heb, he⟩ := body.body hv ["else", "end"] hln (by decide) rfl
  obtain ⟨-, hn⟩ := View.ahead_cons he
  have hfn : follows nested rest = true :=
    follows_of_follows hf fun _ => danglesNode_of_isBlockBranch chained
  obtain ⟨found, next, hfd, heo, hr⟩ := other hv hn hfn
  have hc : isBlockBranch found = true := by
    rw [← isBlockBranch_erase, heo, isBlockBranch_erase, chained]
  obtain ⟨symbol, tail, hh, hs⟩ := reads.rendering.exists_head
  have hsy := hn.trans (congrArg (· ++ rest) hh)
  -- a block behind `else` would start a line of its own
  have hb : (matchRule view (entryAt view) branchBlockRule pos).Fails := by
    rintro ⟨node, stop⟩ hm
    obtain ⟨captures, hmt, -⟩ := matchRule_ok_iff.mp hm
    obtain ⟨-, -, hbd⟩ := (ho.mp hmt).takes rfl hl
    rcases Matches.optional hv ((matches_body_iff hv hin).mp hbd) rfl with
      ⟨inside, after, hi, -⟩ | ⟨-, hend⟩
    · obtain ⟨-, -, hi⟩ := hi.takes rfl he
      have hk := (hi.takes rfl hsy).1
      exact (startsStatement_kind hs).1 (by simpa [Entry.acceptsSymbol] using hk)
    · exact absurd (hend.takes rfl he).1 (by decide)
  have hrl : statementRules.take 12 = statementRules.take 11 ++ [branchBlockRule] := rfl
  refine ⟨⟨.branch tested ⟨.block inner, view.peek (mid + 1)⟩ (some found), view.peek pos⟩, next,
    statementAt_of_fails 12 rfl ?_ (matchRule_ok_iff.mpr ⟨_, ho.mpr (matches_symbol rfl hl
      rfl (matches_body hv hin (matches_symbol rfl he rfl
        (matches_statement hv hfd rfl)))), if_pos hc⟩), ?_, hr⟩
  · rw [hrl, List.forall_mem_append, List.forall_mem_singleton]
    exact ⟨fails_of_if hv hah, hb⟩
  · simp [het, heb, heo]

/-- Neither of the rules for branches with blocks matches a branch in one line. -/
theorem fails_of_line (hv : view.IsFile) (test : Expressible condition)
    (hah : view.ahead pos
      = keyword "if" :: (condition.canonical ++ keyword "then" :: symbol :: more))
    (hs : symbol.kind ≠ .endOfLine) :
    ∀ rule ∈ statementRules.take 13, (matchRule view (entryAt view) rule pos).Fails := by
  obtain ⟨tested, mid, -, hn, ho⟩ := matches_test hv test hah
  have hr : statementRules.take 13
      = statementRules.take 11 ++ [branchBlockRule, branchChainRule] := rfl
  have hb : ∀ {entries result}, ¬ Matches (entryAt view)
      (word "if" :: expression .condition :: word "then" :: lineEnd :: entries) pos [] result := by
    intro entries result hm
    have hk := ((ho.mp hm).takes rfl hn).1
    exact hs (by simpa [Entry.acceptsSymbol] using hk)
  rw [hr, List.forall_mem_append]
  refine ⟨fails_of_if hv hah, ?_⟩
  simp only [List.forall_mem_cons, List.not_mem_nil, false_implies, implies_true, and_true]
  constructor
  all_goals
    rintro ⟨node, stop⟩ hmt
    obtain ⟨captures, hm, -⟩ := matchRule_ok_iff.mp hmt
    exact hb hm

theorem danglesNode_line (h : thenBranch.isBlock = false) :
    danglesNode ⟨.branch condition thenBranch none, token⟩ = true := by
  obtain ⟨kind, first⟩ := thenBranch
  cases kind <;> first | rfl | cases h

theorem danglesNode_lineElse (h : thenBranch.isBlock = false) (elseBranch : Node) :
    danglesNode ⟨.branch condition thenBranch (some elseBranch), token⟩
      = danglesNode elseBranch := by
  obtain ⟨kind, first⟩ := thenBranch
  cases kind <;> first | rfl | cases h

theorem branchLine_given (test : Expressible condition) (reads : Reads (.statement thenBranch) list)
    (body : StatementGiven thenBranch) :
    StatementGiven ⟨.branch condition thenBranch none, token⟩ := by
  intro view hv pos rest hah hfl
  have hb : thenBranch.isBlock = false := reads.isBlock_eq_false
  rw [Node.canonical, rendering_line hb] at hah
  replace hah : view.ahead pos = keyword "if" :: (condition.canonical ++ keyword "then"
      :: (thenBranch.canonical ++ rest)) := by
    simpa using hah
  -- an `else` behind the branch would belong to it
  obtain ⟨more, rfl⟩ : ∃ more, rest = .lineEnd :: more := by
    obtain ⟨symbol, more, rfl, hsy⟩ := exists_of_follows hfl
    rcases hsy with rfl | ⟨-, hd⟩
    · exact ⟨more, rfl⟩
    · rw [danglesNode_line token hb] at hd
      cases hd
  obtain ⟨symbol, tail, hh, hs⟩ := reads.rendering.exists_head
  have hf : view.ahead pos = keyword "if" :: (condition.canonical ++ keyword "then"
      :: symbol :: (tail ++ .lineEnd :: more)) := by
    rw [hah, show thenBranch.canonical = symbol :: tail from hh, List.cons_append]
  obtain ⟨tested, mid, het, hbd, ho⟩ := matches_test hv test hah
  obtain ⟨found, next, hfn, heb, hr⟩ := body hv hbd rfl
  refine ⟨⟨.branch tested found none, view.peek pos⟩, next, statementAt_of_fails 13 rfl
    (fails_of_line hv test hf (startsStatement_kind hs).1) (matchRule_ok_iff.mpr ⟨_,
      ho.mpr (matches_statement hv hfn (matches_absent hv rfl
        (fun inside stop hi => ?_) rfl)), rfl⟩), ?_, hr⟩
  · exact absurd (hi.takes rfl hr).1 (by decide)
  · simp [het, heb]

theorem branchLineElse_given {thenBranch elseBranch : Node}
    (closed : danglesNode thenBranch = false) (test : Expressible condition)
    (reads : Reads (.statement thenBranch) list) (body : StatementGiven thenBranch)
    (other : StatementGiven elseBranch) :
    StatementGiven ⟨.branch condition thenBranch (some elseBranch), token⟩ := by
  intro view hv pos rest hah hfl
  have hb : thenBranch.isBlock = false := reads.isBlock_eq_false
  rw [Node.canonical, rendering_lineElse hb] at hah
  replace hah : view.ahead pos = keyword "if" :: (condition.canonical ++ keyword "then"
      :: (thenBranch.canonical ++ keyword "else" :: (elseBranch.canonical ++ rest))) := by
    simpa using hah
  obtain ⟨symbol, tail, hh, hs⟩ := reads.rendering.exists_head
  have hf : view.ahead pos = keyword "if" :: (condition.canonical ++ keyword "then"
      :: symbol :: (tail ++ keyword "else" :: (elseBranch.canonical ++ rest))) := by
    rw [hah, show thenBranch.canonical = symbol :: tail from hh, List.cons_append]
  obtain ⟨tested, mid, het, hbd, ho⟩ := matches_test hv test hah
  obtain ⟨found, stop, hfn, heb, he⟩ := body hv hbd (by simp [follows, closed])
  obtain ⟨-, hot⟩ := View.ahead_cons he
  obtain ⟨opposed, next, hop, heo, hr⟩ := other hv hot
    (follows_of_follows hfl fun h => by rwa [danglesNode_lineElse token hb] at h)
  refine ⟨⟨.branch tested found (some opposed), view.peek pos⟩, next, statementAt_of_fails 13 rfl
    (fails_of_line hv test hf (startsStatement_kind hs).1) (matchRule_ok_iff.mpr ⟨_,
      ho.mpr (matches_statement hv hfn (matches_present hv rfl
        (matches_symbol rfl he rfl (matches_statement hv hop rfl)) rfl)), rfl⟩), ?_, hr⟩
  simp [het, heb, heo]

/-! ## Loops and jumps -/

theorem whileLoop_given (test : Expressible condition) (body : LinesGiven nodes) :
    StatementGiven ⟨.whileLoop condition ⟨.block nodes, start⟩, token⟩ := by
  intro view hv pos rest hah _
  replace hah : view.ahead pos = keyword "while" :: (condition.canonical ++ keyword "do"
      :: .lineEnd :: (linesRendering parenthesised nodes ++ keyword "end" :: rest)) := by
    simpa using hah
  obtain ⟨-, ht⟩ := View.ahead_cons hah
  obtain ⟨tested, mid, hc, het, hdo⟩ := test.ahead ht rfl
  obtain ⟨-, hl⟩ := View.ahead_cons hdo
  obtain ⟨others, last, heb, hr, hb⟩ := matches_lines hv body hl
  refine ⟨_, last, given_of_rule hv [keyword "while"] hah 14 rfl rfl (matches_symbol rfl hah rfl
    (matches_expression hv hc (matches_symbol rfl hdo rfl hb))) rfl, ?_, hr⟩
  simp [het, heb]

theorem repeatLoop_given (body : LinesGiven nodes) (test : Expressible condition) :
    StatementGiven ⟨.repeatLoop ⟨.block nodes, start⟩ condition, token⟩ := by
  intro view hv pos rest hah hf
  replace hah : view.ahead pos = keyword "repeat" :: .lineEnd
      :: (linesRendering parenthesised nodes ++ keyword "until" :: (condition.canonical ++ rest)) := by
    simpa using hah
  obtain ⟨-, hl⟩ := View.ahead_cons hah
  obtain ⟨-, hln⟩ := View.ahead_cons hl
  obtain ⟨others, last, ho, heb, hu⟩ := body.body hv ["until"] hln (by decide) rfl
  obtain ⟨-, ht⟩ := View.ahead_cons hu
  obtain ⟨tested, next, hc, het, hr⟩ := test.ahead ht (stops_of_follows hf)
  refine ⟨_, next, given_of_rule hv [keyword "repeat"] hah 15 rfl rfl
    (matches_symbol rfl hah rfl (matches_symbol rfl hl rfl (matches_body hv ho
      (matches_symbol rfl hu rfl (matches_expression hv hc rfl))))) rfl, ?_, hr⟩
  simp [het, heb]

theorem forLoop_given {first last : Node} {step : Option Node} (begins : Expressible first)
    (ends : Expressible last) (steps : ∀ node ∈ step, Expressible node)
    (body : LinesGiven nodes) :
    StatementGiven ⟨.forLoop name first last step ⟨.block nodes, start⟩, token⟩ := by
  intro view hv pos rest hah _
  replace hah : view.ahead pos = keyword "for" :: identifier name :: keyword "from"
      :: (first.canonical ++ keyword "to" :: (last.canonical ++
        (Phrase.rendering parenthesised (.clause [keyword "step", keyword "by"] step)
          ++ keyword "do" :: .lineEnd
            :: (linesRendering parenthesised nodes ++ keyword "end" :: rest)))) := by
    cases step <;> simpa [Phrase.rendering] using hah
  obtain ⟨-, hn⟩ := View.ahead_cons hah
  obtain ⟨-, hf⟩ := View.ahead_cons hn
  obtain ⟨-, hfr⟩ := View.ahead_cons hf
  obtain ⟨begun, mid, hb, hef, hto⟩ := begins.ahead hfr rfl
  obtain ⟨-, hls⟩ := View.ahead_cons hto
  obtain ⟨ended, stop, he, hel, hs⟩ := ends.ahead hls (by cases step <;> rfl)
  obtain ⟨stepped, after, hdo, hes, hc⟩ := matches_clause hv ["step", "by"]
    (by decide) steps hs rfl (.inr rfl)
  obtain ⟨-, hl⟩ := View.ahead_cons hdo
  obtain ⟨others, close, heb, hr, hbd⟩ := matches_lines hv body hl
  refine ⟨⟨.forLoop name begun ended stepped ⟨.block others, view.peek (after + 2)⟩, view.peek pos⟩,
    close, given_of_rule hv [keyword "for"] hah 16 rfl rfl (matches_symbol rfl hah rfl
      (matches_symbol rfl hn rfl (matches_symbol rfl hf rfl (matches_expression hv hb
        (matches_symbol rfl hto rfl (matches_expression hv he (hc
          (matches_symbol rfl hdo rfl hbd)))))))) ?_, ?_, hr⟩
  · cases stepped <;> rfl
  · cases stepped <;> cases step <;> simp_all

theorem giveBack_given {value : Option Node} (given : ∀ node ∈ value, Expressible node) :
    StatementGiven ⟨.giveBack value, token⟩ := by
  intro view hv pos rest hah hf
  replace hah : view.ahead pos = keyword "return"
      :: (Phrase.rendering parenthesised (.clause [] value) ++ rest) := by
    cases value <;> simpa [Phrase.rendering] using hah
  obtain ⟨-, hvl⟩ := View.ahead_cons hah
  obtain ⟨other, next, hr, he, hc⟩ := matches_clause hv [] (by decide) given
    hvl (stops_of_follows hf) (.inl rfl)
  refine ⟨⟨.giveBack other, view.peek pos⟩, next, given_of_rule hv [keyword "return"] hah 17
    rfl rfl (matches_symbol rfl hah rfl (hc rfl)) ?_, ?_, hr⟩
  · cases other <;> rfl
  · cases other <;> cases value <;> simp_all

theorem breakLoop_given : StatementGiven ⟨.breakLoop, token⟩ := by
  intro view hv pos rest hah _
  replace hah : view.ahead pos = keyword "break" :: rest := hah
  obtain ⟨-, hr⟩ := View.ahead_cons hah
  exact ⟨⟨.breakLoop, view.peek pos⟩, pos + 1, given_of_rule hv [keyword "break"] hah 18 rfl rfl
    (matches_symbol rfl hah rfl rfl) rfl, rfl, hr⟩

theorem continueLoop_given : StatementGiven ⟨.continueLoop, token⟩ := by
  intro view hv pos rest hah _
  replace hah : view.ahead pos = keyword "continue" :: rest := hah
  obtain ⟨-, hr⟩ := View.ahead_cons hah
  exact ⟨⟨.continueLoop, view.peek pos⟩, pos + 1, given_of_rule hv [keyword "continue"] hah 19
    rfl rfl (matches_symbol rfl hah rfl rfl) rfl, rfl, hr⟩

theorem waitForUpdate_given : StatementGiven ⟨.waitForUpdate, token⟩ := by
  intro view hv pos rest hah _
  replace hah : view.ahead pos
      = keyword "wait" :: keyword "for" :: identifier "update" :: rest := hah
  obtain ⟨-, hfor⟩ := View.ahead_cons hah
  obtain ⟨-, hu⟩ := View.ahead_cons hfor
  obtain ⟨-, hr⟩ := View.ahead_cons hu
  exact ⟨⟨.waitForUpdate, view.peek pos⟩, pos + 3, given_of_rule hv [keyword "wait"] hah 20 rfl
    rfl (matches_symbol rfl hah rfl (matches_symbol rfl hfor rfl
      (matches_symbol rfl hu rfl rfl))) rfl, rfl, hr⟩

/-! ## Expressions as statements -/

/-- The text is a keyword that no expression starts with. -/
def leadsStatement (text : String) : Bool := TokenKind.keywords.contains text && text != "new"

/-- The entries start with a word that no expression starts with. -/
def opensWithKeyword : List Match → Bool
  | (_, .optional [(_, .word text)]) :: rest => leadsStatement text && opensWithKeyword rest
  | (_, .word text) :: _ => leadsStatement text
  | _ => false

theorem acceptsSymbol_of_leadsStatement (hl : symbol.Lexical)
    (hs : startsExpression symbol = true) {text : String} (h : leadsStatement text = true) :
    (Entry.word text).consumes = true ∧ Entry.acceptsSymbol (.word text) symbol = false := by
  simp only [leadsStatement, Bool.and_eq_true, List.contains_iff_mem, bne_iff_ne] at h
  obtain ⟨hk, hnew⟩ := h
  have hne : text ≠ "" := by
    rintro rfl
    revert hk
    decide
  refine ⟨by simpa [Entry.consumes] using hne, Bool.eq_false_iff.mpr fun hac => hnew ?_⟩
  rw [eq_word_of_acceptsSymbol hl hne hac, Symbol.word, classify_keyword text hk]
    at hs
  simpa [startsExpression] using hs

theorem fits_of_opensWithKeyword (hl : symbol.Lexical)
    (hs : startsExpression symbol = true) {entries : List Match}
    (h : opensWithKeyword entries = true) : fits entries [symbol] = false := by
  fun_induction opensWithKeyword entries with
  | case1 slot inner text rest ih =>
    rw [Bool.and_eq_true] at h
    obtain ⟨hc, hac⟩ := acceptsSymbol_of_leadsStatement hl hs h.1
    simp [fits, hc, hac, ih h.2]
  | case2 slot text rest =>
    obtain ⟨hc, hac⟩ := acceptsSymbol_of_leadsStatement hl hs h
    simp [fits, hc, hac]
  | case3 => cases h

/-- Behind a name that an expression starts with stands no further name. -/
theorem Reads.second_ne_identifier {phrase : Phrase} (h : Reads phrase list)
    (hp : phrase.isOutside = true) (hr : ∀ symbol ∈ rest.head?, symbol.kind ≠ .identifier)
    {first second : Symbol} {tail : List Symbol} (hl : list ++ rest = first :: second :: tail)
    (hf : first.kind = .identifier) : second.kind ≠ .identifier := by
  induction h generalizing rest with
  | leaf =>
    obtain ⟨rfl, rfl⟩ := List.cons.inj hl
    exact hr second rfl
  | group =>
    obtain ⟨rfl, -⟩ := List.cons.inj hl
    cases hf
  | @unary op =>
    obtain ⟨rfl, -⟩ := List.cons.inj hl
    cases op <;> cases hf
  | @binary op _ _ _ _ symbol _ _ operator _ _ ih =>
    rw [List.append_assoc] at hl
    refine ih rfl (fun other ho => ?_) hl
    obtain rfl : symbol = other := Option.some.inj ho
    rw [← Symbol.canonical_kind, operator]
    cases op <;> simp [BinaryOp.symbol, BinaryOp.kind]
  | member _ _ _ _ ih =>
    rw [List.append_assoc] at hl
    refine ih rfl (fun other ho => ?_) hl
    obtain rfl : dot = other := Option.some.inj ho
    simp
  | call =>
    obtain ⟨-, ht⟩ := List.cons.inj hl
    obtain ⟨rfl, -⟩ := List.cons.inj ht
    simp
  | create | createWith =>
    obtain ⟨rfl, -⟩ := List.cons.inj hl
    cases hf
  | _ => cases hp

/-- The order of updates is declared with three names. -/
theorem updateOrderRule_fails (hv : view.IsFile) (reads : Reads (.expression node) list)
    {after : Symbol} (hah : view.ahead pos = list ++ after :: rest)
    (haf : after.kind ≠ .identifier) :
    (matchRule view (entryAt view) updateOrderRule pos).Fails := by
  rintro ⟨found, stop⟩ hmt
  obtain ⟨captures, hm, -⟩ := matchRule_ok_iff.mp hmt
  obtain ⟨first, tail, rfl, -⟩ := reads.exists_start rfl
  obtain ⟨second, others, ho⟩ : ∃ second others, tail ++ after :: rest = second :: others := by
    cases tail <;> exact ⟨_, _, rfl⟩
  obtain ⟨hf, hl, hm⟩ := hm.takes rfl hah
  obtain ⟨hs, -, -⟩ := hm.takes rfl (hl.trans ho)
  have hu := eq_word_of_acceptsSymbol (hv.lexical_of_ahead hah) (by decide) hf
  have hor := eq_word_of_acceptsSymbol (hv.lexical_of_ahead (hl.trans ho)) (by decide) hs
  refine reads.second_ne_identifier rfl ?_ (congrArg (first :: ·) ho) ?_ ?_
  · intro symbol hsy
    obtain rfl := Option.some.inj hsy
    exact haf
  · rw [hu, word_update, Symbol.kind_identifier]
  · rw [hor, word_order, Symbol.kind_identifier]

/-- No rule for another statement matches an expression. -/
theorem fails_of_expression (hv : view.IsFile) (reads : Reads (.expression node) list)
    {after : Symbol} (hah : view.ahead pos = list ++ after :: rest)
    (haf : after.kind ≠ .identifier) :
    ∀ rule ∈ statementRules.take 21, (matchRule view (entryAt view) rule pos).Fails := by
  have hrl : statementRules.take 21
      = statementRules.take 10 ++ updateOrderRule :: (statementRules.drop 11).take 10 := rfl
  have ho : ((statementRules.take 10 ++ (statementRules.drop 11).take 10).all fun rule =>
      opensWithKeyword rule.entries) = true := rfl
  have hu := updateOrderRule_fails hv reads hah haf
  obtain ⟨symbol, tail, rfl, hs⟩ := reads.exists_start rfl
  have hf : ∀ rule ∈ statementRules, opensWithKeyword rule.entries = true →
      (matchRule view (entryAt view) rule pos).Fails := fun rule hr hrs =>
    @matchRule_fails _ _ _ hv hr [symbol] _ hah
      (fits_of_opensWithKeyword (hv.lexical_of_ahead hah) hs hrs)
  rw [List.all_append, Bool.and_eq_true, List.all_eq_true, List.all_eq_true] at ho
  rw [hrl, List.forall_mem_append, List.forall_mem_cons]
  refine ⟨fun rule hr => hf rule (List.mem_of_mem_take hr) (ho.1 rule hr), hu,
    fun rule hr => hf rule ?_ (ho.2 rule hr)⟩
  exact List.mem_of_mem_drop (List.mem_of_mem_take hr)

theorem isAssignable_erase (node : Node) : isAssignable node.erase = isAssignable node := by
  unfold isAssignable
  rw [Node.kind_erase]
  cases node.kind
  case member target member =>
    simp only [NodeKind.erase, Node.kind_erase]
    cases member.kind <;> first | rfl | simp [-NodeKind.erase]
  all_goals first | rfl | simp [-NodeKind.erase]

theorem assign_given {target value : Node} {left : List Symbol} (fits : isAssignable target = true)
    (reads : Reads (.expression target) left) (first : Expressible target)
    (second : Expressible value) : StatementGiven ⟨.assign target value, token⟩ := by
  intro view hv pos rest hah hfl
  replace hah : view.ahead pos = target.canonical ++ assign :: (value.canonical ++ rest) := by
    simpa using hah
  obtain ⟨assigned, mid, hag, het, has⟩ := first.ahead hah rfl
  obtain ⟨-, hvl⟩ := View.ahead_cons has
  obtain ⟨given, next, hg, hev, hr⟩ := second.ahead hvl (stops_of_follows hfl)
  have hf : isAssignable assigned = true := by
    rw [← isAssignable_erase, het, isAssignable_erase, fits]
  refine ⟨⟨.assign assigned given, view.peek pos⟩, next, statementAt_of_fails 21 rfl
    (fails_of_expression hv reads.rendering hah (by simp)) (matchRule_ok_iff.mpr ⟨_,
      matches_expression hv hag (matches_symbol rfl has rfl
        (matches_expression hv hg rfl)), if_pos hf⟩), ?_, hr⟩
  simp [het, hev]

theorem evaluate_given (reads : Reads (.expression node) list) (inner : Expressible node) :
    StatementGiven node := by
  intro view hv pos rest hah hf
  obtain ⟨other, next, ho, he, hr⟩ := inner.ahead hah (stops_of_follows hf)
  obtain ⟨after, more, rfl, haf⟩ := exists_of_follows hf
  have hk : after.kind ≠ .identifier ∧ after.kind ≠ .assign := by
    rcases haf with rfl | ⟨rfl, -⟩ <;> simp
  -- nothing is assigned to the expression
  have has : (matchRule view (entryAt view) assignmentRule pos).Fails := by
    rintro ⟨found, stop⟩ hm
    obtain ⟨captures, hmt, -⟩ := matchRule_ok_iff.mp hm
    have hac := (((matches_expression_iff hv ho).mp hmt).takes rfl hr).1
    exact hk.2 (by simpa [Entry.acceptsSymbol] using hac)
  have hrl : statementRules.take 22 = statementRules.take 21 ++ [assignmentRule] := rfl
  refine ⟨other, next, statementAt_of_fails 22 rfl ?_ (matchRule_ok_iff.mpr ⟨_,
    matches_expression hv ho rfl, rfl⟩), he, hr⟩
  rw [hrl, List.forall_mem_append, List.forall_mem_singleton]
  exact ⟨fails_of_expression hv reads.rendering hah hk.1, has⟩

end Forms

/-! ## All forms -/

/-- Where the rendered phrase is ahead, its statements are parsed. -/
def Phrase.Given : Phrase → Prop
  | .statement node => StatementGiven node
  | .lines nodes => LinesGiven nodes
  | _ => True

theorem Reads.expressible_clause {lead list : List Symbol} {node : Option Node}
    (h : Reads (.clause lead node) list) : ∀ value ∈ node, Expressible value := by
  intro value hv
  cases h with
  | noClause => cases hv
  | someClause inner =>
    obtain rfl := Option.some.inj hv
    exact inner.expressible_self

/-- Whatever can be read is parsed again from its rendering. -/
theorem Reads.given {phrase : Phrase} (h : Reads phrase list) : phrase.Given := by
  induction h with
  | classDecl token start named extending _ ih =>
    exact classDecl_given token start named extending ih
  | behaviourDecl token start named _ ih => exact behaviourDecl_given token start named ih
  | functionDecl shared token start _ list _ _ ih =>
    exact functionDecl_given token start shared list ih
  | nativeDecl shared token _ list => exact nativeDecl_given token shared list
  | constructorDecl shared token start list _ _ ih =>
    exact constructorDecl_given token start shared list ih
  | propertyDecl shared token _ inner =>
    exact propertyDecl_given token shared inner.expressible_clause
  | hasBehaviour token named => exact hasBehaviour_given token named
  | contract contract token named => exact contract_given token contract named
  | updateOrder order token => exact updateOrder_given token order
  | branchBlock token start test _ _ ih =>
    exact branchBlock_given token start test.expressible_self ih
  | branchBlockElse token start middle test _ _ _ ihBody ihOther =>
    exact branchBlockElse_given token start middle test.expressible_self ihBody ihOther
  | branchChain token start chained test _ other _ ihBody ihOther =>
    exact branchChain_given token start chained test.expressible_self ihBody other ihOther
  | branchLine token test body _ ih => exact branchLine_given token test.expressible_self body ih
  | branchLineElse token closed test body _ _ ihBody ihOther =>
    exact branchLineElse_given token closed test.expressible_self body ihBody ihOther
  | whileLoop token start test _ _ ih => exact whileLoop_given token start test.expressible_self ih
  | repeatLoop token start _ test ih => exact repeatLoop_given token start ih test.expressible_self
  | forLoop token start _ begins ends steps _ _ _ _ ih =>
    exact forLoop_given token start begins.expressible_self ends.expressible_self
      steps.expressible_clause ih
  | giveBack token inner => exact giveBack_given token inner.expressible_clause
  | breakLoop token => exact breakLoop_given token
  | continueLoop token => exact continueLoop_given token
  | waitForUpdate token => exact waitForUpdate_given token
  | assign token fits first second =>
    exact assign_given token fits first first.expressible_self second.expressible_self
  | evaluate inner => exact evaluate_given inner inner.expressible_self
  | noLines => exact linesGiven_nil
  | blankLine _ ih => exact ih
  | line head _ ihHead ihTail => exact linesGiven_cons head ihHead ihTail
  | _ => trivial

end StepScript.Grammar
