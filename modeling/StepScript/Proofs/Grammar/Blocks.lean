import StepScript.Proofs.Grammar.Ahead
set_option autoImplicit false

/-!
# Rendered parameters and blocks are parsed

Where the rendering of parameters is ahead, they are parsed, and where the rendering of lines is
ahead, their statements are, provided that each of them is (`linesGiven_cons`).  Behind a
statement stands the end of its line, or an `else` that cannot belong to it (`follows`).
-/

namespace StepScript.Grammar

variable {list rest : List Symbol} {node : Node} {symbol : Symbol} {text : String}

open Symbol (keyword identifier leftParen rightParen comma assign dot fileEnd)

theorem Reads.expressible_self (h : Reads (.expression node) list) : Expressible node :=
  h.expressible node (List.mem_singleton_self _)

/-! ## Parameters -/

/-- The parameters of a phrase. -/
def Phrase.params : Phrase → List Parameter
  | .parameter param => [param]
  | .parameters params | .parameterList params => params
  | _ => []

section Parameters

variable {view : View} {pos : Nat}

/-- The symbol stands behind a parameter. -/
def separates (symbol : Symbol) : Bool := symbol.kind == .comma || symbol.kind == .rightParen

theorem stops_of_separates (h : separates symbol = true) (rest : List Symbol) :
    stops (symbol :: rest) = true := by
  simp only [separates, Bool.or_eq_true, beq_iff_eq] at h
  rcases h with hk | hk <;> simp [stops, endsExpression, hk]

/-- The initial value of a parameter, if it has one. -/
theorem initialAt_complete {param : Parameter} (h : ∀ node ∈ param.initial, Expressible node)
    (hs : separates symbol = true)
    (hah : view.ahead pos = param.rendering parenthesised ++ symbol :: rest) :
    (view.peek pos).symbol = identifier param.name ∧ ∃ initial next,
      (initialAt view (expressionAt view (headedRun entryAt)) (pos + 1)).outcome
        = .ok (initial, next) ∧ view.ahead next = symbol :: rest ∧
      eraseParameters [⟨param.name, initial⟩] = eraseParameters [param] := by
  obtain ⟨name, initial⟩ := param
  cases initial with
  | none =>
    obtain ⟨hn, hl⟩ := View.ahead_cons hah
    refine ⟨hn, none, pos + 1, ?_, hl, rfl⟩
    obtain ⟨hp, -⟩ := View.ahead_cons hl
    have hk : (view.peek (pos + 1)).kind ≠ .assign := by
      rw [← Token.symbol_kind, hp]
      intro hk
      simp [separates, hk] at hs
    rw [initialAt, if_neg hk]
    rfl
  | some node =>
    obtain ⟨hn, hl⟩ := View.ahead_cons hah
    obtain ⟨has, hv⟩ := View.ahead_cons hl
    have hk : (view.peek (pos + 1)).kind = .assign := congrArg Symbol.kind has
    obtain ⟨other, next, ho, he, hnx⟩ := (h node rfl).ahead hv (stops_of_separates hs rest)
    refine ⟨hn, some other, next, ?_, hnx, ?_⟩
    · rw [initialAt, if_pos hk]
      exact Attempt.outcome_bind_of_ok ho
    · simp [eraseParameters, he]

theorem eraseParameters_cons (param : Parameter) (params : List Parameter) :
    eraseParameters (param :: params) = eraseParameters [param] ++ eraseParameters params := by
  obtain ⟨name, initial⟩ := param
  cases initial <;> rfl

theorem parameterNameAt_complete {found : List Parameter} {name : String}
    (hp : (view.peek pos).symbol = identifier name) (hnew : name ∉ found.map (·.name)) :
    (parameterNameAt view found pos).outcome = .ok name := by
  have hk : (view.peek pos).kind = .identifier := congrArg Symbol.kind hp
  have ht : (view.peek pos).text = name := congrArg Symbol.text hp
  have hany : (found.any fun param => param.name == name) = false := by
    rw [List.any_eq_false]
    intro param hpr hn
    exact hnew (List.mem_map.mpr ⟨param, hpr, beq_iff_eq.mp hn⟩)
  unfold parameterNameAt
  simp [hk, ht, hany]

/-- Rendered parameters with commas between them. -/
theorem parametersFrom_complete {params : List Parameter}
    (hp : ∀ param ∈ params, ∀ node ∈ param.initial, Expressible node) (hne : params ≠ [])
    (hah : view.ahead pos = parametersRendering parenthesised params ++ rightParen :: rest)
    {found : List Parameter} (hd : ((found.reverse ++ params).map (·.name)).Nodup)
    {rounds : Nat} (hr : (parametersRendering parenthesised params).length < rounds) :
    ∃ others next,
      (parametersFrom view (expressionAt view (headedRun entryAt)) rounds pos found).outcome
        = .ok (found.reverse ++ others, next) ∧ view.ahead next = rightParen :: rest ∧
      eraseParameters others = eraseParameters params := by
  induction params generalizing pos rounds found with
  | nil => exact absurd rfl hne
  | cons param params ih =>
    rw [List.forall_mem_cons] at hp
    obtain ⟨rounds, rfl⟩ : ∃ less, rounds = less + 1 := ⟨rounds - 1, by omega⟩
    have hnew : param.name ∉ found.map (·.name) := by
      rw [List.map_append, List.map_reverse, List.nodup_append] at hd
      exact fun hmem => hd.2.2 _ (List.mem_reverse.mpr hmem) _ (by simp) rfl
    cases params with
    | nil =>
      obtain ⟨hnm, initial, next, hi, hn, he⟩ := initialAt_complete hp.1 rfl hah
      have hc : (view.peek next).kind = .rightParen := congrArg Symbol.kind (View.ahead_cons hn).1
      refine ⟨[⟨param.name, initial⟩], next, ?_, hn, he⟩
      rw [parametersFrom, Attempt.outcome_bind_of_ok (parameterNameAt_complete hnm hnew),
        Attempt.outcome_bind_of_ok hi]
      simp [hc]
    | cons second params =>
      replace hah := hah.trans (List.append_assoc _ (comma :: _) _)
      obtain ⟨hnm, initial, next, hi, hn, he⟩ := initialAt_complete hp.1 rfl hah
      obtain ⟨hpk, hlt⟩ := View.ahead_cons hn
      have hcm : (view.peek next).kind = .comma := congrArg Symbol.kind hpk
      have hd : (((⟨param.name, initial⟩ :: found).reverse ++ second :: params).map
          (fun other : Parameter => other.name)).Nodup := by simpa using hd
      have hr : (parametersRendering parenthesised (second :: params)).length < rounds := by
        have hln : (parametersRendering parenthesised (param :: second :: params)).length
            = (param.rendering parenthesised).length
              + ((parametersRendering parenthesised (second :: params)).length + 1) :=
          List.length_append
        omega
      obtain ⟨others, last, ho, hl, heo⟩ := ih hp.2 (by simp) hlt hd hr
      refine ⟨⟨param.name, initial⟩ :: others, last, ?_, hl, ?_⟩
      · rw [parametersFrom, Attempt.outcome_bind_of_ok (parameterNameAt_complete hnm hnew),
          Attempt.outcome_bind_of_ok hi]
        simp only [hcm, if_true]
        rw [ho, List.reverse_cons, List.append_assoc, List.singleton_append]
      · rw [eraseParameters_cons, he, heo, ← eraseParameters_cons]

/-- The initial values of rendered parameters are expressions. -/
theorem Reads.expressible_initial {phrase : Phrase} (h : Reads phrase list) :
    ∀ param ∈ phrase.params, ∀ node ∈ param.initial, Expressible node := by
  induction h with
  | @parameter name initial _ _ inner ih =>
    rw [Phrase.params, List.forall_mem_singleton]
    rintro node hn
    cases inner with
    | noClause => cases hn
    | someClause inner =>
      obtain rfl := Option.some.inj hn
      exact inner.expressible_self
  | lastParameter _ ih => exact ih
  | nextParameter _ _ ihHead ihTail =>
    exact List.forall_mem_cons.mpr ⟨List.forall_mem_singleton.mp ihHead, ihTail⟩
  | someParameters _ _ ih => exact ih
  | _ => simp [Phrase.params]

/-- Rendered parameters in their parentheses, or none. -/
theorem matches_parameterList (hv : view.IsFile) {params : List Parameter}
    {list rest : List Symbol} (h : Reads (.parameterList params) list)
    (hah : view.ahead pos = listed params (parametersRendering parenthesised params) ++ rest)
    (hr : stops rest = true) :
    ∃ others found next, view.ahead next = rest ∧
      eraseParameters others = eraseParameters params ∧
      (found = [(.params, .params others)] ∨ found = [] ∧ others = []) ∧
      ∀ {entries captures result},
        Matches (entryAt view) entries next (found ++ captures) result →
        Matches (entryAt view) (parameterList :: entries) pos captures result := by
  cases params with
  | nil =>
    refine ⟨[], [], pos, hah, rfl, .inr ⟨rfl, rfl⟩, fun hm => ?_⟩
    refine matches_absent hv rfl (fun inside next hi => ?_) hm
    obtain ⟨symbol, more, rfl, hk⟩ := exists_of_stops hr
    obtain ⟨hac, -, -⟩ := hi.takes rfl hah
    have hlx := hv.lexical_of_ahead hah
    rw [eq_word_of_acceptsSymbol hlx (by decide) hac] at hk
    exact hk (by decide)
  | cons param params =>
    cases h with
    | someParameters distinct inner =>
      replace hah := hah.trans (congrArg (leftParen :: ·) (List.append_assoc _ [_] _))
      obtain ⟨-, hi⟩ := View.ahead_cons hah
      have hrn : (parametersRendering parenthesised (param :: params)).length
          < view.tokens.size + 2 := by
        have hl := congrArg List.length hi
        rw [View.ahead_length, List.length_append] at hl
        omega
      obtain ⟨others, close, ho, hc, her⟩ :=
        @parametersFrom_complete rest view (pos + 1) (param :: params)
          inner.expressible_initial (by simp) hi [] distinct (view.tokens.size + 2) hrn
      obtain ⟨-, hnx⟩ := View.ahead_cons hc
      have hnot : (view.peek (pos + 1)).kind ≠ .rightParen := by
        obtain ⟨name, tail, hn⟩ := inner.rendering.exists_name rfl
        have hf := hi.trans (congrArg (· ++ _) hn)
        rw [← Token.symbol_kind, (View.ahead_cons hf).1]
        simp
      have he : (entryAt view (some .params, .parameters) (pos + 1)).outcome
          = .ok ([(.params, .params others)], close) := by
        rw [entryAt_eq hv.ended rfl, matchEntry, listOrNone, if_neg hnot]
        exact Attempt.outcome_bind_of_ok ho
      refine ⟨others, _, close + 1, hnx, her, .inl rfl, fun hm => ?_⟩
      refine matches_present hv rfl (matches_symbol rfl hah rfl ((matches_cons rfl).mpr
        ⟨_, close, he, matches_symbol rfl hc rfl rfl⟩)) hm

end Parameters

/-! ## Blocks -/

/-- The words that end a block. -/
def closingWords : List String := ["else", "end", "until"]

/-- The symbol can be the first of a statement. -/
def startsStatement (symbol : Symbol) : Bool :=
  startsExpression symbol || symbol.kind == .keyword && !closingWords.contains symbol.text

theorem startsStatement_sharedMark (shared : Bool) (h : text ∉ closingWords) (rest : List Symbol) :
    ∃ symbol others, sharedMark shared ++ keyword text :: rest = symbol :: others ∧
      startsStatement symbol = true := by
  cases shared with
  | true => exact ⟨_, _, rfl, rfl⟩
  | false => exact ⟨_, _, rfl, by simp [startsStatement, keyword, h]⟩

/-- A statement starts with a symbol that can be its first. -/
theorem Reads.exists_head (h : Reads (.statement node) list) :
    ∃ symbol rest, list = symbol :: rest ∧ startsStatement symbol = true := by
  cases h with
  | functionDecl | nativeDecl | constructorDecl | propertyDecl =>
    exact startsStatement_sharedMark _ (by decide) _
  | contract contract => cases contract <;> exact ⟨_, _, rfl, rfl⟩
  | assign _ _ first =>
    obtain ⟨symbol, rest, rfl, hs⟩ := first.exists_start rfl
    exact ⟨symbol, _, rfl, by simp [startsStatement, hs]⟩
  | evaluate inner =>
    obtain ⟨symbol, rest, rfl, hs⟩ := inner.exists_start rfl
    exact ⟨symbol, rest, rfl, by simp [startsStatement, hs]⟩
  | _ => exact ⟨_, _, rfl, rfl⟩

/-- What may stand behind a statement: the end of its line, or an `else` that cannot belong to
it. -/
def follows (node : Node) : List Symbol → Bool
  | [] => false
  | symbol :: _ => symbol == .lineEnd || symbol == keyword "else" && !danglesNode node

theorem exists_of_follows (h : follows node rest = true) :
    ∃ symbol more, rest = symbol :: more ∧
      (symbol = .lineEnd ∨ symbol = keyword "else" ∧ danglesNode node = false) := by
  cases rest with
  | nil => cases h
  | cons symbol rest =>
    refine ⟨symbol, rest, rfl, ?_⟩
    simpa [follows] using h

/-- What may stand behind a statement may stand behind one that dangles only if it does. -/
theorem follows_of_follows {node other : Node} (h : follows node rest = true)
    (hd : danglesNode node = false → danglesNode other = false) :
    follows other rest = true := by
  obtain ⟨symbol, more, rfl, hs⟩ := exists_of_follows h
  rcases hs with rfl | ⟨rfl, hn⟩
  · rfl
  · simp [follows, hd hn]

theorem stops_of_follows (h : follows node rest = true) : stops rest = true := by
  obtain ⟨symbol, more, rfl, hs⟩ := exists_of_follows h
  rcases hs with rfl | ⟨rfl, -⟩ <;> rfl

/-- What may stand behind a block. -/
def closes (terminators : List String) : List Symbol → Bool
  | [] => false
  | symbol :: _ =>
    if terminators.isEmpty then symbol == fileEnd
    else terminators.any fun text => symbol == keyword text

/-- Where the rendered statement is ahead, it is parsed. -/
def StatementGiven (node : Node) : Prop :=
  ∀ {view : View}, view.IsFile → ∀ {pos rest}, view.ahead pos = node.canonical ++ rest →
    follows node rest = true →
      ∃ other next, (statementAt view (entryAt view) pos).outcome = .ok (other, next) ∧
        other.erase = node.erase ∧ view.ahead next = rest

/-- Where the rendered lines are ahead, their statements are parsed. -/
def LinesGiven (nodes : List Node) : Prop :=
  ∀ {view : View}, view.IsFile → ∀ {pos rest terminators},
    view.ahead pos = linesRendering parenthesised nodes ++ rest →
    (∀ text ∈ terminators, text ∈ closingWords) → closes terminators rest = true →
    ∀ {rounds}, (linesRendering parenthesised nodes).length < rounds → ∀ found,
      ∃ others next, (blockFrom view (statementAt view (entryAt view)) terminators rounds pos
        found).outcome = .ok (found.reverse ++ others, next) ∧
        eraseAll others = eraseAll nodes ∧ view.ahead next = rest

theorem linesGiven_nil : LinesGiven [] := by
  intro view hv pos rest terminators hah hw hc rounds hr found
  replace hah : view.ahead pos = rest := hah
  obtain ⟨rounds, rfl⟩ : ∃ less, rounds = less + 1 := ⟨rounds - 1, by omega⟩
  refine ⟨[], pos, ?_, rfl, hah⟩
  rw [List.append_nil]
  cases rest with
  | nil => cases hc
  | cons symbol rest =>
    obtain ⟨rfl, -⟩ := View.ahead_cons hah
    unfold closes at hc
    unfold blockFrom
    dsimp only at hc
    split at hc
    · next he =>
      have hk : (view.peek pos).kind = .endOfFile := congrArg Symbol.kind (beq_iff_eq.mp hc)
      simp [hk, he]
    · next hsm =>
      obtain ⟨text, ht, hs⟩ := List.any_eq_true.mp hc
      have hk : (view.peek pos).kind = .keyword := congrArg Symbol.kind (beq_iff_eq.mp hs)
      have hsp : (view.peek pos).spells text = true := by
        have heq : (view.peek pos).text = text := congrArg Symbol.text (beq_iff_eq.mp hs)
        simp [Token.spells, heq, hk]
      have hany : terminators.any (view.peek pos).spells = true :=
        List.any_eq_true.mpr ⟨text, ht, hsp⟩
      simp [hk, hany]

/-- The first symbol of a statement does not end the block. -/
theorem startsStatement_kind (h : startsStatement symbol = true) :
    symbol.kind ≠ .endOfLine ∧ symbol.kind ≠ .endOfFile := by
  constructor <;> intro hk <;> simp [startsStatement, startsExpression, hk] at h

theorem startsStatement_ne_closing (h : startsStatement symbol = true)
    (ht : text ∈ closingWords) :
    symbol ≠ keyword text := by
  rintro rfl
  simp only [startsStatement, startsExpression, keyword, Bool.or_eq_true, beq_iff_eq,
    Bool.and_eq_true, true_and, Bool.not_eq_true', List.contains_eq_mem,
    decide_eq_false_iff_not] at h
  rcases h with rfl | hnot
  · revert ht
    decide
  · exact hnot ht

theorem closingWords_keywords : ∀ text ∈ closingWords, text ∈ TokenKind.keywords := by decide

/-- A token that spells a keyword is the keyword. -/
theorem eq_keyword_of_spells {token : Token} (hl : token.symbol.Lexical)
    (hk : text ∈ TokenKind.keywords) (h : token.spells text = true) :
    token.symbol = keyword text := by
  have hne : text ≠ "" := by
    rintro rfl
    revert hk
    decide
  rw [symbol_of_accepts_word hl h hne, Symbol.word, classify_keyword text hk]
  rfl

theorem linesGiven_cons {nodes : List Node} (hrd : Reads (.statement node) list)
    (hnd : StatementGiven node) (hns : LinesGiven nodes) : LinesGiven (node :: nodes) := by
  intro view hv pos rest terminators hah hw hc rounds hr found
  replace hah := hah.trans (List.append_assoc node.canonical (.lineEnd :: _) _)
  obtain ⟨rounds, rfl⟩ : ∃ less, rounds = less + 1 := ⟨rounds - 1, by omega⟩
  obtain ⟨other, stop, ho, he, hst⟩ := hnd hv hah rfl
  obtain ⟨hln, hlt⟩ := View.ahead_cons hst
  obtain ⟨symbol, tail, hh, hs⟩ := hrd.rendering.exists_head
  have hf := hah.trans (congrArg (· ++ _) hh)
  obtain ⟨hp, -⟩ := View.ahead_cons hf
  have hkn := startsStatement_kind hs
  rw [← hp, Token.symbol_kind] at hkn
  have hany : terminators.any (view.peek pos).spells = false := by
    rw [List.any_eq_false]
    intro text ht hsp
    have hl := hv.lexical_of_ahead hf
    rw [← hp] at hl hs
    refine startsStatement_ne_closing hs (hw text ht) ?_
    exact eq_keyword_of_spells hl (closingWords_keywords text (hw text ht)) hsp
  have hr : (linesRendering parenthesised nodes).length < rounds := by
    have hlg : (linesRendering parenthesised (node :: nodes)).length
        = node.canonical.length + ((linesRendering parenthesised nodes).length + 1) :=
      List.length_append
    omega
  obtain ⟨others, next, hot, heo, hn⟩ := hns hv hlt hw hc hr (other :: found)
  refine ⟨other :: others, next, ?_, by rw [eraseAll, eraseAll, he, heo], hn⟩
  have hlk : (view.peek stop).kind = .endOfLine := congrArg Symbol.kind hln
  unfold blockFrom
  dsimp only
  split
  · next hk => exact absurd hk hkn.1
  · next hk => exact absurd hk hkn.2
  · rw [hany, if_neg (by simp), Attempt.outcome_bind_of_ok ho]
    simp only [hlk]
    rw [hot, List.reverse_cons, List.append_assoc, List.singleton_append]

/-- The lines of a body, up to a word that ends it. -/
theorem LinesGiven.body {nodes : List Node} (h : LinesGiven nodes) {view : View}
    (hv : view.IsFile) (terminators : List String) {pos : Nat}
    (hah : view.ahead pos = linesRendering parenthesised nodes ++ rest)
    (hw : ∀ text ∈ terminators, text ∈ closingWords)
    (hc : closes terminators rest = true) :
    ∃ others next, (blockFrom view (statementAt view (entryAt view)) terminators
      (view.tokens.size + 2) pos []).outcome = .ok (others, next) ∧
      eraseAll others = eraseAll nodes ∧ view.ahead next = rest := by
  refine h hv hah hw hc ?_ []
  have hl := congrArg List.length hah
  rw [View.ahead_length, List.length_append] at hl
  omega

end StepScript.Grammar
