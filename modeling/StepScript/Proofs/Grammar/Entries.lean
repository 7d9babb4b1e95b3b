import StepScript.Proofs.Grammar.Expression
set_option autoImplicit false

/-!
# Entries of rules are read off their tokens

A rule is a list of entries.  For each kind of entry there is one lemma, which takes an entry
off the front of a match: it says what stands between the positions in front of the entry and
behind it, and leaves a match of the entries that follow.

A branch in one line takes an `else` behind it whenever a statement follows the `else`
(`Settled`), which is why a branch inside another one never leaves its `else` to it.
-/

namespace StepScript.Grammar

variable {view : View} {pos next : Nat} {text : String} {slot : Slot} {rest : List Match}
  {captures : Captures} {result : Captures × Nat}

/-- The view of a whole file. -/
structure View.IsFile (view : View) : Prop where
  tokens : AllLexical view.tokens.toList
  ended : view.Ended

theorem View.IsFile.lexical (h : view.IsFile) : view.Lexical where
  tokens := h.tokens
  after := by
    rw [h.ended.kind]
    decide

/-! ## Symbols between positions -/

/-- The symbols stand between the positions. -/
def Over (view : View) (pos next : Nat) (list : List Symbol) : Prop :=
  ∃ part, view.from pos = part ++ view.from next ∧ symbols part = list

section Over

variable {view : View} {pos mid next : Nat}

theorem Over.refl (view : View) (pos : Nat) : Over view pos pos [] := ⟨[], rfl, rfl⟩

theorem Over.trans {first second : List Symbol} (hf : Over view pos mid first)
    (hs : Over view mid next second) : Over view pos next (first ++ second) := by
  obtain ⟨front, hfr, rfl⟩ := hf
  obtain ⟨back, hb, rfl⟩ := hs
  exact ⟨front ++ back, by rw [hfr, hb, List.append_assoc], symbols_append ..⟩

theorem Spans.exists_over {phrase : Phrase} (h : Spans view pos next phrase) :
    ∃ list, Over view pos next list ∧ Reads phrase list := by
  obtain ⟨part, hp, hr⟩ := h
  exact ⟨symbols part, ⟨part, hp, rfl⟩, hr⟩

theorem Over.spans {phrase : Phrase} {list : List Symbol} (h : Over view pos next list)
    (hr : Reads phrase list) : Spans view pos next phrase := by
  obtain ⟨part, hp, rfl⟩ := h
  exact ⟨part, hp, hr⟩

end Over

section

variable (hv : view.IsFile)

include hv

/-- A token that does not end the file is one of the file. -/
theorem View.IsFile.lt_size (h : (view.peek pos).kind ≠ .endOfFile) : pos < view.tokens.size := by
  refine Nat.lt_of_not_le fun hle => h ?_
  rw [View.peek_eq_after hle, hv.ended.kind]

theorem View.IsFile.peek_over (h : (view.peek pos).kind ≠ .endOfFile) :
    Over view pos (pos + 1) [(view.peek pos).symbol] ∧ (view.peek pos).symbol.Lexical :=
  ⟨⟨[view.peek pos], View.from_eq_cons (hv.lt_size h), rfl⟩, hv.lexical.peek (hv.lt_size h)⟩

/-- A sign of the file is known by its kind. -/
theorem View.IsFile.sign_over {kind : TokenKind} (hk : (view.peek pos).kind = kind)
    (hend : kind ≠ .endOfFile) (hs : (text, kind) ∈ TokenKind.signs ++ TokenKind.wordOperators)
    (ho : Symbol.spelledTwice kind = false) : Over view pos (pos + 1) [⟨kind, text⟩] := by
  obtain ⟨hov, hl⟩ := hv.peek_over (hk ▸ hend)
  rwa [hl.eq_sign hs hk ho] at hov

end

/-! ## Entries that take a token -/

section Tokens

variable {view : View} {pos : Nat} {rest : List Match} {captures : Captures}
  {result : Captures × Nat}

/-- An entry that takes a token takes one of the file. -/
theorem Matches.token (hv : view.IsFile) {slot : Option Slot} {entry : Entry}
    (h : Matches (entryAt view) ((slot, entry) :: rest) pos captures result)
    (he : entry.consumes = true) :
    ∃ token, token.symbol.Lexical ∧ Over view pos (pos + 1) [token.symbol] ∧
      entry.accepts token = true ∧
      Matches (entryAt view) rest (pos + 1) (inSlot slot (.text token.text) ++ captures)
        result := by
  have hr : entry.isOptional = false := by
    cases entry <;> first | rfl | cases he
  obtain ⟨found, next, hf, hrs⟩ := h.uncons hr
  have hpos : pos < view.tokens.size := by
    rw [entryAt_eq_matchEntry] at hf
    exact (matchEntry_consumes hv.ended he hf).1
  obtain ⟨hac, rfl, rfl⟩ := entryAt_token_ok hf he
  refine ⟨view.peek pos, hv.lexical.peek hpos, ⟨[view.peek pos], ?_, rfl⟩, hac, hrs⟩
  exact View.from_eq_cons hpos

theorem Matches.word (hv : view.IsFile)
    (h : Matches (entryAt view) (Grammar.word text :: rest) pos captures result) (hne : text ≠ "") :
    Over view pos (pos + 1) [.word text] ∧
      Matches (entryAt view) rest (pos + 1) captures result := by
  have hc : (Entry.word text).consumes = true := by simpa [Entry.consumes] using hne
  obtain ⟨token, hl, ho, hac, hr⟩ := Matches.token hv h hc
  rw [symbol_of_accepts_word hl hac hne] at ho
  exact ⟨ho, hr⟩

theorem classify_keyword : ∀ text ∈ TokenKind.keywords, Lexer.classify text = .keyword := by
  decide

section

variable (hv : view.IsFile)

include hv

theorem Matches.keyword (h : Matches (entryAt view) (Grammar.word text :: rest) pos captures result)
    (hk : text ∈ TokenKind.keywords) :
    Over view pos (pos + 1) [.keyword text] ∧
      Matches (entryAt view) rest (pos + 1) captures result := by
  have hs : Symbol.word text = .keyword text := by
    unfold Symbol.word
    rw [classify_keyword text hk]
    rfl
  have hne : text ≠ "" := by
    rintro rfl
    revert hk
    decide
  rw [← hs]
  exact h.word hv hne

theorem Matches.identifier
    (h : Matches (entryAt view) (capture slot .identifier :: rest) pos captures result) :
    ∃ name, Over view pos (pos + 1) [.identifier name] ∧ IsIdentifier name ∧
      Matches (entryAt view) rest (pos + 1) ((slot, .text name) :: captures) result := by
  obtain ⟨token, hl, ho, hac, hr⟩ := Matches.token hv h rfl
  obtain ⟨hs, hn⟩ := symbol_of_accepts_identifier hl hac
  rw [hs] at ho
  exact ⟨token.text, ho, hn, hr⟩

theorem Matches.typeName
    (h : Matches (entryAt view) (capture slot .typeName :: rest) pos captures result) :
    ∃ name, Over view pos (pos + 1) [.typeName name] ∧ IsType name ∧
      Matches (entryAt view) rest (pos + 1) ((slot, .text name) :: captures) result := by
  obtain ⟨token, hl, ho, hac, hr⟩ := Matches.token hv h rfl
  obtain ⟨hs, hn⟩ := symbol_of_accepts_typeName hl hac
  rw [hs] at ho
  exact ⟨token.text, ho, hn, hr⟩

theorem Matches.lineEnd (h : Matches (entryAt view) (Grammar.lineEnd :: rest) pos captures result) :
    Over view pos (pos + 1) [.lineEnd] ∧
      Matches (entryAt view) rest (pos + 1) captures result := by
  obtain ⟨token, hl, ho, hac, hr⟩ := Matches.token hv h rfl
  rw [hl.eq_lineEnd (by simpa [Entry.accepts] using hac)] at ho
  exact ⟨ho, hr⟩

theorem Matches.assign
    (h : Matches (entryAt view) ((none, .kind .assign) :: rest) pos captures result) :
    Over view pos (pos + 1) [.assign] ∧
      Matches (entryAt view) rest (pos + 1) captures result := by
  obtain ⟨token, hl, ho, hac, hr⟩ := Matches.token hv h rfl
  have hs : token.symbol = .assign :=
    hl.eq_sign (by decide) (by simpa [Entry.accepts] using hac) rfl
  rw [hs] at ho
  exact ⟨ho, hr⟩

end

/-- An entry matches a token that it accepts. -/
theorem matches_token {slot : Option Slot} {entry : Entry} (he : entry.consumes = true)
    (hac : entry.accepts (view.peek pos) = true)
    (hrs : Matches (entryAt view) rest (pos + 1)
      (inSlot slot (.text (view.peek pos).text) ++ captures) result) :
    Matches (entryAt view) ((slot, entry) :: rest) pos captures result := by
  have hr : entry.isOptional = false := by
    cases entry <;> first | rfl | cases he
  exact (matches_cons hr).mpr
    ⟨_, _, (entryAt_token_iff he).mpr ⟨hac, rfl, rfl⟩, hrs⟩

theorem Matches.nil {one : Matcher} {found : Captures}
    (h : Matches one [] pos captures (found, next)) : found = captures ∧ next = pos :=
  Prod.mk.inj h

end Tokens

/-! ## Expressions and groups that may be absent -/

section Groups

variable {view : View} {pos : Nat} {rest : List Match} {captures : Captures}
  {result : Captures × Nat}

section

variable (hv : view.IsFile)

include hv

theorem Matches.expression
    (h : Matches (entryAt view) (Grammar.expression slot :: rest) pos captures result) :
    ∃ node next list, Over view pos next list ∧ Reads (.expression node) list ∧ pos < next ∧
      Matches (entryAt view) rest next ((slot, .node node) :: captures) result := by
  obtain ⟨found, next, hf, hrs⟩ := h.uncons rfl
  change (entryAt view (some slot, .expression) pos).outcome = _ at hf
  rw [entryAt_eq hv.ended rfl] at hf
  obtain ⟨⟨node, stop⟩, hn, hc⟩ := Attempt.outcome_bind_ok_iff.mp hf
  obtain ⟨rfl, rfl⟩ := Prod.mk.inj (Except.ok.inj hc)
  obtain ⟨list, ho, hr⟩ := (readsExpression hv.lexical hn).2.exists_over
  exact ⟨node, stop, list, ho, hr, expressionAt_forward hn, hrs⟩

/-- A group that is present matches entry by entry. -/
theorem optional_iff {slot : Option Slot} {group : List Match} {found : Captures}
    (hg : (Entry.optional group).isPlain = true) :
    (entryAt view (slot, .optional group) pos).outcome = .ok (found, next) ↔
      ∃ inside, Matches (entryAt view) group pos [] (inside, next) ∧
        found = inSlot slot .present ++ inside := by
  rw [entryAt_eq hv.ended hg]
  simp only [matchEntry, Attempt.outcome_bind_ok_iff, matchEntries_ok_iff, Prod.exists,
    Attempt.outcome_pure, Except.ok.injEq, Prod.mk.injEq]
  constructor
  · rintro ⟨inside, stop, hi, rfl, rfl⟩
    exact ⟨inside, hi, rfl⟩
  · rintro ⟨inside, hi, rfl⟩
    exact ⟨inside, next, hi, rfl, rfl⟩

/-- A group is present and matches, or it does not match. -/
theorem Matches.optional {slot : Option Slot} {group : List Match}
    (h : Matches (entryAt view) ((slot, .optional group) :: rest) pos captures result)
    (hg : (Entry.optional group).isPlain = true) :
    (∃ inside next, Matches (entryAt view) group pos [] (inside, next) ∧
      Matches (entryAt view) rest next (inSlot slot .present ++ inside ++ captures) result) ∨
    (∀ inside next, ¬ Matches (entryAt view) group pos [] (inside, next)) ∧
      Matches (entryAt view) rest pos captures result := by
  rcases h.uncons_optional rfl with ⟨found, next, hfn, hr⟩ | ⟨hf, hr⟩
  · obtain ⟨inside, hi, rfl⟩ := (optional_iff hv hg).mp hfn
    exact .inl ⟨inside, next, hi, hr⟩
  · refine .inr ⟨fun inside next hi => ?_, hr⟩
    exact hf _ ((optional_iff hv hg).mpr ⟨inside, hi, rfl⟩)

/-- What the instances of a class share is marked. -/
theorem Matches.sharedFlag
    (h : Matches (entryAt view) (Grammar.sharedFlag :: rest) pos captures result) :
    ∃ shared next, Over view pos next (sharedMark shared) ∧ pos ≤ next ∧
      Matches (entryAt view) rest next
        ((if shared then [(.shared, .present)] else []) ++ captures) result := by
  rcases Matches.optional hv h rfl with ⟨inside, next, hi, hr⟩ | ⟨-, hr⟩
  · obtain ⟨ho, hend⟩ := hi.keyword hv (by decide)
    obtain ⟨rfl, rfl⟩ := hend.nil
    exact ⟨true, pos + 1, ho, by omega, hr⟩
  · exact ⟨false, pos, .refl view pos, Nat.le_refl pos, hr⟩

/-- A class may have a parent. -/
theorem Matches.parentClause
    (h : Matches (entryAt view)
      (optionally [Grammar.word "of", Grammar.word "type", capture .parent .typeName] :: rest) pos
      captures result) :
    ∃ parent next, Over view pos next (Grammar.parentClause parent) ∧ pos ≤ next ∧
      (∀ name ∈ parent, IsType name) ∧
      Matches (entryAt view) rest next
        ((match parent with
          | some name => [(.parent, .text name)]
          | none => []) ++ captures) result := by
  rcases Matches.optional hv h rfl with ⟨inside, next, hi, hr⟩ | ⟨-, hr⟩
  · obtain ⟨hof, hi⟩ := hi.keyword hv (by decide)
    obtain ⟨ht, hi⟩ := hi.keyword hv (by decide)
    obtain ⟨name, hn, hnm, hend⟩ := hi.typeName hv
    obtain ⟨rfl, rfl⟩ := hend.nil
    refine ⟨some name, _, hof.trans (ht.trans hn), by omega, ?_, hr⟩
    rintro other ⟨⟩
    exact hnm
  · exact ⟨none, pos, .refl view pos, Nat.le_refl pos, by simp, hr⟩

/-- Words one after the other. -/
theorem Matches.words {words : List String} (hw : ∀ text ∈ words, text ≠ "")
    (h : Matches (entryAt view) (words.map Grammar.word ++ rest) pos captures result) :
    ∃ next, Over view pos next (words.map Symbol.word) ∧ pos ≤ next ∧
      Matches (entryAt view) rest next captures result := by
  induction words generalizing pos with
  | nil => exact ⟨pos, .refl view pos, Nat.le_refl pos, h⟩
  | cons text words ih =>
    rw [List.forall_mem_cons] at hw
    obtain ⟨ho, hr⟩ := Matches.word hv h hw.1
    obtain ⟨next, hor, hn, hr⟩ := ih hw.2 hr
    exact ⟨next, ho.trans hor, by omega, hr⟩

/-- An expression behind words may be absent. -/
theorem Matches.clause (words : List String) (hw : ∀ text ∈ words, text ≠ "")
    (h : Matches (entryAt view)
      (optionally (words.map Grammar.word ++ [Grammar.expression slot]) :: rest) pos captures
      result) :
    ∃ node next list, Over view pos next list ∧
      Reads (.clause (words.map Symbol.word) node) list ∧ pos ≤ next ∧
      Matches (entryAt view) rest next
        ((match node with
          | some node => [(slot, .node node)]
          | none => []) ++ captures) result := by
  have hp : (Entry.optional (words.map Grammar.word ++ [Grammar.expression slot])).isPlain
      = true := by
    simp [Entry.isPlain, Grammar.word, Grammar.expression, capture, Entry.isOptional]
  rcases Matches.optional hv h hp with ⟨inside, next, hi, hr⟩ | ⟨-, hr⟩
  · obtain ⟨mid, ho, hmid, hi⟩ := Matches.words hv hw hi
    obtain ⟨node, stop, list, hon, hrd, hl, hend⟩ := hi.expression hv
    obtain ⟨rfl, rfl⟩ := hend.nil
    exact ⟨some node, _, _, ho.trans hon, .someClause hrd, by omega, hr⟩
  · exact ⟨none, pos, [], .refl view pos, .noClause _, Nat.le_refl pos, hr⟩

end

theorem parameterNameAt_ok {found : List Parameter} {name : String}
    (h : (parameterNameAt view found pos).outcome = .ok name) :
    (view.peek pos).kind = .identifier ∧ name = (view.peek pos).text ∧
      name ∉ found.map (·.name) := by
  unfold parameterNameAt at h
  dsimp only at h
  split at h
  · simp at h
  · next hk =>
    split at h
    · simp at h
    · next hnew =>
      obtain rfl := Except.ok.inj h
      refine ⟨Decidable.not_not.mp hk, rfl, fun hmem => hnew ?_⟩
      obtain ⟨param, hp, hn⟩ := List.mem_map.mp hmem
      exact List.any_eq_true.mpr ⟨param, hp, beq_iff_eq.mpr hn⟩

variable (hv : view.IsFile)

include hv

/-- The initial value of a parameter. -/
theorem initialAt_over {initial : Option Node}
    (h : (initialAt view (expressionAt view (headedRun entryAt)) pos).outcome
      = .ok (initial, next)) :
    ∃ list, Over view pos next list ∧ Reads (.clause [.assign] initial) list := by
  unfold initialAt at h
  split at h
  · next has =>
    obtain ⟨⟨node, stop⟩, hn, hend⟩ := Attempt.outcome_bind_ok_iff.mp h
    obtain ⟨rfl, rfl⟩ := Prod.mk.inj (Except.ok.inj hend)
    have ho : Over view pos (pos + 1) [.assign] := hv.sign_over has (by decide) (by decide) rfl
    obtain ⟨list, hon, hr⟩ := (readsExpression hv.lexical hn).2.exists_over
    exact ⟨_, ho.trans hon, .someClause hr⟩
  · obtain ⟨rfl, rfl⟩ := Prod.mk.inj (Except.ok.inj h)
    exact ⟨[], .refl view pos, .noClause _⟩

/-- Parameters with commas between them. -/
theorem parametersFrom_reads {rounds : Nat} {found params : List Parameter}
    (hf : (found.map (·.name)).Nodup)
    (h : (parametersFrom view (expressionAt view (headedRun entryAt)) rounds pos found).outcome
      = .ok (params, next)) :
    ∃ more list, params = found.reverse ++ more ∧ (params.map (·.name)).Nodup ∧
      Over view pos next list ∧ Reads (.parameters more) list := by
  induction rounds generalizing pos found with
  | zero => simp [parametersFrom] at h
  | succ rounds ih =>
    unfold parametersFrom at h
    obtain ⟨name, hnm, h⟩ := Attempt.outcome_bind_ok_iff.mp h
    obtain ⟨⟨initial, stop⟩, hit, h⟩ := Attempt.outcome_bind_ok_iff.mp h
    obtain ⟨hk, rfl, hnew⟩ := parameterNameAt_ok hnm
    have hin : (view.peek pos).kind ≠ .endOfFile := by
      rw [hk]
      decide
    obtain ⟨hon, hl⟩ := hv.peek_over hin
    obtain ⟨hs, hi⟩ := symbol_of_accepts_identifier hl (by
      simp [Entry.accepts, hk])
    rw [hs] at hon
    obtain ⟨list, hoi, hr⟩ := initialAt_over hv hit
    have hp := Reads.parameter hi hr
    have hn : ((⟨(view.peek pos).text, initial⟩ :: found).map
        (fun param : Parameter => param.name)).Nodup := by
      rw [List.map_cons, List.nodup_cons]
      exact ⟨hnew, hf⟩
    dsimp only at h
    split at h
    · next hc =>
      obtain ⟨more, rest, rfl, hd, hor, hrr⟩ := ih hn h
      have hoc : Over view stop (stop + 1) [.comma] := hv.sign_over hc (by decide) (by decide) rfl
      refine ⟨⟨(view.peek pos).text, initial⟩ :: more, _, by simp, hd,
        (hon.trans hoi).trans (hoc.trans hor), ?_⟩
      exact .nextParameter hp hrr
    · obtain ⟨rfl, rfl⟩ := Prod.mk.inj (Except.ok.inj h)
      refine ⟨[⟨(view.peek pos).text, initial⟩], _, by simp, ?_, hon.trans hoi, .lastParameter hp⟩
      rw [List.map_reverse]
      exact List.pairwise_reverse.mpr (hn.imp Ne.symm)

/-- Parameters in their parentheses may be absent. -/
theorem Matches.parameterList
    (h : Matches (entryAt view) (Grammar.parameterList :: rest) pos captures result) :
    ∃ params next found list, Over view pos next list ∧ Reads (.parameterList params) list ∧
      pos ≤ next ∧ (found = [(.params, .params params)] ∨ found = [] ∧ params = []) ∧
      Matches (entryAt view) rest next (found ++ captures) result := by
  rcases Matches.optional hv h rfl with ⟨inside, next, hi, hr⟩ | ⟨-, hr⟩
  · obtain ⟨ho, hi⟩ := hi.word hv (by decide)
    obtain ⟨found, stop, hf, hi⟩ := hi.uncons rfl
    obtain ⟨hc, hend⟩ := hi.word hv (by decide)
    obtain ⟨rfl, rfl⟩ := hend.nil
    change (entryAt view (some .params, .parameters) _).outcome = _ at hf
    rw [entryAt_eq hv.ended rfl] at hf
    obtain ⟨⟨params, last⟩, hl, hcp⟩ := Attempt.outcome_bind_ok_iff.mp hf
    obtain ⟨rfl, rfl⟩ := Prod.mk.inj (Except.ok.inj hcp)
    rcases listOrNone_ok hl with ⟨-, rfl, rfl⟩ | hs
    · exact ⟨[], _, _, _, ho.trans hc, .emptyParameters, by omega, .inl rfl, hr⟩
    · obtain ⟨more, list, hm, hd, hov, hrd⟩ :=
        parametersFrom_reads hv (by simp) hs
      obtain rfl : params = more := hm
      have hlt := parametersFrom_forward (fun _ _ _ => expressionAt_forward) hs
      exact ⟨params, _, _, _, ho.trans (hov.trans hc),
        .someParameters hd hrd, by omega, .inl rfl, hr⟩
  · exact ⟨[], pos, [], [], .refl view pos, .noParameters, Nat.le_refl pos, .inr ⟨rfl, rfl⟩, hr⟩

end Groups

/-! ## Blocks -/

/-- If an `else` behind the statement would belong to it, no statement stands behind the
`else`. -/
def Settled (view : View) (node : Node) (next : Nat) : Prop :=
  danglesNode node = true → (view.peek next).spells "else" = true →
    (statementAt view (entryAt view) (next + 1)).Fails

/-- From `pos` on, statements can be read off the tokens that they take. -/
def StatementsRead (view : View) (pos : Nat) : Prop :=
  ∀ at_ node next, pos ≤ at_ →
    (statementAt view (entryAt view) at_).outcome = .ok (node, next) →
      Spans view at_ next (.statement node) ∧ Settled view node next

theorem StatementsRead.mono {pos later : Nat} (h : StatementsRead view pos) (hle : pos ≤ later) :
    StatementsRead view later :=
  fun at_ node next hat => h at_ node next (Nat.le_trans hle hat)

variable (hv : view.IsFile)

include hv

/-- The statements of a block can be read off its lines.  The last line of a file may lack
its end. -/
theorem blockFrom_reads {terminators : List String} {rounds pos : Nat} {found nodes : List Node}
    (hs : StatementsRead view pos)
    (h : (blockFrom view (statementAt view (entryAt view)) terminators rounds pos found).outcome
      = .ok (nodes, next)) :
    ∃ more list, nodes = found.reverse ++ more ∧ Over view pos next list ∧
      (Reads (.lines more) list ∨
        terminators = [] ∧ Reads (.lines more) (list ++ [.lineEnd])) ∧
      (terminators = [] → (view.peek next).kind = .endOfFile) := by
  induction rounds generalizing pos found with
  | zero => simp [blockFrom] at h
  | succ rounds ih =>
    unfold blockFrom at h
    dsimp only at h
    split at h
    · next hl =>
      obtain ⟨more, list, hn, ho, hr, hend⟩ := ih (hs.mono (Nat.le_succ pos)) h
      have hin : (view.peek pos).kind ≠ .endOfFile := by rw [hl]; decide
      obtain ⟨hol, hlx⟩ := hv.peek_over hin
      rw [hlx.eq_lineEnd hl] at hol
      refine ⟨more, _, hn, hol.trans ho, ?_, hend⟩
      exact hr.imp .blankLine (.imp_right .blankLine)
    · next hf =>
      split at h
      · obtain ⟨rfl, rfl⟩ := Prod.mk.inj (Except.ok.inj h)
        exact ⟨[], [], by simp, .refl view pos, .inl .noLines, fun _ => hf⟩
      · simp at h
    · split at h
      · next ht =>
        obtain ⟨rfl, rfl⟩ := Prod.mk.inj (Except.ok.inj h)
        refine ⟨[], [], by simp, .refl view pos, .inl .noLines, fun he => ?_⟩
        rw [he] at ht
        cases ht
      · obtain ⟨⟨node, stop⟩, hnd, h⟩ := Attempt.outcome_bind_ok_iff.mp h
        obtain ⟨hsp, -⟩ := hs pos node stop (Nat.le_refl pos) hnd
        obtain ⟨first, hof, hrf⟩ := hsp.exists_over
        have hst := statementAt_advances (matchOne_advances _ _) hnd
        dsimp only at h
        split at h
        · next hl =>
          obtain ⟨more, list, hn, ho, hr, hend⟩ := ih (hs.mono (by omega)) h
          have hin : (view.peek stop).kind ≠ .endOfFile := by rw [hl]; decide
          obtain ⟨hol, hlx⟩ := hv.peek_over hin
          rw [hlx.eq_lineEnd hl] at hol
          refine ⟨node :: more, _, by simp [hn], hof.trans (hol.trans ho), ?_, hend⟩
          refine hr.imp (.line hrf) (.imp_right fun hls => ?_)
          simpa using Reads.line hrf hls
        · next hf =>
          cases rounds with
          | zero => simp [blockFrom] at h
          | succ rounds =>
            unfold blockFrom at h
            simp only [hf] at h
            split at h
            · next he =>
              obtain ⟨rfl, rfl⟩ := Prod.mk.inj (Except.ok.inj h)
              refine ⟨[node], first, by simp, hof, .inr ⟨List.isEmpty_iff.mp he, ?_⟩, fun _ => hf⟩
              exact .line hrf .noLines
            · simp at h
        · simp at h

/-- The body of a statement. -/
theorem Matches.body {terminators : List String} (hs : StatementsRead view pos)
    (ht : terminators ≠ [])
    (h : Matches (entryAt view) (Grammar.body slot terminators :: rest) pos captures result) :
    ∃ nodes start next list, Over view pos next list ∧ Reads (.lines nodes) list ∧ pos ≤ next ∧
      Matches (entryAt view) rest next ((slot, .node ⟨.block nodes, start⟩) :: captures)
        result := by
  obtain ⟨found, next, hf, hrs⟩ := h.uncons rfl
  change (entryAt view (some slot, .statements terminators) pos).outcome = _ at hf
  rw [entryAt_eq hv.ended rfl] at hf
  obtain ⟨⟨nodes, stop⟩, hn, hc⟩ := Attempt.outcome_bind_ok_iff.mp hf
  obtain ⟨rfl, rfl⟩ := Prod.mk.inj (Except.ok.inj hc)
  obtain ⟨more, list, hm, ho, hr, -⟩ := blockFrom_reads hv hs hn
  obtain rfl : nodes = more := hm
  have hl := blockFrom_forward (fun _ _ _ => statementAt_advances (matchOne_advances _ _)) hn
  rcases hr with hr | ⟨he, -⟩
  · exact ⟨nodes, _, stop, list, ho, hr, hl, hrs⟩
  · exact absurd he ht

/-- A statement inside another one. -/
theorem Matches.statement (hst : StatementsRead view pos)
    (h : Matches (entryAt view) (capture slot .statement :: rest) pos captures result) :
    ∃ node next list, Over view pos next list ∧ Reads (.statement node) list ∧
      Settled view node next ∧ pos ≤ next ∧
      (statementAt view (entryAt view) pos).outcome = .ok (node, next) ∧
      Matches (entryAt view) rest next ((slot, .node node) :: captures) result := by
  obtain ⟨found, next, hf, hrs⟩ := h.uncons rfl
  change (entryAt view (some slot, .statement) pos).outcome = _ at hf
  rw [entryAt_eq hv.ended rfl] at hf
  obtain ⟨⟨node, stop⟩, hn, hc⟩ := Attempt.outcome_bind_ok_iff.mp hf
  obtain ⟨rfl, rfl⟩ := Prod.mk.inj (Except.ok.inj hc)
  obtain ⟨hsp, hs⟩ := hst pos node stop (Nat.le_refl pos) hn
  obtain ⟨list, ho, hr⟩ := hsp.exists_over
  exact ⟨node, stop, list, ho, hr, hs, statementAt_advances (matchOne_advances _ _) hn, hn, hrs⟩

theorem matches_statement {node : Node}
    (hn : (statementAt view (entryAt view) pos).outcome = .ok (node, next))
    (hr : Matches (entryAt view) rest next ((slot, .node node) :: captures) result) :
    Matches (entryAt view) (capture slot .statement :: rest) pos captures result := by
  refine (matches_cons rfl).mpr ⟨[(slot, .node node)], next, ?_, hr⟩
  change (entryAt view (some slot, .statement) pos).outcome = _
  rw [entryAt_eq hv.ended rfl]
  exact Attempt.outcome_bind_ok_iff.mpr ⟨_, hn, rfl⟩

end StepScript.Grammar
