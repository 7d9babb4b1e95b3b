import StepScript.Proofs.Grammar.Splitting
set_option autoImplicit false

/-!
# Entries of rules match what is ahead

The converse of taking entries off the front of a match: for each kind of entry there is one
lemma, which puts an entry in front of a match, if what the entry calls for stands ahead.

A rule that comes too early in its table does not match.  For most rules this can be told from
the first symbols ahead (`fits`).
-/

namespace StepScript.Grammar

variable {rest more : List Symbol} {symbol : Symbol} {node : Node} {view : View} {slot : Slot}
  {pos next : Nat} {rule : Rule}

open Symbol (keyword identifier leftParen rightParen comma assign dot fileEnd)

/-! ## What is ahead -/

/-- The symbols from a position on. -/
def View.ahead (view : View) (pos : Nat) : List Symbol := symbols (view.from pos)

section Ahead

theorem View.ahead_cons (h : view.ahead pos = symbol :: rest) :
    (view.peek pos).symbol = symbol ∧ view.ahead (pos + 1) = rest := by
  obtain ⟨token, others, hf, hs, ho⟩ := symbols_eq_cons h
  obtain ⟨hp, hl⟩ := View.peek_of_from hf
  exact ⟨by rw [hp, hs], by rw [View.ahead, hl, ho]⟩

theorem View.ahead_length (view : View) (pos : Nat) :
    (view.ahead pos).length = view.tokens.size - pos := by
  simp [View.ahead, View.from, symbols]

/-- A symbol ahead is one that the lexer makes. -/
theorem View.IsFile.lexical_of_ahead (hv : view.IsFile) (h : view.ahead pos = symbol :: rest) :
    symbol.Lexical := by
  obtain ⟨token, others, hf, rfl, -⟩ := symbols_eq_cons h
  refine hv.lexical.from pos token ?_
  rw [hf]
  exact List.mem_cons_self ..

/-- An expression outside of parentheses stops in front of the symbols. -/
def stops : List Symbol → Bool
  | [] => false
  | symbol :: _ => symbol.kind == .rightParen || endsExpression symbol

theorem exists_of_stops (h : stops rest = true) :
    ∃ symbol more, rest = symbol :: more ∧ symbol.kind ≠ .leftParen := by
  cases rest with
  | nil => cases h
  | cons symbol more =>
    refine ⟨symbol, more, rfl, fun hk => ?_⟩
    simp [stops, endsExpression, hk] at h

/-- A rendered expression that is ahead is read. -/
theorem Expressible.ahead (h : Expressible node) (hah : view.ahead pos = node.canonical ++ rest)
    (hs : stops rest = true) :
    ∃ other next, (Grammar.expressionAt view (headedRun entryAt) pos).outcome = .ok (other, next) ∧
      other.erase = node.erase ∧ view.ahead next = rest := by
  obtain ⟨run, back, hf, hrun, hb⟩ := symbols_eq_append hah
  cases back with
  | nil =>
    obtain rfl : [] = rest := hb
    cases hs
  | cons stop more =>
    have hst : Stops stop := by
      rw [← hb] at hs
      simpa [stops, Stops, endsExpression_symbol] using hs
    obtain ⟨-, other, ho, he⟩ := h.expressionAt hf hrun hst
    refine ⟨other, _, ho, he, ?_⟩
    rw [View.ahead, View.from_append hf, hb]

/-- There is no expression where one would stop at once. -/
theorem expressionAt_fails {headed : List Token → Token → Attempt (Node × Nat)}
    (h : stops (view.ahead pos) = true) : (expressionAt view headed pos).Fails := by
  rintro ⟨node, next⟩ hn
  refine (expressionAt_ok_iff.mp hn).1 ?_
  unfold View.ahead at h
  cases hf : view.from pos with
  | nil => rfl
  | cons token rest =>
    rw [hf] at h
    have hs : Stops token := by
      simpa [stops, Stops, endsExpression_symbol] using h
    exact hs.runLength_eq rest

end Ahead

/-! ## Entries that take a token -/

/-- The entry takes a token with the symbol. -/
def Entry.acceptsSymbol : Entry → Symbol → Bool
  | .word text, symbol => symbol.text == text && symbol.kind != .string
  | .kind wanted, symbol => symbol.kind = wanted
  | .typeName, symbol => symbol.kind = .typeName && !constantNames.contains symbol.text
  | .identifier, symbol => symbol.kind = .identifier
  | _, _ => false

theorem Entry.acceptsSymbol_symbol (entry : Entry) (token : Token) :
    entry.acceptsSymbol token.symbol = entry.accepts token := by
  cases entry <;> rfl

/-- A word is taken as such. -/
theorem eq_word_of_acceptsSymbol (hs : symbol.Lexical) {text : String} (hne : text ≠ "")
    (h : Entry.acceptsSymbol (.word text) symbol = true) :
    symbol = .word text := by
  simp only [Entry.acceptsSymbol, Bool.and_eq_true, beq_iff_eq, bne_iff_ne, ne_eq] at h
  exact hs.eq_word h.1 h.2 hne

theorem acceptsSymbol_typeName {name : String} (h : IsType name) :
    Entry.acceptsSymbol .typeName (.typeName name) = true := by
  simpa [Entry.acceptsSymbol, Symbol.typeName] using h.2

/-! ## The first symbols ahead -/

/-- The entries may match if the symbols are ahead, as far as the first ones tell. -/
def fits : List Match → List Symbol → Bool
  | [], _ => true
  | _ :: _, [] => true
  | (_, .optional [(_, entry)]) :: rest, symbol :: more =>
    !entry.consumes || (entry.acceptsSymbol symbol && fits rest more)
      || fits rest (symbol :: more)
  | (_, entry) :: rest, symbol :: more =>
    !entry.consumes || (entry.acceptsSymbol symbol && fits rest more)

/-- An entry that takes a token takes the first one ahead. -/
theorem Matches.takes {slot : Option Slot} {entry : Entry} {rest : List Match} {captures : Captures}
    {result : Captures × Nat}
    (h : Matches (entryAt view) ((slot, entry) :: rest) pos captures result)
    (he : entry.consumes = true) (hah : view.ahead pos = symbol :: more) :
    entry.acceptsSymbol symbol = true ∧ view.ahead (pos + 1) = more ∧
      Matches (entryAt view) rest (pos + 1) (inSlot slot (.text symbol.text) ++ captures)
        result := by
  have hr : entry.isOptional = false := by
    cases entry <;> first | rfl | cases he
  obtain ⟨found, next, hf, hrs⟩ := h.uncons hr
  obtain ⟨hac, rfl, rfl⟩ := entryAt_token_ok hf he
  obtain ⟨rfl, hl⟩ := View.ahead_cons hah
  rw [Entry.acceptsSymbol_symbol]
  exact ⟨hac, hl, hrs⟩

/-- Entries that match fit what is ahead. -/
theorem Matches.fits (hv : view.IsFile) {entries : List Match}
    (hp : ∀ entry ∈ entries, entry.2.isPlain = true) {captures : Captures}
    {result : Captures × Nat} (h : Matches (entryAt view) entries pos captures result)
    {known more : List Symbol} (hah : view.ahead pos = known ++ more) :
    Grammar.fits entries known = true := by
  induction entries generalizing pos captures known with
  | nil => cases known <;> rfl
  | cons entry rest ih =>
    rw [List.forall_mem_cons] at hp
    unfold Grammar.fits
    split
    · rfl
    · rfl
    · next slot inner entry rest symbol known heq =>
      obtain ⟨rfl, rfl⟩ := List.cons.inj heq
      rcases Matches.optional hv h hp.1 with ⟨inside, next, hi, hr⟩ | ⟨-, hr⟩
      · cases hc : entry.consumes with
        | false => rfl
        | true =>
          obtain ⟨hac, hl, hend⟩ := hi.takes hc hah
          obtain ⟨-, rfl⟩ := hend.nil
          simp [hac, ih hp.2 hr hl]
      · simp [ih hp.2 hr hah]
    · next slot entry rest symbol known _ heq =>
      obtain ⟨rfl, rfl⟩ := List.cons.inj heq
      cases hc : entry.consumes with
      | false => rfl
      | true =>
        obtain ⟨hac, hl, hr⟩ := h.takes hc hah
        simp [hac, ih hp.2 hr hl]

/-! ## Entries in front of a match -/

section Matching

variable {rest : List Match} {captures : Captures} {result : Captures × Nat}

theorem matches_symbol {slot : Option Slot} {entry : Entry} (he : entry.consumes = true)
    (h : view.ahead pos = symbol :: more) (hac : entry.acceptsSymbol symbol = true)
    (hr : Matches (entryAt view) rest (pos + 1)
      (inSlot slot (.text symbol.text) ++ captures) result) :
    Matches (entryAt view) ((slot, entry) :: rest) pos captures result := by
  obtain ⟨rfl, -⟩ := View.ahead_cons h
  exact matches_token he (by rwa [← Entry.acceptsSymbol_symbol]) hr

section

variable (hv : view.IsFile)

include hv

/-- An expression that is read is captured, and nothing else is. -/
theorem matches_expression_iff
    (hn : (expressionAt view (headedRun entryAt) pos).outcome = .ok (node, next)) :
    Matches (entryAt view) (expression slot :: rest) pos captures result ↔
      Matches (entryAt view) rest next ((slot, .node node) :: captures) result := by
  have he : (entryAt view (expression slot) pos).outcome = .ok ([(slot, .node node)], next) := by
    rw [entryAt_eq hv.ended rfl]
    exact Attempt.outcome_bind_of_ok hn
  rw [Matches, he]
  rfl

theorem matches_expression
    (hn : (expressionAt view (headedRun entryAt) pos).outcome = .ok (node, next))
    (hr : Matches (entryAt view) rest next ((slot, .node node) :: captures) result) :
    Matches (entryAt view) (expression slot :: rest) pos captures result :=
  (matches_expression_iff hv hn).mpr hr

/-- There is no match of an expression where one would stop at once. -/
theorem not_matches_expression (h : stops (view.ahead pos) = true) :
    ¬ Matches (entryAt view) (expression slot :: rest) pos captures result := by
  intro hm
  obtain ⟨found, next, hf, -⟩ := hm.uncons rfl
  rw [entryAt_eq hv.ended rfl] at hf
  obtain ⟨answer, han, -⟩ := Attempt.outcome_bind_ok_iff.mp hf
  exact expressionAt_fails h answer han

theorem matches_present {slot : Option Slot} {group : List Match} {inside : Captures}
    (hg : (Entry.optional group).isPlain = true)
    (hi : Matches (entryAt view) group pos [] (inside, next))
    (hr : Matches (entryAt view) rest next (inSlot slot .present ++ inside ++ captures) result) :
    Matches (entryAt view) ((slot, .optional group) :: rest) pos captures result :=
  (matches_optional_cons rfl).mpr
    (.inl ⟨_, next, (optional_iff hv hg).mpr ⟨inside, hi, rfl⟩, hr⟩)

theorem matches_absent {slot : Option Slot} {group : List Match}
    (hg : (Entry.optional group).isPlain = true)
    (hab : ∀ inside next, ¬ Matches (entryAt view) group pos [] (inside, next))
    (hr : Matches (entryAt view) rest pos captures result) :
    Matches (entryAt view) ((slot, .optional group) :: rest) pos captures result := by
  refine (matches_optional_cons rfl).mpr (.inr ⟨?_, hr⟩)
  rintro ⟨found, next⟩ hf
  obtain ⟨inside, hi, -⟩ := (optional_iff hv hg).mp hf
  exact hab inside next hi

theorem matches_body_iff {terminators : List String} {nodes : List Node}
    (hn : (blockFrom view (statementAt view (entryAt view)) terminators
      (view.tokens.size + 2) pos []).outcome = .ok (nodes, next)) :
    Matches (entryAt view) (body slot terminators :: rest) pos captures result ↔
      Matches (entryAt view) rest next
        ((slot, .node ⟨.block nodes, view.peek pos⟩) :: captures) result := by
  have he : (entryAt view (body slot terminators) pos).outcome
      = .ok ([(slot, .node ⟨.block nodes, view.peek pos⟩)], next) := by
    rw [entryAt_eq hv.ended rfl]
    exact Attempt.outcome_bind_of_ok hn
  rw [Matches, he]
  rfl

theorem matches_body {terminators : List String} {nodes : List Node}
    (hn : (blockFrom view (statementAt view (entryAt view)) terminators
      (view.tokens.size + 2) pos []).outcome = .ok (nodes, next))
    (hr : Matches (entryAt view) rest next
      ((slot, .node ⟨.block nodes, view.peek pos⟩) :: captures) result) :
    Matches (entryAt view) (body slot terminators :: rest) pos captures result :=
  (matches_body_iff hv hn).mpr hr

end

/-- Words one after the other. -/
theorem matches_words {words : List String}
    (hw : ∀ text ∈ words, text ≠ "" ∧ Lexer.classify text ≠ .string)
    (h : view.ahead pos = words.map Symbol.word ++ more) :
    ∃ next, view.ahead next = more ∧ ∀ {entries captures result},
      Matches (entryAt view) entries next captures result →
      Matches (entryAt view) (words.map word ++ entries) pos captures result := by
  induction words generalizing pos with
  | nil => exact ⟨pos, h, id⟩
  | cons text words ih =>
    rw [List.forall_mem_cons] at hw
    obtain ⟨-, hl⟩ := View.ahead_cons h
    obtain ⟨next, hn, hm⟩ := ih hw.2 hl
    refine ⟨next, hn, fun hr => matches_symbol ?_ h ?_ (hm hr)⟩
    · simpa [Entry.consumes] using hw.1.1
    · simpa [Entry.acceptsSymbol, Symbol.word] using hw.1.2

variable (hv : view.IsFile)

include hv

/-- An expression behind words, which may be absent. -/
theorem matches_clause (words : List String)
    (hw : ∀ text ∈ words, text ≠ "" ∧ Lexer.classify text ≠ .string) {node : Option Node}
    (hnd : ∀ value ∈ node, Expressible value)
    (h : view.ahead pos
      = Phrase.rendering parenthesised (.clause (words.map Symbol.word) node) ++ more)
    (hs : stops more = true)
    (hab : words = [] ∨ fits (words.map word) [more.headD default] = false) :
    ∃ other next, view.ahead next = more ∧ other.map Node.erase = node.map Node.erase ∧
      ∀ {entries captures result},
        Matches (entryAt view) entries next
          ((match other with
            | some value => [(slot, .node value)]
            | none => []) ++ captures) result →
        Matches (entryAt view) (optionally (words.map word ++ [expression slot]) :: entries) pos
          captures result := by
  have hp : (Entry.optional (words.map word ++ [expression slot])).isPlain = true := by
    simp [Entry.isPlain, word, expression, capture, Entry.isOptional]
  cases node with
  | none =>
    refine ⟨none, pos, h, rfl, fun hr => matches_absent hv hp ?_ hr⟩
    intro inside next hi
    replace h : view.ahead pos = more := h
    cases words with
    | nil => exact not_matches_expression hv (by rw [h]; exact hs) hi
    | cons text words =>
      obtain ⟨symbol, tail, rfl, -⟩ := exists_of_stops hs
      have hc : (Entry.word text).consumes = true := by
        simpa [Entry.consumes] using (hw text (List.mem_cons_self ..)).1
      obtain ⟨hac, -, -⟩ := hi.takes hc h
      rcases hab with hnil | hf
      · cases hnil
      · have hfit : fits (word text :: words.map word) [symbol] = true := by
          simp only [word, fits, hc, hac]
          cases words <;> rfl
        rw [List.map_cons, List.headD_cons, hfit] at hf
        cases hf
  | some value =>
    obtain ⟨mid, hmid, hl⟩ := matches_words hw (h.trans (List.append_assoc ..))
    obtain ⟨other, next, ho, he, hn⟩ := (hnd value rfl).ahead hmid hs
    refine ⟨some other, next, hn, congrArg some he, fun hr => ?_⟩
    exact matches_present hv hp (hl (matches_expression hv ho rfl)) hr

/-- What the instances of a class share is marked. -/
theorem matches_sharedFlag (shared : Bool) {text : String} (ht : text ≠ "shared")
    (h : view.ahead pos = sharedMark shared ++ keyword text :: more) :
    ∃ next, view.ahead next = keyword text :: more ∧ ∀ {entries captures result},
      Matches (entryAt view) entries next
        ((if shared then [(.shared, .present)] else []) ++ captures) result →
      Matches (entryAt view) (sharedFlag :: entries) pos captures result := by
  cases shared with
  | true =>
    refine ⟨pos + 1, (View.ahead_cons h).2, fun hr => ?_⟩
    exact matches_present hv rfl (matches_symbol rfl h rfl rfl) hr
  | false =>
    refine ⟨pos, h, fun hr => matches_absent hv rfl (fun inside next hi => ?_) hr⟩
    obtain ⟨hac, -, -⟩ := hi.takes rfl h
    simp [Entry.acceptsSymbol, keyword, ht] at hac

/-- A class may have a parent. -/
theorem matches_parentClause {parent : Option String} (hp : ∀ name ∈ parent, IsType name)
    (h : view.ahead pos = parentClause parent ++ .lineEnd :: more) :
    ∃ next, view.ahead next = .lineEnd :: more ∧ ∀ {entries captures result},
      Matches (entryAt view) entries next
        ((match parent with
          | some name => [(.parent, .text name)]
          | none => []) ++ captures) result →
      Matches (entryAt view)
        (optionally [word "of", word "type", capture .parent .typeName] :: entries) pos captures
        result := by
  cases parent with
  | none =>
    refine ⟨pos, h, fun hr => matches_absent hv rfl (fun inside next hi => ?_) hr⟩
    exact absurd (hi.takes rfl h).1 (by decide)
  | some name =>
    obtain ⟨-, ht⟩ := View.ahead_cons h
    obtain ⟨-, hn⟩ := View.ahead_cons ht
    obtain ⟨-, hnx⟩ := View.ahead_cons hn
    refine ⟨_, hnx, fun hr => matches_present hv rfl (matches_symbol rfl h rfl
      (matches_symbol rfl ht rfl (matches_symbol rfl hn
        (acceptsSymbol_typeName (hp name rfl)) rfl))) hr⟩

end Matching

/-! ## Rules that do not match -/

/-- A rule does not match if the first symbols ahead do not fit it. -/
theorem matchRule_fails (hv : view.IsFile) (hr : rule ∈ statementRules)
    {known more : List Symbol} (hah : view.ahead pos = known ++ more)
    (hf : fits rule.entries known = false) :
    (matchRule view (entryAt view) rule pos).Fails := by
  rintro ⟨node, next⟩ hmt
  obtain ⟨captures, hmc, -⟩ := matchRule_ok_iff.mp hmt
  have hm := hmc.fits hv (isPlain_statementRules rule hr) hah
  rw [hf] at hm
  cases hm

theorem statementAt_of_fails (index : Nat) (hr : statementRules[index]? = some rule)
    (he : ∀ other ∈ statementRules.take index, (matchRule view (entryAt view) other pos).Fails)
    (hm : (matchRule view (entryAt view) rule pos).outcome = .ok (node, next)) :
    (statementAt view (entryAt view) pos).outcome = .ok (node, next) := by
  obtain ⟨hi, hget⟩ := List.getElem?_eq_some_iff.mp hr
  have hrl : statementRules
      = statementRules.take index ++ rule :: statementRules.drop (index + 1) := by
    rw [← hget, ← List.drop_eq_getElem_cons hi, List.take_append_drop]
  unfold statementAt
  rw [hrl]
  exact alternatives_of_fails he hm

/-- A rule decides if the first symbols ahead do not fit the rules in front of it. -/
theorem statementAt_of_rule (hv : view.IsFile) {known more : List Symbol}
    (hah : view.ahead pos = known ++ more) (index : Nat)
    (hr : statementRules[index]? = some rule)
    (he : ((statementRules.take index).all fun other => !fits other.entries known) = true)
    (hm : (matchRule view (entryAt view) rule pos).outcome = .ok (node, next)) :
    (statementAt view (entryAt view) pos).outcome = .ok (node, next) := by
  refine statementAt_of_fails index hr (fun other ho => ?_) hm
  refine matchRule_fails hv (List.mem_of_mem_take ho) hah ?_
  simpa using List.all_eq_true.mp he other ho

end StepScript.Grammar
