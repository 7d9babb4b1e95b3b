import StepScript.Proofs.Grammar.Completeness
set_option autoImplicit false

/-!
# Parsing loses and invents nothing

Whatever the parser makes of a source, the rendering of the tree says the same as the source:
they agree in all that matters (`significant`), and the rendering is parsed into the tree again,
up to the places of tokens (`parse_tokenize`).
-/

namespace StepScript

variable {name : String} {list : List Symbol} {tokens : Array Token} {nodes : List Node}

/-! ## Symbols of the lexer -/

namespace Symbol

theorem lexical_iff {symbol : Symbol} :
    symbol.Lexical ↔ symbol.kind = .string ∨ symbol = lineEnd ∨ symbol = fileEnd ∨
      symbol = word symbol.text := by
  constructor
  · intro h
    cases h <;> simp [word]
  · obtain ⟨kind, text⟩ := symbol
    rintro (rfl | h | h | h)
    · exact .ofString text
    · exact h ▸ .ofLineEnd
    · exact h ▸ .ofFileEnd
    · exact h ▸ .ofWord text

instance (symbol : Symbol) : Decidable symbol.Lexical := decidable_of_iff' _ lexical_iff

theorem lexical_identifier (h : Grammar.IsIdentifier name) : (identifier name).Lexical := by
  have hw : identifier name = word name := by
    rw [word, show Lexer.classify name = .identifier from h]
    rfl
  rw [hw]
  exact .ofWord name

theorem lexical_typeName (h : Grammar.IsType name) : (typeName name).Lexical := by
  have hw : typeName name = word name := by
    rw [word, h.1]
    rfl
  rw [hw]
  exact .ofWord name

end Symbol

namespace Grammar

open Symbol (keyword identifier leftParen rightParen comma assign dot fileEnd)

/-- The symbols are ones that the lexer makes. -/
def LexicalList (list : List Symbol) : Prop := ∀ symbol ∈ list, symbol.Lexical

@[simp] theorem lexicalList_nil : LexicalList [] := by simp [LexicalList]

@[simp] theorem lexicalList_cons {symbol : Symbol} :
    LexicalList (symbol :: list) ↔ symbol.Lexical ∧ LexicalList list :=
  List.forall_mem_cons

@[simp] theorem lexicalList_append {first second : List Symbol} :
    LexicalList (first ++ second) ↔ LexicalList first ∧ LexicalList second :=
  List.forall_mem_append

theorem lexicalList_sharedMark (shared : Bool) : LexicalList (sharedMark shared) := by
  cases shared <;> simp +decide [sharedMark]

theorem lexicalList_parentClause {parent : Option String} (h : ∀ name ∈ parent, IsType name) :
    LexicalList (parentClause parent) := by
  cases parent with
  | none => simp [parentClause]
  | some name => simp +decide [parentClause, Symbol.lexical_typeName (h name rfl)]

set_option maxRecDepth 2000 in
theorem lexical_order (order : UpdateOrder) : LexicalList
    [identifier "update", identifier "order", identifier order.text] := by
  cases order <;> simp +decide

/-- Whatever is read is made of symbols of the lexer. -/
theorem Reads.lexicalList {phrase : Phrase} (h : Reads phrase list)
    (hl : LexicalList phrase.lead) : LexicalList list := by
  induction h with
  | leaf lexical => simpa using lexical
  | @unary op _ _ _ _ ih => cases op <;> simpa +decide using ih lexicalList_nil
  | contract contract _ named =>
    cases contract <;> simp +decide [Contract.text, Symbol.lexical_typeName named]
  | updateOrder order => exact lexical_order order
  | waitForUpdate =>
    obtain ⟨hu, -⟩ := lexicalList_cons.mp (lexical_order .normal)
    simp only [lexicalList_cons, lexicalList_nil, and_true]
    exact ⟨by decide, by decide, hu⟩
  | _ =>
    simp_all +decide [Phrase.lead, Symbol.lexical_identifier, Symbol.lexical_typeName,
      lexicalList_sharedMark, lexicalList_parentClause]

/-! ## Sources and renderings -/

/-- Tokens that spell the rendering of lines make a source. -/
theorem Reads.isSource (h : Reads (.lines nodes) list)
    (ht : symbols tokens.toList = linesRendering parenthesised nodes ++ [fileEnd]) :
    IsSource tokens (linesRendering parenthesised nodes) where
  symbols_eq := ht
  lexical := fun symbol hs =>
    ⟨h.rendering.lexicalList lexicalList_nil symbol hs,
      h.rendering.noFileEnd noFileEnd_nil symbol hs⟩

/-- Tokens that spell the rendering of lines are parsed into the statements of the lines. -/
theorem Reads.parse_rendering (h : Reads (.lines nodes) list)
    (ht : symbols tokens.toList = linesRendering parenthesised nodes ++ [fileEnd])
    (name : String) :
    ∃ others first, parse tokens name = .ok ⟨.file name others, first⟩ ∧
      eraseAll others = eraseAll nodes := by
  have hs := h.isSource ht
  obtain ⟨lines, last, hl, -, hls⟩ := hs.exists_lines
  have hv := hs.isFile hls
  have hg : LinesGiven nodes := h.given
  have hah : View.ahead ⟨tokens, last⟩ 0 = linesRendering parenthesised nodes ++ [fileEnd] := ht
  obtain ⟨others, next, ho, he, -⟩ := hg.body hv [] hah (by simp) rfl
  have hsz : 0 < tokens.size := by
    rw [← Array.length_toList, hl]
    simp
  refine ⟨others, tokens[0], ?_, he⟩
  unfold parse
  rw [IsSource.back?_eq hl, Array.getElem?_eq_getElem hsz]
  dsimp only
  split
  · next found stop recorded hb =>
    obtain ⟨rfl, -⟩ := Prod.mk.inj (Except.ok.inj ((congrArg Attempt.outcome hb).symm.trans ho))
    rfl
  · next fault recorded hb => cases (congrArg Attempt.outcome hb).symm.trans ho

/-- What matters in a rendering is the rendering without grouping parentheses. -/
theorem Reads.significant_canonical (h : Reads (.lines nodes) list) (name : String)
    (first : Token) :
    significant (Node.canonical ⟨.file name nodes, first⟩) = Node.bare ⟨.file name nodes, first⟩ :=
  h.rendering.significant_eq

/-- What matters in a source is the rendering of its tree without grouping parentheses. -/
theorem significant_of_parse {body : List Symbol} (hs : IsSource tokens body)
    (hl : body = [] ∨ body.getLast? = some .lineEnd) {file : Node}
    (h : parse tokens name = .ok file) :
    significant (symbols tokens.toList) = file.bare := by
  obtain ⟨nodes, first, rfl, hr | hr⟩ := parse_reads hs h
  · rw [hs.symbols_eq]
    exact hr.significant_eq
  · rw [hs.symbols_eq, ← significant_lineEnd hl, List.append_cons]
    exact hr.significant_eq

/-- The tree of a source loses nothing of the source and adds nothing to it.  The source and the
rendering of the tree agree in all that matters, and any tokens that spell the rendering are
parsed into the tree again, up to the places of tokens. -/
theorem parse_loses_and_invents_nothing {text source name : String} {file : Node}
    (h : parse (tokenize text source) name = .ok file) :
    significant (symbols (tokenize text source).toList) = significant file.canonical ∧
      significant file.canonical = file.bare ∧
      ∀ tokens : Array Token, symbols tokens.toList = file.canonical →
        ∃ other, parse tokens name = .ok other ∧ other.erase = file.erase := by
  obtain ⟨body, hsource, hlast⟩ := isSource_tokenize text source
  have hsignificant := significant_of_parse hsource hlast h
  obtain ⟨nodes, first, rfl, hreads⟩ := parse_reads hsource h
  obtain ⟨list, hreads⟩ : ∃ list, Reads (.lines nodes) list := hreads.elim (⟨_, ·⟩) (⟨_, ·⟩)
  have hcanonical := hreads.significant_canonical name first
  refine ⟨hsignificant.trans hcanonical.symm, hcanonical, fun tokens htokens => ?_⟩
  obtain ⟨others, start, hparse, herase⟩ := hreads.parse_rendering htokens name
  exact ⟨_, hparse, by rw [Node.erase_file, herase, Node.erase_file]⟩

/-- A source with a blank line, parentheses that can be left out, and `==`. -/
def sparedSource : String := "function f()\n\nif x == (1 + 2) * (y) then return new A()\nend\n"

/-- The rendering of its tree. -/
def sparedRendering : String := "function f\nif x is (1 + 2) * y then return new A\nend\n"

theorem parse_loses_and_invents_nothing_spared : ∃ file other,
    parse (tokenize sparedSource "main") "main" = .ok file ∧
      significant (symbols (tokenize sparedSource "main").toList) = significant file.canonical ∧
      symbols (tokenize sparedRendering "main").toList = file.canonical ∧
      parse (tokenize sparedRendering "main") "main" = .ok other ∧ other.erase = file.erase := by
  have hrendering : (parse (tokenize sparedSource "main") "main").toOption.map Node.canonical
      = some (symbols (tokenize sparedRendering "main").toList) := by decide +kernel
  cases hparse : parse (tokenize sparedSource "main") "main" with
  | error fault =>
    rw [hparse] at hrendering
    cases hrendering
  | ok file =>
    rw [hparse] at hrendering
    have htokens := (Option.some.inj hrendering).symm
    obtain ⟨hsignificant, -, hagain⟩ := parse_loses_and_invents_nothing hparse
    obtain ⟨other, hother, herase⟩ := hagain _ htokens
    exact ⟨file, other, rfl, hsignificant, htokens, hother, herase⟩

end Grammar

end StepScript
