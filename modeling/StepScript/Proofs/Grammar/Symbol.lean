import StepScript.Grammar.Parser
set_option autoImplicit false

/-!
# Symbols

A symbol is a token without its place.  The lexer gives every symbol the kind that its text
calls for, so that a word of the grammar can be read off a token in one way only
(`Symbol.Lexical.eq_word`), and an operator is known by its kind up to its spelling.
-/

namespace StepScript

/-- Kind and text of a token. -/
structure Symbol where
  kind : TokenKind
  text : String
  deriving DecidableEq, Repr, Inhabited

/-- The token without its place. -/
def Token.symbol (token : Token) : Symbol := ⟨token.kind, token.text⟩

@[simp] theorem Token.symbol_kind (token : Token) : token.symbol.kind = token.kind := rfl

namespace Symbol

/-- The symbol that a text is read as, outside of strings. -/
def word (text : String) : Symbol := ⟨Lexer.classify text, text⟩

/-- The end of a line. -/
def lineEnd : Symbol := ⟨.endOfLine, ""⟩

/-- The end of a file. -/
def fileEnd : Symbol := ⟨.endOfFile, ""⟩

/-- A symbol that the lexer makes: a string, the end of a line or file, or a text with the
kind that it calls for. -/
inductive Lexical : Symbol → Prop where
  | ofString (text : String) : Lexical ⟨.string, text⟩
  | ofLineEnd : Lexical lineEnd
  | ofFileEnd : Lexical fileEnd
  | ofWord (text : String) : Lexical (word text)

end Symbol

/-! ## Texts and kinds -/

namespace Lexer

/-- What is neither an operator nor a keyword. -/
theorem classify_of_not_reserved {text : String} (h : TokenKind.reserved? text = none) :
    classify text = .unknown ∨ classify text = .typeName ∨ classify text = .identifier ∨
      classify text = .number := by
  unfold classify
  rw [h]
  dsimp only
  split
  · exact .inl rfl
  · repeat' split
    all_goals simp

theorem mem_of_lookup {key : String} {value : TokenKind} {pairs : List (String × TokenKind)}
    (h : pairs.lookup key = some value) : (key, value) ∈ pairs := by
  obtain ⟨before, after, rfl, -⟩ := List.lookup_eq_some_iff.mp h
  simp

/-- A text is a keyword, an operator, or it has one of the kinds of other words. -/
theorem classify_cases (text : String) :
    (classify text = .keyword ∧ text ∈ TokenKind.keywords) ∨
      (text, classify text) ∈ TokenKind.signs ++ TokenKind.wordOperators ∨
      (classify text = .unknown ∨ classify text = .typeName ∨ classify text = .identifier ∨
        classify text = .number) := by
  cases hr : TokenKind.reserved? text with
  | none => exact .inr (.inr (classify_of_not_reserved hr))
  | some kind =>
    have hkn : classify text = kind := by
      unfold classify
      rw [hr]
    rw [hkn]
    unfold TokenKind.reserved? at hr
    split at hr
    · next sign hs =>
      obtain rfl := Option.some.inj hr
      exact .inr (.inl (List.mem_append_left _ (mem_of_lookup hs)))
    · split at hr
      · next hk => exact .inl ⟨(Option.some.inj hr).symm, List.contains_iff_mem.mp hk⟩
      · exact .inr (.inl (List.mem_append_right _ (mem_of_lookup hr)))

end Lexer

namespace Symbol

variable {symbol : Symbol}

/-- A symbol that reads as a word of the grammar is that word. -/
theorem Lexical.eq_word (h : symbol.Lexical) {text : String} (ht : symbol.text = text)
    (hk : symbol.kind ≠ .string) (hne : text ≠ "") : symbol = word text := by
  cases h with
  | ofString other => exact absurd rfl hk
  | ofLineEnd => exact absurd ht.symm hne
  | ofFileEnd => exact absurd ht.symm hne
  | ofWord other =>
    obtain rfl : other = text := ht
    rfl

/-- What the kind of a symbol says about it. -/
theorem Lexical.cases_kind (h : symbol.Lexical) :
    symbol.kind = .string ∨ symbol = lineEnd ∨ symbol = fileEnd ∨
      (symbol.kind = .keyword ∧ symbol.text ∈ TokenKind.keywords) ∨
      (symbol.text, symbol.kind) ∈ TokenKind.signs ++ TokenKind.wordOperators ∨
      (symbol.kind = .unknown ∨ symbol.kind = .typeName ∨ symbol.kind = .identifier ∨
        symbol.kind = .number) := by
  cases h with
  | ofString text => exact .inl rfl
  | ofLineEnd => exact .inr (.inl rfl)
  | ofFileEnd => exact .inr (.inr (.inl rfl))
  | ofWord text => exact .inr (.inr (.inr (Lexer.classify_cases text)))

/-- The end of a line is known by its kind. -/
theorem Lexical.eq_lineEnd (h : symbol.Lexical) (hk : symbol.kind = .endOfLine) :
    symbol = lineEnd := by
  rcases h.cases_kind with h | h | h | h | h | h
  · simp [hk] at h
  · exact h
  · simp [h, fileEnd] at hk
  all_goals simp [hk, TokenKind.signs, TokenKind.wordOperators] at h

/-- The end of the file is known by its kind. -/
theorem Lexical.eq_fileEnd (h : symbol.Lexical) (hk : symbol.kind = .endOfFile) :
    symbol = fileEnd := by
  rcases h.cases_kind with h | h | h | h | h | h
  · simp [hk] at h
  · simp [h, lineEnd] at hk
  · exact h
  all_goals simp [hk, TokenKind.signs, TokenKind.wordOperators] at h

/-- A name is the word that it reads as. -/
theorem Lexical.classify_text (h : symbol.Lexical) {kind : TokenKind}
    (hk : symbol.kind = kind)
    (hn : kind = .identifier ∨ kind = .typeName) : Lexer.classify symbol.text = kind := by
  cases h with
  | ofWord text => exact hk
  | _ => subst hk; rcases hn with hn | hn <;> cases hn

/-! ## Operators -/

/-- The kinds that two texts spell; the rest of the operators have one spelling each. -/
def spelledTwice (kind : TokenKind) : Bool := kind == .equal || kind == .notEqual

/-- The symbol in the spelling that renderings use. -/
def canonical (symbol : Symbol) : Symbol :=
  match symbol.kind with
  | .equal => word "is"
  | .notEqual => word "isnt"
  | _ => symbol

@[simp] theorem canonical_kind (symbol : Symbol) : symbol.canonical.kind = symbol.kind := by
  unfold canonical
  split
  · next hk => rw [hk]; decide
  · next hk => rw [hk]; decide
  · rfl

/-- An operator is known by its kind, unless the kind has two spellings. -/
theorem Lexical.eq_sign (h : symbol.Lexical) {text : String} {kind : TokenKind}
    (hs : (text, kind) ∈ TokenKind.signs ++ TokenKind.wordOperators)
    (hk : symbol.kind = kind) (ho : spelledTwice kind = false) : symbol = ⟨kind, text⟩ := by
  have hu : ∀ sign ∈ TokenKind.signs ++ TokenKind.wordOperators,
      ∀ other ∈ TokenKind.signs ++ TokenKind.wordOperators, sign.2 = other.2 →
        spelledTwice sign.2 = false → sign = other := by decide
  have hw : ∀ sign ∈ TokenKind.signs ++ TokenKind.wordOperators,
      sign.2 ≠ .string ∧ sign.2 ≠ .endOfLine ∧ sign.2 ≠ .endOfFile ∧ sign.2 ≠ .keyword ∧
        sign.2 ≠ .unknown ∧ sign.2 ≠ .typeName ∧ sign.2 ≠ .identifier ∧ sign.2 ≠ .number := by
    decide
  have hnot := hw (text, kind) hs
  rcases h.cases_kind with h | rfl | rfl | h | h | h
  · exact absurd (hk.symm.trans h) hnot.1
  · exact absurd hk.symm hnot.2.1
  · exact absurd hk.symm hnot.2.2.1
  · exact absurd (hk.symm.trans h.1) hnot.2.2.2.1
  · have heq := hu _ h _ hs hk (by rw [← ho, ← hk])
    obtain ⟨ht, -⟩ := Prod.mk.inj heq
    cases symbol
    simp_all
  · simp_all

end Symbol

/-- The kind of the operator of an operation. -/
def BinaryOp.kind : BinaryOp → TokenKind
  | .add => .plus
  | .sub => .minus
  | .mul => .star
  | .div => .slash
  | .mod => .percent
  | .equal => .equal
  | .notEqual => .notEqual
  | .less => .less
  | .lessEqual => .lessEqual
  | .greater => .greater
  | .greaterEqual => .greaterEqual
  | .and => .and
  | .or => .or

/-- The operator of an operation. -/
def BinaryOp.symbol (op : BinaryOp) : Symbol := ⟨op.kind, op.text⟩

/-- The kind of the operator in front of its operand. -/
def UnaryOp.kind : UnaryOp → TokenKind
  | .negate => .minus
  | .not => .not

/-- The operator in front of its operand. -/
def UnaryOp.symbol (op : UnaryOp) : Symbol := ⟨op.kind, op.text⟩

theorem BinaryOp.kind_of_ofKind? {kind : TokenKind} {op : BinaryOp}
    (h : BinaryOp.ofKind? kind = some op) : kind = op.kind := by
  cases kind <;> simp only [ofKind?, Option.some.injEq, reduceCtorEq] at h <;> subst h <;> rfl

@[simp] theorem BinaryOp.ofKind?_kind (op : BinaryOp) : BinaryOp.ofKind? op.kind = some op := by
  cases op <;> rfl

/-- The operator of an operation is known up to its spelling. -/
theorem Symbol.Lexical.canonical_eq {symbol : Symbol} (h : symbol.Lexical) {op : BinaryOp}
    (hop : BinaryOp.ofKind? symbol.kind = some op) : symbol.canonical = op.symbol := by
  have hk := BinaryOp.kind_of_ofKind? hop
  cases ht : Symbol.spelledTwice op.kind with
  | true =>
    unfold Symbol.canonical
    rw [hk]
    cases op <;> first | rfl | cases ht
  | false =>
    have hs : (op.text, op.kind) ∈ TokenKind.signs ++ TokenKind.wordOperators := by
      cases op <;> decide
    rw [h.eq_sign hs hk ht]
    cases op <;> rfl

/-! ## The symbols of a source -/

namespace Lexer

/-- Kind and text of a piece. -/
def Piece.symbol (piece : Piece) : Symbol := ⟨piece.kind, piece.text⟩

theorem classify_ne_endOfFile (text : String) : classify text ≠ .endOfFile := by
  intro hk
  have hw : Symbol.word text = Symbol.fileEnd := (Symbol.Lexical.ofWord text).eq_fileEnd hk
  obtain ⟨-, rfl⟩ := Symbol.mk.inj hw
  revert hk
  decide

/-- The pieces of a line are texts with the kinds that they call for, and strings. -/
theorem lexical_piecesFrom (line : List Char) (comment : Bool) (resume : Nat)
    (lexemes : List Lexeme) : ∀ piece ∈ (piecesFrom line comment resume lexemes).1,
      piece.symbol.Lexical ∧ piece.kind ≠ .endOfFile := by
  induction lexemes generalizing comment resume with
  | nil => simp [piecesFrom]
  | cons lexeme rest ih =>
    unfold piecesFrom
    split
    · exact ih comment resume
    · split
      · exact ih _ resume
      · split
        · simp
        · exact ih true resume
        · intro piece hp
          rcases List.mem_cons.mp hp with rfl | hr
          · exact ⟨.ofString _, by simp⟩
          · exact ih false _ piece hr
        · intro piece hp
          rcases List.mem_cons.mp hp with rfl | hr
          · exact ⟨.ofWord _, classify_ne_endOfFile _⟩
          · exact ih false resume piece hr

/-- The symbols of the lines of a source: the end of each line stands behind it. -/
theorem symbols_sourcePieces (comment : Bool) (line : Nat) (lines : List String) :
    let symbols := (sourcePieces comment line lines).map fun entry => entry.2.symbol
    (∀ symbol ∈ symbols, symbol.Lexical ∧ symbol.kind ≠ .endOfFile) ∧
      (symbols = [] ∨ symbols.getLast? = some Symbol.lineEnd) := by
  induction lines generalizing comment line with
  | nil => simp [sourcePieces]
  | cons text rest ih =>
    obtain ⟨hr, hl⟩ := ih (linePieces comment text.toList).2 (line + 1)
    have hpc := lexical_piecesFrom text.toList comment 0 (lexemes text.toList)
    unfold sourcePieces linePieces
    simp only [List.map_append, List.map_map, List.map_cons, List.map_nil]
    refine ⟨fun symbol hs => ?_, .inr ?_⟩
    · rcases List.mem_append.mp hs with hln | hlt
      · rcases List.mem_append.mp hln with hp | hend
        · obtain ⟨piece, hmem, rfl⟩ := List.mem_map.mp hp
          exact hpc piece hmem
        · obtain rfl := List.mem_singleton.mp hend
          exact ⟨.ofLineEnd, by simp [Piece.symbol]⟩
      · exact hr symbol hlt
    · rcases hl with hnil | hl
      · unfold linePieces at hnil
        simp only at hnil
        rw [hnil]
        simp [Symbol.lineEnd, Piece.symbol]
      · unfold linePieces at hl
        simp only at hl
        rw [List.getLast?_append, hl]
        rfl

end Lexer

/-- The symbols of a source are those of its lines, and the end of the file behind them. -/
theorem symbols_tokenize (text source : String) :
    ∃ body, (tokenize text source).toList.map Token.symbol = body ++ [Symbol.fileEnd] ∧
      (∀ symbol ∈ body, symbol.Lexical ∧ symbol.kind ≠ .endOfFile) ∧
      (body = [] ∨ body.getLast? = some Symbol.lineEnd) := by
  have hl := Lexer.symbols_sourcePieces false 1
    ((Lexer.splitLines text.toList).map String.ofList)
  refine ⟨_, ?_, hl⟩
  unfold tokenize tokenizeLines
  dsimp only
  generalize Lexer.sourcePieces false 1 _ = pieces
  generalize Lexer.endPlace _ = place
  have hf := List.zipIdx_map_fst 0
    (pieces ++ [(place.1, ⟨.endOfFile, "", place.2, place.2⟩)])
  have hs := congrArg (List.map fun entry => entry.2.symbol) hf
  rw [List.map_map, List.map_append] at hs
  rw [List.map_map]
  exact hs

end StepScript
