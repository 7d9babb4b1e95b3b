import StepScript.Proofs.Grammar.Symbol
set_option autoImplicit false

/-!
# The positions of tokens

A line is cut into lexemes that do not overlap, with only spaces between them (`Cuts`).  The
second pass takes a string by its columns and passes over the lexemes within it.  No lexeme
stands across the end of a string, because a quote is always a lexeme of its own.  Hence the
pieces of a line and the lexemes of its comments account for every character (`Laid`).
-/

namespace StepScript

namespace Lexer

variable {chars : List Char} {column : Nat} {lexemes : List Lexeme}

/-! ## Lexemes -/

/-- The lexemes are those of `chars` from `column` on: one behind the other, with spaces
between them, and a quote is a lexeme of its own. -/
inductive Cuts (chars : List Char) : Nat → List Lexeme → Prop where
  | done : Cuts chars chars.length []
  | space {column : Nat} {c : Char} {lexemes : List Lexeme} (hc : chars[column]? = some c)
      (hs : isSpace c = true) (rest : Cuts chars (column + 1) lexemes) : Cuts chars column lexemes
  | lexeme {column : Nat} {text : List Char} {lexemes : List Lexeme} (hne : text ≠ [])
      (ht : text <+: chars.drop column) (hq : '"' ∈ text → text = ['"'])
      (rest : Cuts chars (column + text.length) lexemes) :
      Cuts chars column (⟨column, text⟩ :: lexemes)

/-- A lexeme ends within the line, and behind its first character it has no quote. -/
theorem tailLength_spec (c : Char) (rest : List Char) :
    tailLength c rest ≤ rest.length ∧ '"' ∉ rest.take (tailLength c rest) := by
  have hw {p : Char → Bool} (hp : p '"' = false) (cs : List Char) :
      (cs.takeWhile p).length ≤ cs.length ∧ '"' ∉ cs.take (cs.takeWhile p).length := by
    refine ⟨(List.takeWhile_prefix p).length_le, ?_⟩
    rw [← List.prefix_iff_eq_take.mp (List.takeWhile_prefix p)]
    intro hm
    have hq := List.all_eq_true.mp (List.all_takeWhile (p := p) (l := cs)) _ hm
    rw [hp] at hq
    cases hq
  unfold tailLength
  split
  · unfold numberTail
    dsimp only
    split
    · next more hd =>
      split
      · exact hw rfl rest
      · have hl := congrArg List.length hd
        have hm := hw (p := Char.isDigit) rfl more
        simp only [List.length_drop, List.length_cons] at hl
        refine ⟨by omega, ?_⟩
        rw [Nat.add_assoc, List.take_add, hd, Nat.add_comm 1, List.take_succ_cons]
        simpa using ⟨(hw rfl rest).2, hm.2⟩
    · exact hw rfl rest
  · split
    · exact hw rfl rest
    · split
      · next d more =>
        split
        · next hs =>
          refine ⟨by simp, ?_⟩
          simp only [List.take_succ_cons, List.take_zero, List.mem_singleton]
          rintro rfl
          simp [longSigns] at hs
        · simp
      · simp

/-- The lexemes of a line are cut out of it. -/
theorem cuts_lexemesFrom (chars : List Char) (column : Nat) (cs : List Char)
    (hcs : chars.drop column = cs) (hc : column ≤ chars.length) :
    Cuts chars column (lexemesFrom column cs) := by
  fun_induction lexemesFrom column cs with
  | case1 column =>
    obtain rfl : column = chars.length := by
      have hl := List.drop_eq_nil_iff.mp hcs
      omega
    exact .done
  | case2 column c rest hs ih =>
    have hg : chars[column]? = some c := by
      rw [← List.head?_drop, hcs]
      rfl
    have hlt := (List.getElem?_eq_some_iff.mp hg).1
    exact .space hg hs (ih (by rw [← List.tail_drop, hcs]; rfl) hlt)
  | case3 column c rest hs extra ih =>
    obtain ⟨hx, hnq⟩ : extra ≤ rest.length ∧ '"' ∉ rest.take extra := tailLength_spec c rest
    have hd : chars.drop (column + 1 + extra) = rest.drop extra := by
      rw [← List.drop_drop, ← List.tail_drop, hcs]
      rfl
    have hlen := congrArg List.length hcs
    simp only [List.length_drop, List.length_cons] at hlen
    refine .lexeme (List.cons_ne_nil _ _) ?_ ?_ ?_
    · rw [hcs]
      exact (List.prefix_cons_inj c).mpr (List.take_prefix extra rest)
    · intro hq
      rcases List.mem_cons.mp hq with rfl | hq
      · have he : extra = 0 := by cases rest <;> rfl
        rw [he, List.take_zero]
      · exact absurd hq hnq
    · rw [List.length_cons, List.length_take_of_le hx]
      have hi := ih hd (by omega)
      rwa [show column + (extra + 1) = column + 1 + extra by omega]

/-- Every character behind `column` is a space or stands in a lexeme. -/
theorem Cuts.covered (h : Cuts chars column lexemes) {place : Nat} (hp : column ≤ place)
    (hl : place < chars.length) : (∃ c, chars[place]? = some c ∧ isSpace c = true) ∨
      ∃ lexeme ∈ lexemes, lexeme.column ≤ place ∧
        place < lexeme.column + lexeme.text.length := by
  induction h with
  | done => omega
  | @space column c _ hc hs _ ih =>
    by_cases he : column = place
    · exact .inl ⟨c, he ▸ hc, hs⟩
    · exact ih (by omega)
  | @lexeme column text _ hne ht hq rest ih =>
    by_cases he : place < column + text.length
    · exact .inr ⟨_, List.mem_cons_self .., hp, he⟩
    · exact (ih (by omega)).imp_right fun ⟨other, hm, hi⟩ =>
        ⟨other, List.mem_cons_of_mem _ hm, hi⟩

/-! ## Strings -/

/-- The column of the last character of the string that starts at `column`: the next quote,
or the end of the line. -/
def lastOfString (chars : List Char) (column : Nat) : Nat :=
  match (chars.drop (column + 1)).findIdx? (· == '"') with
  | some offset => column + 1 + offset
  | none => chars.length - 1

/-- What is taken behind a quote goes up to the next quote and with it, or to the end. -/
theorem takeWhile_quote (rest : List Char) :
    let body := rest.takeWhile (· != '"')
    body ++ (rest.drop body.length).take 1 =
      match rest.findIdx? (· == '"') with
      | some offset => rest.take (offset + 1)
      | none => rest := by
  induction rest with
  | nil => rfl
  | cons c rest ih =>
    rw [List.findIdx?_cons]
    by_cases hc : c = '"'
    · simp [hc]
    · dsimp only at ih ⊢
      simp only [List.takeWhile_cons, bne_iff_ne, ne_eq, hc, not_false_eq_true, if_true,
        List.length_cons, List.drop_succ_cons, List.cons_append, ih, beq_iff_eq, if_false]
      cases rest.findIdx? (· == '"') <;> simp

/-- A string that starts in its line ends in it, and it is all that stands between. -/
theorem stringAt_eq (hq : chars[column]? = some '"') :
    column ≤ lastOfString chars column ∧ lastOfString chars column < chars.length ∧
      stringAt chars column = (chars.drop column).take (lastOfString chars column + 1 - column) ∧
      (lastOfString chars column + 1 = chars.length ∨
        chars[lastOfString chars column]? = some '"') := by
  have hlt := (List.getElem?_eq_some_iff.mp hq).1
  have hd : chars.drop column = '"' :: chars.drop (column + 1) := by
    rw [List.drop_eq_getElem_cons hlt, (List.getElem?_eq_some_iff.mp hq).2]
  have hb := takeWhile_quote (chars.drop (column + 1))
  unfold stringAt lastOfString
  rw [hd]
  dsimp only at hb ⊢
  rw [List.cons_append, hb]
  cases hf : (chars.drop (column + 1)).findIdx? (· == '"') with
  | none =>
    dsimp only
    refine ⟨by omega, by omega, ?_, .inl (by omega)⟩
    rw [List.take_of_length_le]
    simp only [List.length_cons, List.length_drop]
    omega
  | some offset =>
    obtain ⟨hol, hoq, -⟩ := List.findIdx?_eq_some_iff_getElem.mp hf
    rw [List.length_drop] at hol
    rw [List.getElem_drop, beq_iff_eq] at hoq
    dsimp only
    refine ⟨by omega, by omega, ?_, .inr (List.getElem?_eq_some_iff.mpr ⟨by omega, hoq⟩)⟩
    rw [show column + 1 + offset + 1 - column = offset + 1 + 1 by omega, List.take_succ_cons]

/-! ## Pieces of a line -/

/-- The lexemes of `chars` that are passed over as part of a comment. -/
def skippedFrom (chars : List Char) : (comment : Bool) → (resume : Nat) → List Lexeme →
    List Lexeme
  | _, _, [] => []
  | comment, resume, lexeme :: rest =>
    if lexeme.column < resume then skippedFrom chars comment resume rest
    else if comment then
      lexeme :: skippedFrom chars (lexeme.text != ['*', '/']) resume rest
    else if lexeme.text = ['/', '/'] then lexeme :: rest
    else if lexeme.text = ['/', '*'] then lexeme :: skippedFrom chars true resume rest
    else if lexeme.text = ['"'] then
      skippedFrom chars false (lastOfString chars lexeme.column + 1) rest
    else skippedFrom chars false resume rest

/-- A character of the line stands in a piece, is a space or has been skipped. -/
def Accounted (chars : List Char) (pieces : List Piece) (skipped : List Lexeme) (place : Nat) :
    Prop :=
  (∃ piece ∈ pieces, piece.start ≤ place + 1 ∧ place + 1 ≤ piece.stop) ∨
  (∃ c, chars[place]? = some c ∧ isSpace c = true) ∨
  ∃ lexeme ∈ skipped, lexeme.column ≤ place ∧ place < lexeme.column + lexeme.text.length

/-- Pieces and skipped lexemes account for the line from `column` on: the pieces are not
empty, stand in the line one behind the other and read what stands there. -/
structure Laid (chars : List Char) (column : Nat) (pieces : List Piece)
    (skipped : List Lexeme) : Prop where
  within : ∀ piece ∈ pieces, column < piece.start ∧ piece.start ≤ piece.stop ∧
    piece.stop ≤ chars.length ∧
    piece.text.toList = (chars.drop (piece.start - 1)).take (piece.stop + 1 - piece.start)
  apart : pieces.Pairwise fun piece later => piece.stop < later.start
  rest : ∀ place, column ≤ place → place < chars.length → Accounted chars pieces skipped place

variable {pieces : List Piece} {skipped : List Lexeme} {stop : Nat}

/-- Spaces and skipped lexemes in front of a part that is accounted for. -/
theorem Laid.back {more : List Lexeme} (h : Laid chars stop pieces skipped) (hle : column ≤ stop)
    (hs : skipped ⊆ more)
    (hf : ∀ place, column ≤ place → place < stop → Accounted chars pieces more place) :
    Laid chars column pieces more where
  within piece hp := ⟨Nat.lt_of_le_of_lt hle (h.within piece hp).1, (h.within piece hp).2⟩
  apart := h.apart
  rest place hp hl := by
    by_cases he : place < stop
    · exact hf place hp he
    · exact (h.rest place (by omega) hl).imp_right (·.imp_right fun ⟨lexeme, hm, hi⟩ =>
        ⟨lexeme, hs hm, hi⟩)

/-- A skipped lexeme in front of it. -/
theorem Laid.skip {text : List Char} (h : Laid chars (column + text.length) pieces skipped) :
    Laid chars column pieces (⟨column, text⟩ :: skipped) :=
  h.back (Nat.le_add_right ..) (List.subset_cons_self ..) fun _ hp hl =>
    .inr (.inr ⟨_, List.mem_cons_self .., hp, hl⟩)

/-- A piece in front of it. -/
theorem Laid.cons {kind : TokenKind} {text : String}
    (h : Laid chars stop pieces skipped) (hlt : column < stop) (hl : stop ≤ chars.length)
    (ht : text.toList = (chars.drop column).take (stop - column)) :
    Laid chars column (⟨kind, text, column + 1, stop⟩ :: pieces) skipped where
  within := by
    simp only [List.forall_mem_cons, Nat.add_sub_cancel, Nat.add_sub_add_right]
    refine ⟨⟨by omega, by omega, hl, ht⟩, fun piece hp => ?_⟩
    have hw := h.within piece hp
    exact ⟨by omega, hw.2⟩
  apart := List.pairwise_cons.mpr ⟨fun piece hp => (h.within piece hp).1, h.apart⟩
  rest place hp hpl := by
    by_cases he : place < stop
    · exact .inl ⟨_, List.mem_cons_self .., by simpa using hp, he⟩
    · exact (h.rest place (by omega) hpl).imp_left fun ⟨piece, hm, hi⟩ =>
        ⟨piece, List.mem_cons_of_mem _ hm, hi⟩

theorem getElem?_of_prefix {text : List Char} (ht : text <+: chars.drop column) {offset : Nat}
    (ho : offset < text.length) : chars[column + offset]? = text[offset]? := by
  obtain ⟨suffix, hs⟩ := ht
  rw [← List.getElem?_drop, ← hs, List.getElem?_append_left ho]

theorem Cuts.quote (h : Cuts chars column lexemes) {lexeme : Lexeme} (hm : lexeme ∈ lexemes)
    (ht : lexeme.text = ['"']) : chars[lexeme.column]? = some '"' := by
  induction h with
  | done => simp at hm
  | space _ _ _ ih => exact ih hm
  | lexeme hne hp hq rest ih =>
    rcases List.mem_cons.mp hm with rfl | hm
    · obtain rfl := ht
      simpa using getElem?_of_prefix hp (Nat.zero_lt_one)
    · exact ih hm

/-- The pieces of the lexemes of a line, of which everything in front of `resume` has been
taken.  The string that ends there ends with a quote or with the line, so that no lexeme
stands across its end. -/
theorem laid_piecesFrom (h : Cuts chars column lexemes) (comment : Bool) (resume : Nat)
    (hr : column < resume → resume = chars.length ∨ chars[resume - 1]? = some '"') :
    Laid chars (max column resume) (piecesFrom chars comment resume lexemes).1
      (skippedFrom chars comment resume lexemes) := by
  induction h generalizing comment resume with
  | done => exact ⟨by simp [piecesFrom], by simp [piecesFrom], fun place hp hl => by omega⟩
  | @space column c _ hc hs _ ih =>
    have hi := ih comment resume fun hlt => hr (by omega)
    by_cases he : resume ≤ column
    · rw [Nat.max_eq_left (by omega)] at hi ⊢
      refine hi.back (by omega) (List.Subset.refl _) fun place hp hl => .inr (.inl ⟨c, ?_, hs⟩)
      rwa [show place = column by omega]
    · rwa [show max column resume = max (column + 1) resume by omega]
  | @lexeme column text rest hne ht hq hcut ih =>
    have hlen := ht.length_le
    have hpos := List.length_pos_iff.mpr hne
    rw [List.length_drop] at hlen
    unfold piecesFrom skippedFrom
    dsimp only
    split
    · next hlt =>
      -- a lexeme across the end of the string would have the quote there in it
      have hin : column + text.length ≤ resume := by
        rcases hr hlt with he | he
        · omega
        · refine Nat.le_of_not_lt fun hover => ?_
          have hm : '"' ∈ text := by
            refine List.mem_of_getElem? (i := resume - 1 - column) ?_
            rw [← getElem?_of_prefix ht (by omega), ← he]
            congr 1
            omega
          rw [hq hm, List.length_singleton] at hover
          omega
      rw [show max column resume = max (column + text.length) resume by omega]
      exact ih comment resume fun hlt => hr (by omega)
    · next hge =>
      have hi (comment : Bool) := ih comment resume fun hlt => by omega
      simp only [Nat.max_eq_left (show resume ≤ column by omega),
        Nat.max_eq_left (show resume ≤ column + text.length by omega)] at hi ⊢
      split
      · exact (hi _).skip
      · split
        · refine ⟨by simp, by simp, fun place hp hl => ?_⟩
          exact .inr ((hcut.lexeme hne ht hq).covered hp hl)
        · exact (hi true).skip
        · have hc : chars[column]? = some '"' := by
            simpa using getElem?_of_prefix ht hpos
          obtain ⟨hle, hlt, hs, hend⟩ := stringAt_eq hc
          have hstop : column + (stringAt chars column).length = lastOfString chars column + 1 := by
            rw [hs, List.length_take, List.length_drop]
            omega
          rw [hstop]
          have hrest := ih false (lastOfString chars column + 1) fun _ => hend.imp_left id
          rw [Nat.max_eq_right (by simp; omega)] at hrest
          refine hrest.cons (by omega) (by omega) ?_
          rw [String.toList_ofList, hs]
        · next hline hblock hquote =>
          rw [if_neg hline, if_neg hblock, if_neg hquote]
          have hlt : column < column + text.length := by omega
          refine (hi false).cons hlt (by omega) ?_
          rw [String.toList_ofList, Nat.add_sub_cancel_left]
          exact List.prefix_iff_eq_take.mp ht

end Lexer

/-! ## Tokens of a source -/

/-- The token of a piece, its line and its index. -/
def Lexer.located (source : String) (entry : (Nat × Piece) × Nat) : Token where
  kind := entry.1.2.kind
  text := entry.1.2.text
  line := entry.1.1
  start := entry.1.2.start
  stop := entry.1.2.stop
  index := entry.2
  source := source

/-- The token within its line. -/
def Token.piece (token : Token) : Lexer.Piece :=
  ⟨token.kind, token.text, token.start, token.stop⟩

namespace Lexer

/-- The tokens are those of the line with this number: `body` accounts for the line, and
behind it stands its only end.  A string in it is cut out of it within its bounds. -/
structure IsRow (comment : Bool) (number : Nat) (chars : List Char) (body : List Token)
    (last : Token) : Prop where
  numbered : ∀ token ∈ body ++ [last], token.line = number
  laid : Laid chars 0 (body.map Token.piece) (skippedFrom chars comment 0 (lexemes chars))
  kinds : ∀ token ∈ body, token.kind ≠ .endOfLine ∧ token.kind ≠ .endOfFile
  last_eq : last.piece = ⟨.endOfLine, "", chars.length + 1, chars.length + 1⟩
  strings : ∀ lexeme ∈ lexemes chars, lexeme.text = ['"'] →
    lexeme.column + 1 ≤ chars.length ∧ lexeme.column ≤ lastOfString chars lexeme.column ∧
    lastOfString chars lexeme.column < chars.length ∧
    stringAt chars lexeme.column = (chars.drop lexeme.column).take
      (lastOfString chars lexeme.column + 1 - lexeme.column)

/-- Whether a comment is open behind the lines, if `comment` says so in front of them. -/
def openBehind (comment : Bool) (lines : List String) : Bool :=
  lines.foldl (fun comment line => (linePieces comment line.toList).2) comment

theorem laid_lexemes (comment : Bool) (chars : List Char) :
    Laid chars 0 (piecesFrom chars comment 0 (lexemes chars)).1
      (skippedFrom chars comment 0 (lexemes chars)) :=
  laid_piecesFrom (cuts_lexemesFrom chars 0 chars rfl (Nat.zero_le _)) comment 0 nofun

/-- The tokens of one line are a row. -/
theorem isRow_linePieces (source : String) (comment : Bool) (number index : Nat)
    (chars : List Char) : ∃ body last,
      (((linePieces comment chars).1.map fun piece => (number, piece)).zipIdx index).map
        (located source) = body ++ [last] ∧ IsRow comment number chars body last := by
  have hp (pieces : List Piece) : (((pieces.map fun piece => (number, piece)).zipIdx index).map
      (located source)).map Token.piece = pieces := by
    rw [List.map_map, show Token.piece ∘ located source = Prod.snd ∘ Prod.fst from rfl,
      ← List.map_map, List.zipIdx_map_fst, List.map_map]
    exact List.map_id pieces
  have hn : ∀ token ∈ (((linePieces comment chars).1.map fun piece => (number, piece)).zipIdx
      index).map (located source), token.line = number := by
    intro token hm
    obtain ⟨entry, he, rfl⟩ := List.mem_map.mp hm
    obtain ⟨piece, -, hpc⟩ := List.mem_map.mp (List.fst_mem_of_mem_zipIdx he)
    exact congrArg Prod.fst hpc.symm
  have hlaid := laid_lexemes comment chars
  unfold linePieces at hn ⊢
  dsimp only at hn ⊢
  rw [List.map_append, List.zipIdx_append, List.map_append] at hn ⊢
  refine ⟨_, _, rfl, hn, ?_, ?_, rfl, ?_⟩
  · rw [hp]
    exact hlaid
  · intro token hm
    have hmem := List.mem_map_of_mem (f := Token.piece) hm
    rw [hp] at hmem
    obtain ⟨hlex, hf⟩ := lexical_piecesFrom chars comment 0 (lexemes chars) _ hmem
    refine ⟨fun hk => ?_, hf⟩
    obtain ⟨hpos, hle, hstop, htext⟩ := hlaid.within _ hmem
    have he : token.piece.text = "" := congrArg Symbol.text (hlex.eq_lineEnd hk)
    have hlen := congrArg List.length htext
    rw [he, List.length_take, List.length_drop] at hlen
    have hz : "".toList.length = 0 := rfl
    omega
  · intro lexeme hm hq
    have hc := (cuts_lexemesFrom chars 0 chars rfl (Nat.zero_le _)).quote hm hq
    obtain ⟨hle, hlt, hs, -⟩ := stringAt_eq hc
    exact ⟨(List.getElem?_eq_some_iff.mp hc).1, hle, hlt, hs⟩

/-- The tokens of the lines of a source are rows, one for each line. -/
theorem rows_sourcePieces (source : String) (comment : Bool) (number index : Nat)
    (lines : List String) : ∃ rows : List (List Token),
      ((sourcePieces comment number lines).zipIdx index).map (located source) = rows.flatten ∧
      rows.length = lines.length ∧ ∀ k line, lines[k]? = some line → ∃ body last,
        rows[k]? = some (body ++ [last]) ∧
        IsRow (openBehind comment (lines.take k)) (number + k) line.toList body last := by
  induction lines generalizing comment number index with
  | nil => exact ⟨[], rfl, rfl, by simp⟩
  | cons line rest ih =>
    obtain ⟨body, last, hrow, hisRow⟩ := isRow_linePieces source comment number index
      line.toList
    obtain ⟨rows, hrows, hlen, hall⟩ := ih (linePieces comment line.toList).2 (number + 1)
      (index + ((linePieces comment line.toList).1.map fun piece => (number, piece)).length)
    refine ⟨(body ++ [last]) :: rows, ?_, by simp [hlen], fun k text hk => ?_⟩
    · unfold sourcePieces
      dsimp only
      rw [List.zipIdx_append, List.map_append, hrow, hrows]
      rfl
    · cases k with
      | zero =>
        obtain rfl := Option.some.inj hk
        exact ⟨body, last, rfl, hisRow⟩
      | succ k =>
        obtain ⟨body, last, hr, hi⟩ := hall k text hk
        refine ⟨body, last, hr, ?_⟩
        rwa [show number + (k + 1) = number + 1 + k by omega]

end Lexer

theorem toList_tokenizeLines (lines : List String) (source : String) :
    (tokenizeLines lines source).toList =
      (Lexer.sourcePieces false 1 lines).zipIdx.map (Lexer.located source) ++
      [Lexer.located source (((Lexer.endPlace lines).1, ⟨.endOfFile, "", (Lexer.endPlace lines).2,
        (Lexer.endPlace lines).2⟩), (Lexer.sourcePieces false 1 lines).length)] := by
  unfold tokenizeLines
  dsimp only
  rw [List.zipIdx_append, List.map_append, Nat.zero_add]
  rfl

/-- The positions of the tokens of a source are true to it.  A token knows its index.  The
stream is one row for each line and the only end of the file behind them.  In its row the
tokens stand one behind the other at the characters that they read, and every other character
is a space or part of a comment. -/
theorem tokenizeLines_positions (lines : List String) (source : String) :
    (∀ (i : Nat) (token : Token),
      (tokenizeLines lines source)[i]? = some token → token.index = i) ∧
    ∃ (rows : List (List Token)) (last : Token),
      (tokenizeLines lines source).toList = rows.flatten ++ [last] ∧
      last.kind = .endOfFile ∧ rows.length = lines.length ∧
      ∀ k line, lines[k]? = some line → ∃ body stop, rows[k]? = some (body ++ [stop]) ∧
        Lexer.IsRow (Lexer.openBehind false (lines.take k)) (k + 1) line.toList body stop := by
  constructor
  · intro i token hi
    simp only [tokenizeLines, List.getElem?_toArray, List.getElem?_map, List.getElem?_zipIdx,
      Option.map_eq_some_iff] at hi
    obtain ⟨entry, ⟨piece, -, rfl⟩, rfl⟩ := hi
    simp
  · obtain ⟨rows, hrows, hlen, hall⟩ := Lexer.rows_sourcePieces source false 1 0 lines
    rw [toList_tokenizeLines, hrows]
    refine ⟨rows, _, rfl, rfl, hlen, fun k line hk => ?_⟩
    rw [Nat.add_comm k 1]
    exact hall k line hk

end StepScript
