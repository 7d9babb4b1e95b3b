import StepScript.Proofs.Grammar.Entries
set_option autoImplicit false

/-!
# Statements are read off their tokens

Whatever the parser gives of the tokens of a file can be derived from their symbols
(`parse_reads`).  There is one lemma for each rule of the table; statements within statements
stand at later positions, which the induction is on.
-/

namespace StepScript.Grammar

variable {view : View} {node : Node} {list : List Symbol}

/-- What the rule builds at a position can be read off the tokens that it takes. -/
def RuleReads (view : View) (pos : Nat) (rule : Rule) : Prop :=
  ∀ captures next node, Matches (entryAt view) rule.entries pos [] (captures, next) →
    rule.build captures (view.peek pos) = .ok node →
      Spans view pos next (.statement node) ∧ Settled view node next

/-- A statement that no `else` can belong to. -/
theorem Over.spans_closed {pos next : Nat} (h : Over view pos next list)
    (hr : Reads (.statement node) list) (hc : danglesNode node = false) :
    Spans view pos next (.statement node) ∧ Settled view node next := by
  refine ⟨h.spans hr, fun hd => ?_⟩
  rw [hc] at hd
  cases hd

/-- An order has one name. -/
theorem text_of_ofText? {text : String} {order : UpdateOrder}
    (h : UpdateOrder.ofText? text = some order) : order.text = text := by
  unfold UpdateOrder.ofText? at h
  split at h <;> cases h <;> rfl

set_option maxRecDepth 2000 in
theorem word_update : Symbol.word "update" = .identifier "update" := by decide

set_option maxRecDepth 2000 in
theorem word_order : Symbol.word "order" = .identifier "order" := by decide

/-- A statement in a line of its own, once it has the `else` that could belong to it. -/
theorem danglesNode_branch_some {condition thenBranch elseBranch : Node} {token : Token}
    (h : danglesNode ⟨.branch condition thenBranch (some elseBranch), token⟩ = true) :
    danglesNode elseBranch = true := by
  obtain ⟨kind, start⟩ := thenBranch
  unfold danglesNode at h
  cases kind <;> simp only [danglesKind, Bool.false_eq_true] at h <;> exact h

/-- No expression is a branch. -/
theorem Reads.danglesNode_eq_false (h : Reads (.expression node) list) :
    danglesNode node = false := by
  generalize hp : Phrase.expression node = phrase at h
  induction h generalizing node with
  | leaf _ made =>
    cases hp
    rcases leaf_node made with ⟨constant, rfl⟩ | ⟨name, rfl⟩ <;> rfl
  | group _ ih => cases hp; exact ih rfl
  | _ => cases hp <;> rfl

section Rules

variable {pos : Nat} (hv : view.IsFile)

include hv

/-! ## Declarations -/

section

variable (hs : StatementsRead view (pos + 1))

include hs

theorem classRule_reads : RuleReads view pos classRule := by
  intro captures next node h hbl
  replace ⟨hc, h⟩ := h.keyword hv (by decide)
  replace ⟨name, hn, hnm, h⟩ := h.typeName hv
  replace ⟨parent, mid, hp, hmid, he, h⟩ := h.parentClause hv
  replace ⟨hl, h⟩ := h.lineEnd hv
  replace ⟨nodes, start, last, list, hb, hr, hls, h⟩ := h.body hv (hs.mono (by omega)) (by simp)
  replace ⟨hend, h⟩ := h.keyword hv (by decide)
  obtain ⟨rfl, rfl⟩ := h.nil
  have hnd : node = ⟨.classDecl name parent ⟨.block nodes, start⟩, view.peek pos⟩ := by
    cases parent <;> exact (Except.ok.inj hbl).symm
  subst hnd
  exact (hc.trans (hn.trans (hp.trans (hl.trans (hb.trans hend))))).spans_closed
    (.classDecl _ _ hnm he hr) rfl

theorem behaviourRule_reads : RuleReads view pos behaviourRule := by
  intro captures next node h hbl
  replace ⟨hb, h⟩ := h.keyword hv (by decide)
  replace ⟨name, hn, hnm, h⟩ := h.typeName hv
  replace ⟨hl, h⟩ := h.lineEnd hv
  replace ⟨nodes, start, last, list, hbd, hr, hls, h⟩ := h.body hv (hs.mono (by omega)) (by simp)
  replace ⟨hend, h⟩ := h.keyword hv (by decide)
  obtain ⟨rfl, rfl⟩ := h.nil
  obtain rfl := Except.ok.inj hbl
  exact (hb.trans (hn.trans (hl.trans (hbd.trans hend)))).spans_closed
    (.behaviourDecl _ _ hnm hr) rfl

theorem functionRule_reads : RuleReads view pos functionRule := by
  intro captures next node h hbl
  replace ⟨shared, mid, hsh, hmid, h⟩ := h.sharedFlag hv
  replace ⟨hfn, h⟩ := h.keyword hv (by decide)
  replace ⟨name, hn, hnm, h⟩ := h.identifier hv
  replace ⟨params, stop, found, listed, hlt, hls, hst, hf, h⟩ := h.parameterList hv
  replace ⟨hl, h⟩ := h.lineEnd hv
  replace ⟨nodes, start, last, list, hb, hr, hla, h⟩ := h.body hv (hs.mono (by omega)) (by simp)
  replace ⟨hend, h⟩ := h.keyword hv (by decide)
  obtain ⟨rfl, rfl⟩ := h.nil
  have hnd : node = ⟨.functionDecl name params (some ⟨.block nodes, start⟩) shared false,
      view.peek pos⟩ := by
    rcases hf with rfl | ⟨rfl, rfl⟩ <;> cases shared <;> exact (Except.ok.inj hbl).symm
  subst hnd
  exact (hsh.trans (hfn.trans (hn.trans
    (hlt.trans (hl.trans (hb.trans hend)))))).spans_closed
    (.functionDecl _ _ _ hnm hls hr) rfl

end

theorem nativeRule_reads : RuleReads view pos nativeRule := by
  intro captures next node h hb
  replace ⟨shared, mid, hsh, hmid, h⟩ := h.sharedFlag hv
  replace ⟨hnt, h⟩ := h.keyword hv (by decide)
  replace ⟨hfn, h⟩ := h.keyword hv (by decide)
  replace ⟨name, hn, hnm, h⟩ := h.identifier hv
  replace ⟨params, stop, found, listed, hls, hl, hst, hf, h⟩ := h.parameterList hv
  obtain ⟨rfl, rfl⟩ := h.nil
  have hnd : node = ⟨.functionDecl name params none shared true, view.peek pos⟩ := by
    rcases hf with rfl | ⟨rfl, rfl⟩ <;> cases shared <;> exact (Except.ok.inj hb).symm
  subst hnd
  exact (hsh.trans (hnt.trans (hfn.trans (hn.trans hls)))).spans_closed
    (.nativeDecl _ _ hnm hl) rfl

theorem constructorRule_reads (hs : StatementsRead view (pos + 1)) :
    RuleReads view pos constructorRule := by
  intro captures next node h hbl
  replace ⟨shared, mid, hsh, hmid, h⟩ := h.sharedFlag hv
  replace ⟨hc, h⟩ := h.keyword hv (by decide)
  replace ⟨params, stop, found, listed, hlt, hls, hst, hf, h⟩ := h.parameterList hv
  replace ⟨hl, h⟩ := h.lineEnd hv
  replace ⟨nodes, start, last, list, hb, hr, hla, h⟩ := h.body hv (hs.mono (by omega)) (by simp)
  replace ⟨hend, h⟩ := h.keyword hv (by decide)
  obtain ⟨rfl, rfl⟩ := h.nil
  have hn : node = ⟨.constructorDecl params ⟨.block nodes, start⟩ shared, view.peek pos⟩ := by
    rcases hf with rfl | ⟨rfl, rfl⟩ <;> cases shared <;> exact (Except.ok.inj hbl).symm
  subst hn
  exact (hsh.trans (hc.trans
    (hlt.trans (hl.trans (hb.trans hend))))).spans_closed
    (.constructorDecl _ _ _ hls hr) rfl

theorem propertyRule_reads : RuleReads view pos propertyRule := by
  intro captures next node h hb
  replace ⟨shared, mid, hsh, hmid, h⟩ := h.sharedFlag hv
  replace ⟨hp, h⟩ := h.keyword hv (by decide)
  replace ⟨name, hn, hnm, h⟩ := h.identifier hv
  replace ⟨initial, last, list, hi, hr, hl, h⟩ := Matches.clause hv ["="] (by decide) h
  obtain ⟨rfl, rfl⟩ := h.nil
  have hnd : node = ⟨.propertyDecl name initial shared, view.peek pos⟩ := by
    cases initial <;> cases shared <;> exact (Except.ok.inj hb).symm
  subst hnd
  exact (hsh.trans (hp.trans (hn.trans hi))).spans_closed
    (.propertyDecl _ _ hnm hr) rfl

theorem hasBehaviourRule_reads : RuleReads view pos hasBehaviourRule := by
  intro captures next node h hbl
  replace ⟨hhas, h⟩ := h.keyword hv (by decide)
  replace ⟨hb, h⟩ := h.keyword hv (by decide)
  replace ⟨name, hn, hnm, h⟩ := h.typeName hv
  obtain ⟨rfl, rfl⟩ := h.nil
  obtain rfl := Except.ok.inj hbl
  exact (hhas.trans (hb.trans hn)).spans_closed (.hasBehaviour _ hnm) rfl

theorem contractRule_reads (contract : Contract) : RuleReads view pos (contractRule contract) := by
  intro captures next node h hbl
  replace ⟨hc, h⟩ := h.keyword hv (by cases contract <;> decide)
  replace ⟨hb, h⟩ := h.keyword hv (by decide)
  replace ⟨name, hn, hnm, h⟩ := h.typeName hv
  obtain ⟨rfl, rfl⟩ := h.nil
  obtain rfl := Except.ok.inj hbl
  exact (hc.trans (hb.trans hn)).spans_closed (.contract contract _ hnm) rfl

theorem updateOrderRule_reads : RuleReads view pos updateOrderRule := by
  intro captures next node h hb
  replace ⟨hu, h⟩ := h.word hv (by decide)
  replace ⟨ho, h⟩ := h.word hv (by decide)
  replace ⟨name, hn, hnm, h⟩ := h.identifier hv
  obtain ⟨rfl, rfl⟩ := h.nil
  have ht : Captures.text [(.order, .text name)] .order = .ok name := rfl
  simp only [updateOrderRule, buildUpdateOrder, ht, bind, Except.bind] at hb
  split at hb
  · next order hor =>
    obtain rfl := Except.ok.inj hb
    rw [← text_of_ofText? hor] at hn
    rw [word_update] at hu
    rw [word_order] at ho
    exact (hu.trans (ho.trans hn)).spans_closed (.updateOrder order _) rfl
  · cases hb

/-! ## Branches -/

section

variable (hs : StatementsRead view (pos + 1))

include hs

theorem branchBlockRule_reads : RuleReads view pos branchBlockRule := by
  intro captures next node h hb
  replace ⟨hif, h⟩ := h.keyword hv (by decide)
  replace ⟨condition, mid, tested, hts, ht, hmid, h⟩ := h.expression hv
  replace ⟨hth, h⟩ := h.keyword hv (by decide)
  replace ⟨hl, h⟩ := h.lineEnd hv
  replace ⟨nodes, start, last, list, hbd, hr, hls, h⟩ := h.body hv (hs.mono (by omega)) (by simp)
  have hf := hif.trans (hts.trans (hth.trans (hl.trans hbd)))
  rcases Matches.optional hv h rfl with ⟨inside, after, hi, h⟩ | ⟨-, h⟩
  · replace ⟨he, hi⟩ := hi.keyword hv (by decide)
    replace ⟨hle, hi⟩ := hi.lineEnd hv
    replace ⟨others, middle, stop, opposed, ho, hro, hst, hi⟩ :=
      hi.body hv (hs.mono (by omega)) (by simp)
    obtain ⟨rfl, rfl⟩ := hi.nil
    replace ⟨hend, h⟩ := h.keyword hv (by decide)
    obtain ⟨rfl, rfl⟩ := h.nil
    obtain rfl := Except.ok.inj hb
    refine (hf.trans (he.trans (hle.trans (ho.trans hend)))).spans_closed ?_ rfl
    simpa using Reads.branchBlockElse _ start middle ht hr hro
  · replace ⟨hend, h⟩ := h.keyword hv (by decide)
    obtain ⟨rfl, rfl⟩ := h.nil
    obtain rfl := Except.ok.inj hb
    refine (hf.trans hend).spans_closed ?_ rfl
    simpa using Reads.branchBlock _ start ht hr

theorem branchChainRule_reads : RuleReads view pos branchChainRule := by
  intro captures next node h hb
  replace ⟨hif, h⟩ := h.keyword hv (by decide)
  replace ⟨condition, mid, tested, hts, ht, hmid, h⟩ := h.expression hv
  replace ⟨hth, h⟩ := h.keyword hv (by decide)
  replace ⟨hl, h⟩ := h.lineEnd hv
  replace ⟨nodes, start, last, list, hbd, hr, hls, h⟩ := h.body hv (hs.mono (by omega)) (by simp)
  replace ⟨he, h⟩ := h.keyword hv (by decide)
  replace ⟨nested, stop, opposed, ho, hro, _, hst, _, h⟩ := h.statement hv (hs.mono (by omega))
  obtain ⟨rfl, rfl⟩ := h.nil
  change (if isBlockBranch nested then
      made (view.peek pos) (.branch condition ⟨.block nodes, start⟩ (some nested))
    else .error .elseWithoutBlock) = _ at hb
  split at hb
  · next hc =>
    obtain rfl := Except.ok.inj hb
    exact (hif.trans (hts.trans (hth.trans (hl.trans
      (hbd.trans (he.trans ho)))))).spans_closed
      (.branchChain _ start hc ht hr hro) rfl
  · cases hb

theorem branchLineRule_reads : RuleReads view pos branchLineRule := by
  intro captures next node h hb
  replace ⟨hif, h⟩ := h.keyword hv (by decide)
  replace ⟨condition, mid, tested, hts, ht, hmid, h⟩ := h.expression hv
  replace ⟨hth, h⟩ := h.keyword hv (by decide)
  replace ⟨thenBranch, last, list, hbd, hr, hst, hl, _, h⟩ := h.statement hv (hs.mono (by omega))
  have hf := hif.trans (hts.trans (hth.trans hbd))
  rcases Matches.optional hv h rfl with ⟨inside, after, hi, h⟩ | ⟨hab, h⟩
  · obtain ⟨found, behind, hfn, -⟩ := hi.uncons rfl
    have hsp := (entryAt_token_ok hfn rfl).1
    replace ⟨he, hi⟩ := hi.keyword hv (by decide)
    replace ⟨elseBranch, stop, opposed, ho, hro, hso, hsto, hsm,
      hi⟩ := hi.statement hv (hs.mono (by omega))
    obtain ⟨rfl, rfl⟩ := hi.nil
    obtain ⟨rfl, rfl⟩ := h.nil
    obtain rfl := Except.ok.inj hb
    -- a first part that could take the `else` would have taken it
    have hc : danglesNode thenBranch = false := by
      rw [← Bool.not_eq_true]
      exact fun hd => hst hd hsp _ hsm
    refine ⟨(hf.trans (he.trans ho)).spans ?_, fun hd => hso (danglesNode_branch_some hd)⟩
    simpa using Reads.branchLineElse _ hc ht hr hro
  · obtain ⟨rfl, rfl⟩ := h.nil
    obtain rfl := Except.ok.inj hb
    refine ⟨hf.spans (by simpa using Reads.branchLine _ ht hr), ?_⟩
    rintro - hsp ⟨other, after⟩ ho
    exact hab _ after (matches_token rfl hsp (matches_statement hv ho rfl))

/-! ## Loops and jumps -/

theorem whileRule_reads : RuleReads view pos whileRule := by
  intro captures next node h hbl
  replace ⟨hw, h⟩ := h.keyword hv (by decide)
  replace ⟨condition, mid, tested, hts, ht, hmid, h⟩ := h.expression hv
  replace ⟨hdo, h⟩ := h.keyword hv (by decide)
  replace ⟨hl, h⟩ := h.lineEnd hv
  replace ⟨nodes, start, last, list, hb, hr, hls, h⟩ := h.body hv (hs.mono (by omega)) (by simp)
  replace ⟨hend, h⟩ := h.keyword hv (by decide)
  obtain ⟨rfl, rfl⟩ := h.nil
  obtain rfl := Except.ok.inj hbl
  exact (hw.trans (hts.trans (hdo.trans (hl.trans (hb.trans hend))))).spans_closed
    (.whileLoop _ start ht hr) rfl

theorem repeatRule_reads : RuleReads view pos repeatRule := by
  intro captures next node h hbl
  replace ⟨hrp, h⟩ := h.keyword hv (by decide)
  replace ⟨hl, h⟩ := h.lineEnd hv
  replace ⟨nodes, start, last, list, hb, hr, hls, h⟩ := h.body hv (hs.mono (by omega)) (by simp)
  replace ⟨hu, h⟩ := h.keyword hv (by decide)
  replace ⟨condition, mid, tested, hts, ht, hmid, h⟩ := h.expression hv
  obtain ⟨rfl, rfl⟩ := h.nil
  obtain rfl := Except.ok.inj hbl
  exact (hrp.trans (hl.trans (hb.trans (hu.trans hts)))).spans_closed
    (.repeatLoop _ start hr ht) rfl

theorem forRule_reads : RuleReads view pos forRule := by
  intro captures next node h hbl
  replace ⟨hfor, h⟩ := h.keyword hv (by decide)
  replace ⟨var, hvar, hn, h⟩ := h.identifier hv
  replace ⟨hf, h⟩ := h.keyword hv (by decide)
  replace ⟨first, mid, starting, hst, hrf, hmid, h⟩ := h.expression hv
  replace ⟨hto, h⟩ := h.keyword hv (by decide)
  replace ⟨bound, stop, ending, he, hrb, hsto, h⟩ := h.expression hv
  replace ⟨step, after, stepping, hsp, hrs, haf, h⟩ :=
    Matches.clause hv ["step", "by"] (by decide) h
  replace ⟨hdo, h⟩ := h.keyword hv (by decide)
  replace ⟨hl, h⟩ := h.lineEnd hv
  replace ⟨nodes, start, last, list, hb, hr, hls, h⟩ := h.body hv (hs.mono (by omega)) (by simp)
  replace ⟨hend, h⟩ := h.keyword hv (by decide)
  obtain ⟨rfl, rfl⟩ := h.nil
  have hnd : node = ⟨.forLoop var first bound step ⟨.block nodes, start⟩, view.peek pos⟩ := by
    cases step <;> exact (Except.ok.inj hbl).symm
  subst hnd
  exact (hfor.trans (hvar.trans (hf.trans (hst.trans (hto.trans (he.trans
    (hsp.trans (hdo.trans (hl.trans (hb.trans hend)))))))))).spans_closed
    (.forLoop _ start hn hrf hrb hrs hr) rfl

end

theorem returnRule_reads : RuleReads view pos returnRule := by
  intro captures next node h hb
  replace ⟨hrt, h⟩ := h.keyword hv (by decide)
  replace ⟨value, last, list, hvl, hr, hl, h⟩ := Matches.clause hv [] (by decide) h
  obtain ⟨rfl, rfl⟩ := h.nil
  have hn : node = ⟨.giveBack value, view.peek pos⟩ := by
    cases value <;> exact (Except.ok.inj hb).symm
  subst hn
  exact (hrt.trans hvl).spans_closed (.giveBack _ hr) rfl

theorem breakRule_reads : RuleReads view pos breakRule := by
  intro captures next node h hbl
  replace ⟨hb, h⟩ := h.keyword hv (by decide)
  obtain ⟨rfl, rfl⟩ := h.nil
  obtain rfl := Except.ok.inj hbl
  exact hb.spans_closed (.breakLoop _) rfl

theorem continueRule_reads : RuleReads view pos continueRule := by
  intro captures next node h hb
  replace ⟨hc, h⟩ := h.keyword hv (by decide)
  obtain ⟨rfl, rfl⟩ := h.nil
  obtain rfl := Except.ok.inj hb
  exact hc.spans_closed (.continueLoop _) rfl

theorem waitRule_reads : RuleReads view pos waitRule := by
  intro captures next node h hb
  replace ⟨hw, h⟩ := h.keyword hv (by decide)
  replace ⟨hfor, h⟩ := h.keyword hv (by decide)
  replace ⟨hu, h⟩ := h.word hv (by decide)
  obtain ⟨rfl, rfl⟩ := h.nil
  obtain rfl := Except.ok.inj hb
  rw [word_update] at hu
  exact (hw.trans (hfor.trans hu)).spans_closed (.waitForUpdate _) rfl

/-! ## Expressions as statements -/

theorem assignmentRule_reads : RuleReads view pos assignmentRule := by
  intro captures next node h hb
  replace ⟨target, mid, left, hl, hrt, hmid, h⟩ := h.expression hv
  replace ⟨has, h⟩ := h.assign hv
  replace ⟨value, stop, right, hr, hrv, hst, h⟩ := h.expression hv
  obtain ⟨rfl, rfl⟩ := h.nil
  change (if isAssignable target then made (view.peek pos) (.assign target value)
    else .error (.cannotAssign target.kind.name)) = _ at hb
  split at hb
  · next hf =>
    obtain rfl := Except.ok.inj hb
    exact (hl.trans (has.trans hr)).spans_closed
      (.assign _ hf hrt hrv) rfl
  · cases hb

theorem expressionRule_reads : RuleReads view pos expressionRule := by
  intro captures next node h hb
  replace ⟨value, mid, list, hl, hr, hmid, h⟩ := h.expression hv
  obtain ⟨rfl, rfl⟩ := h.nil
  obtain rfl := Except.ok.inj hb
  exact hl.spans_closed (.evaluate hr) hr.danglesNode_eq_false

/-! ## Statements and files -/

/-- Statements can be read off the tokens that they take, if those behind their first token
can. -/
theorem ruleReads_of_mem (hs : StatementsRead view (pos + 1)) :
    ∀ rule ∈ statementRules, RuleReads view pos rule := by
  simp only [statementRules, List.forall_mem_cons]
  exact ⟨classRule_reads hv hs, behaviourRule_reads hv hs,
    functionRule_reads hv hs, nativeRule_reads hv,
    constructorRule_reads hv hs, propertyRule_reads hv,
    hasBehaviourRule_reads hv, contractRule_reads hv .requires,
    contractRule_reads hv .supports, contractRule_reads hv .excludes,
    updateOrderRule_reads hv, branchBlockRule_reads hv hs,
    branchChainRule_reads hv hs, branchLineRule_reads hv hs,
    whileRule_reads hv hs, repeatRule_reads hv hs,
    forRule_reads hv hs, returnRule_reads hv, breakRule_reads hv,
    continueRule_reads hv, waitRule_reads hv, assignmentRule_reads hv,
    expressionRule_reads hv, by simp⟩

end Rules

/-- The entry takes a token or more. -/
def Entry.takes : Entry → Bool
  | .expression => true
  | entry => entry.consumes

/-- The first of the entries takes a token or more, and the second if the first may be
absent. -/
def leads : List Match → Bool
  | (_, .optional ((_, first) :: _)) :: (_, second) :: _ => first.takes && second.takes
  | (_, first) :: _ => first.takes
  | [] => false

theorem leads_statementRules : ∀ rule ∈ statementRules, leads rule.entries = true := by decide

section

variable (hv : view.IsFile)

include hv

/-- What takes a token stands in front of the end. -/
theorem lt_size_of_takes {slot : Option Slot} {entry : Entry} {rest : List Match} {pos : Nat}
    {captures : Captures} {result : Captures × Nat} (ht : entry.takes = true)
    (h : Matches (entryAt view) ((slot, entry) :: rest) pos captures result) :
    pos < view.tokens.size := by
  have hr : entry.isOptional = false := by
    cases entry <;> first | rfl | cases ht
  obtain ⟨found, next, hf, -⟩ := h.uncons hr
  rw [entryAt_eq_matchEntry] at hf
  by_cases hc : entry.consumes = true
  · exact (matchEntry_consumes hv.ended hc hf).1
  · cases entry
    case expression =>
      obtain ⟨⟨node, stop⟩, hn, -⟩ := Attempt.outcome_bind_ok_iff.mp hf
      refine View.lt_size_of_from_ne_nil fun hnil => (expressionAt_ok_iff.mp hn).1 ?_
      rw [hnil]
      rfl
    all_goals exact absurd ht hc

/-- There is no statement behind the last token. -/
theorem lt_size_of_statementAt {pos : Nat} {next : Nat}
    (h : (statementAt view (entryAt view) pos).outcome = .ok (node, next)) :
    pos < view.tokens.size := by
  obtain ⟨rule, hr, hmt⟩ := alternatives_ok h
  obtain ⟨captures, hm, -⟩ := matchRule_ok_iff.mp hmt
  have hl := leads_statementRules rule hr
  have hp := isPlain_statementRules rule hr
  revert hm hl hp
  generalize rule.entries = entries
  intro hm hl hp
  unfold leads at hl
  split at hl
  · rw [Bool.and_eq_true] at hl
    rcases Matches.optional hv hm (hp _ (List.mem_cons_self ..)) with
      ⟨inside, stop, hi, -⟩ | ⟨-, hrs⟩
    · exact lt_size_of_takes hv hl.1 hi
    · exact lt_size_of_takes hv hl.2 hrs
  · exact lt_size_of_takes hv hl hm
  · cases hl

/-- The induction is on the number of tokens from the position on. -/
theorem statementsRead (pos : Nat) : StatementsRead view pos := by
  induction hl : view.tokens.size - pos using Nat.strongRecOn generalizing pos with
  | ind left ih =>
    intro at_ node next hat hn
    have hlt := lt_size_of_statementAt hv hn
    obtain ⟨rule, hr, hm⟩ := alternatives_ok hn
    obtain ⟨captures, hmt, hb⟩ := matchRule_ok_iff.mp hm
    have hs : StatementsRead view (at_ + 1) := ih _ (by omega) (at_ + 1) rfl
    exact ruleReads_of_mem hv hs rule hr captures next node hmt hb

end

/-! ## Files -/

/-- The symbols that lead in the phrase, if it is a clause. -/
def Phrase.lead : Phrase → List Symbol
  | .clause lead _ => lead
  | _ => []

/-- The end of the file is not among the symbols. -/
def NoFileEnd (list : List Symbol) : Prop := ∀ symbol ∈ list, symbol.kind ≠ .endOfFile

@[simp] theorem noFileEnd_nil : NoFileEnd [] := by simp [NoFileEnd]

@[simp] theorem noFileEnd_cons {symbol : Symbol} :
    NoFileEnd (symbol :: list) ↔ symbol.kind ≠ .endOfFile ∧ NoFileEnd list :=
  List.forall_mem_cons

@[simp] theorem noFileEnd_append {first second : List Symbol} :
    NoFileEnd (first ++ second) ↔ NoFileEnd first ∧ NoFileEnd second :=
  List.forall_mem_append

@[simp] theorem noFileEnd_sharedMark (shared : Bool) : NoFileEnd (sharedMark shared) := by
  cases shared <;> simp [sharedMark]

@[simp] theorem noFileEnd_parentClause (parent : Option String) :
    NoFileEnd (parentClause parent) := by
  cases parent <;> simp [parentClause]

/-- The end of a file is no part of what is read. -/
theorem Reads.noFileEnd {phrase : Phrase} (h : Reads phrase list) (hl : NoFileEnd phrase.lead) :
    NoFileEnd list := by
  induction h with
  | leaf lexical made => rcases leaf_kind made with hk | hk | hk | hk <;> simp [Token.symbol, hk]
  | @unary op =>
    have hop : op.symbol.kind ≠ .endOfFile := by cases op <;> decide
    simp_all [Phrase.lead]
  | @binary op _ _ _ _ symbol _ _ operator =>
    have hop : symbol.kind ≠ .endOfFile := by
      rw [← Symbol.canonical_kind, operator]
      cases op <;> decide
    simp_all [Phrase.lead]
  | _ => simp_all [Phrase.lead]

/-- The tokens are those of a source with the symbols of `body` in its lines. -/
structure IsSource (tokens : Array Token) (body : List Symbol) : Prop where
  symbols_eq : symbols tokens.toList = body ++ [Symbol.fileEnd]
  lexical : ∀ symbol ∈ body, symbol.Lexical ∧ symbol.kind ≠ .endOfFile

theorem isSource_tokenize (text source : String) :
    ∃ body, IsSource (tokenize text source) body ∧
      (body = [] ∨ body.getLast? = some Symbol.lineEnd) := by
  obtain ⟨body, hsy, hlx, hl⟩ := symbols_tokenize text source
  exact ⟨body, ⟨hsy, hlx⟩, hl⟩

section Source

variable {tokens : Array Token} {body : List Symbol}

/-- A source ends with the end of the file. -/
theorem IsSource.exists_lines (h : IsSource tokens body) :
    ∃ lines last, tokens.toList = lines ++ [last] ∧ symbols lines = body ∧
      last.symbol = Symbol.fileEnd := by
  obtain ⟨lines, ends, ht, hln, he⟩ := List.map_eq_append_iff.mp h.symbols_eq
  obtain ⟨last, rfl, hl⟩ := List.map_eq_singleton_iff.mp he
  exact ⟨lines, last, ht, hln, hl⟩

theorem IsSource.back?_eq {lines : List Token} {last : Token}
    (ht : tokens.toList = lines ++ [last]) : tokens.back? = some last := by
  rw [← Array.getLast?_toList, ht, List.getLast?_append]
  rfl

theorem IsSource.isFile (h : IsSource tokens body) {last : Token}
    (hl : last.symbol = Symbol.fileEnd) : View.IsFile ⟨tokens, last⟩ where
  tokens := by
    intro token ht
    have hmem : token.symbol ∈ body ++ [Symbol.fileEnd] := h.symbols_eq ▸ List.mem_map_of_mem ht
    rcases List.mem_append.mp hmem with hb | hend
    · exact (h.lexical _ hb).1
    · rw [List.mem_singleton.mp hend]
      exact .ofFileEnd
  ended := ⟨congrArg Symbol.kind hl, congrArg Symbol.text hl⟩

/-- The statements of a file end in front of the end of the file. -/
theorem IsSource.eq_body (h : IsSource tokens body) {after : Token} {next : Nat}
    (ho : Over ⟨tokens, after⟩ 0 next list)
    (hend : (View.peek ⟨tokens, after⟩ next).kind = .endOfFile) (hl : NoFileEnd list) :
    list = body := by
  obtain ⟨part, hp, rfl⟩ := ho
  have hall : symbols part ++ symbols (View.from ⟨tokens, after⟩ next)
      = body ++ [Symbol.fileEnd] := by
    rw [← h.symbols_eq, ← symbols_append, ← hp]
    rfl
  by_cases hin : next < tokens.size
  · have hf : View.from ⟨tokens, after⟩ next = View.peek ⟨tokens, after⟩ next :: _ :=
      View.from_eq_cons hin
    rw [hf, symbols_cons] at hall
    rcases List.append_eq_append_iff.mp hall with ⟨middle, hb, hr⟩ | ⟨middle, hp, hr⟩
    · cases middle with
      | nil => simpa using hb.symm
      | cons symbol others =>
        -- the end of the file would stand in front of its end
        obtain ⟨rfl, -⟩ := List.cons.inj hr
        have hmem : (View.peek ⟨tokens, after⟩ next).symbol ∈ body := by simp [hb]
        exact absurd hend (h.lexical _ hmem).2
    · cases middle with
      | nil => simpa using hp
      | cons symbol others => simp at hr
  · have hf : View.from ⟨tokens, after⟩ next = [] := View.from_eq_nil (Nat.le_of_not_lt hin)
    rw [hf, symbols_nil, List.append_nil] at hall
    rw [hall] at hl
    exact absurd rfl (hl Symbol.fileEnd (by simp))

/-- Whatever is parsed of a source can be read off its lines, of which the last may lack its
end. -/
theorem parse_reads (h : IsSource tokens body) {name : String}
    (hp : parse tokens name = .ok node) :
    ∃ nodes first, node = ⟨.file name nodes, first⟩ ∧
      (Reads (.lines nodes) body ∨ Reads (.lines nodes) (body ++ [.lineEnd])) := by
  obtain ⟨lines, last, ht, -, hl⟩ := h.exists_lines
  unfold parse at hp
  rw [IsSource.back?_eq ht] at hp
  split at hp
  · next first _ _ hb =>
    cases hb
    split at hp
    · next nodes next recorded hbd =>
      cases hp
      have hv := h.isFile hl
      obtain ⟨more, list, hn, ho, hr, hend⟩ :=
        blockFrom_reads hv (statementsRead hv 0) (congrArg Attempt.outcome hbd)
      obtain rfl : nodes = more := hn
      refine ⟨nodes, first, rfl, ?_⟩
      have hsm : NoFileEnd list → list = body := h.eq_body ho (hend rfl)
      rcases hr with hr | ⟨-, hr⟩
      · exact .inl (hsm (hr.noFileEnd (by simp [Phrase.lead])) ▸ hr)
      · have hno := hr.noFileEnd (by simp [Phrase.lead])
        rw [noFileEnd_append] at hno
        exact .inr (hsm hno.1 ▸ hr)
    · cases hp
  · cases hp

end Source

end StepScript.Grammar
