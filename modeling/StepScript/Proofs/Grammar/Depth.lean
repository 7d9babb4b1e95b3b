import StepScript.Proofs.Grammar.Attempts
set_option autoImplicit false

/-!
# The depth of matching does not matter

`matchOne` bounds the elements within elements by a depth.  Every element stands behind a
token of the one around it, so a depth that is large enough for the tokens that are left
gives the same attempt as every larger one.  Hence `entryAt`, which takes the depth from the
number of tokens, satisfies the equation `entryAt view = matchEntry entryAt view` for the
entries of the tables: it matches as if there were no bound.
-/

namespace StepScript.Grammar

variable {view : View} {pos next depth : Nat} {found : Captures} {slot : Option Slot}
  {entries group : List Match} {entry : Entry}

/-! ## Runs -/

section Runs

variable {headed other : List Token → Token → Attempt (Node × Nat)}

/-- Splitting a run asks only for parts of the run. -/
theorem split_congr {bound : Nat}
    (h : ∀ run after, run ≠ [] → run.length ≤ bound → headed run after = other run after)
    (depth : Nat) (run : List Token) (after : Token) (hrun : run.length ≤ bound) :
    split headed depth run after = split other depth run after := by
  induction depth generalizing run after with
  | zero => rfl
  | succ depth ih =>
    cases run with
    | nil => rfl
    | cons first rest =>
      unfold split
      refine congrArg _ (funext fun point => ?_)
      cases point with
      | some point =>
        have hd : ((first :: rest).drop point.index).length ≤ (first :: rest).length := by
          simp
        dsimp only
        cases hr : (first :: rest).drop point.index with
        | nil => rfl
        | cons op right =>
          rw [hr] at hd
          have hr : right.length ≤ bound := by simp at hd hrun ⊢; omega
          have hl : ((first :: rest).take point.index).length ≤ bound := by
            simp at hrun ⊢
            omega
          simp only [ih _ _ hr, ih _ _ hl]
      | none =>
        have hi : rest.dropLast.length ≤ bound := by simp at hrun ⊢; omega
        simp only [ih _ _ hi, h _ _ (List.cons_ne_nil _ _) hrun]

theorem expressionAt_congr
    (h : ∀ run after, run ≠ [] → run.length ≤ view.tokens.size - pos →
      headed run after = other run after) :
    expressionAt view headed pos = expressionAt view other pos := by
  unfold expressionAt
  have hrun : ((view.tokens.toList.drop pos).take
      (runLength 0 (view.tokens.toList.drop pos))).length ≤ view.tokens.size - pos := by
    simp only [List.length_take, List.length_drop, Array.length_toList]
    omega
  simp only [split_congr h _ _ _ hrun]

/-- The expression at a position ends behind it. -/
theorem expressionAt_forward {node : Node}
    (h : (expressionAt view headed pos).outcome = .ok (node, next)) : pos < next := by
  obtain ⟨hl, rfl, -⟩ := expressionAt_ok_iff.mp h
  omega

end Runs

/-! ## Lists of expressions -/

section Lists

variable {expression other : Nat → Attempt (Node × Nat)}

/-- Answers lie behind the position that they are asked for. -/
def Forward (expression : Nat → Attempt (Node × Nat)) : Prop :=
  ∀ pos node next, (expression pos).outcome = .ok (node, next) → pos < next

theorem argumentsFrom_congr (hf : Forward expression) (rounds pos : Nat)
    (found : List Node) (h : ∀ later, pos ≤ later → expression later = other later) :
    argumentsFrom view expression rounds pos found = argumentsFrom view other rounds pos found := by
  induction rounds generalizing pos found with
  | zero => rfl
  | succ rounds ih =>
    unfold argumentsFrom
    rw [← h pos (Nat.le_refl pos)]
    refine Attempt.bind_congr_of_ok fun answer han => ?_
    have hn := hf pos answer.1 answer.2 han
    dsimp only
    rw [ih (answer.2 + 1) (answer.1 :: found) fun later hl => h later (by omega)]

theorem initialAt_congr (h : ∀ later, pos ≤ later → expression later = other later) :
    initialAt view expression pos = initialAt view other pos := by
  unfold initialAt
  rw [h (pos + 1) (by omega)]

section

variable (hf : Forward expression)

include hf

theorem initialAt_forward {initial : Option Node}
    (h : (initialAt view expression pos).outcome = .ok (initial, next)) :
    pos ≤ next := by
  unfold initialAt at h
  split at h
  · simp only [Attempt.outcome_bind_ok_iff, Attempt.outcome_pure, Except.ok.injEq,
      Prod.mk.injEq, Prod.exists] at h
    obtain ⟨node, stop, hn, -, rfl⟩ := h
    have hlt := hf _ _ _ hn
    omega
  · simp only [Attempt.outcome_pure, Except.ok.injEq, Prod.mk.injEq] at h
    omega

theorem parametersFrom_congr (rounds pos : Nat) (found : List Parameter)
    (h : ∀ later, pos ≤ later → expression later = other later) :
    parametersFrom view expression rounds pos found
      = parametersFrom view other rounds pos found := by
  induction rounds generalizing pos found with
  | zero => rfl
  | succ rounds ih =>
    unfold parametersFrom
    refine Attempt.bind_congr_of_ok fun name _ => ?_
    rw [← initialAt_congr fun later hl => h later (by omega)]
    refine Attempt.bind_congr_of_ok fun answer han => ?_
    have hn := initialAt_forward hf han
    dsimp only
    rw [ih (answer.2 + 1) (⟨name, answer.1⟩ :: found) fun later hl => h later (by omega)]

theorem argumentsFrom_forward {rounds pos : Nat} {found nodes : List Node}
    (h : (argumentsFrom view expression rounds pos found).outcome = .ok (nodes, next)) :
    pos ≤ next := by
  induction rounds generalizing pos found with
  | zero => simp [argumentsFrom] at h
  | succ rounds ih =>
    unfold argumentsFrom at h
    obtain ⟨⟨node, stop⟩, hn, hr⟩ := Attempt.outcome_bind_ok_iff.mp h
    have hs := hf pos node stop hn
    dsimp only at hr
    split at hr
    · have hl := ih hr
      omega
    · simp only [Attempt.outcome_pure, Except.ok.injEq, Prod.mk.injEq] at hr
      omega

theorem parametersFrom_forward {rounds pos : Nat} {found params : List Parameter}
    (h : (parametersFrom view expression rounds pos found).outcome = .ok (params, next)) :
    pos ≤ next := by
  induction rounds generalizing pos found with
  | zero => simp [parametersFrom] at h
  | succ rounds ih =>
    unfold parametersFrom at h
    obtain ⟨name, -, hr⟩ := Attempt.outcome_bind_ok_iff.mp h
    obtain ⟨⟨initial, stop⟩, hi, hr⟩ := Attempt.outcome_bind_ok_iff.mp hr
    have hs := initialAt_forward hf hi
    dsimp only at hr
    split at hr
    · have hl := ih hr
      omega
    · simp only [Attempt.outcome_pure, Except.ok.injEq, Prod.mk.injEq] at hr
      omega

end

/-- A list in front of a closing parenthesis is empty, or it is what has been read. -/
theorem listOrNone_ok {α : Type} {nonempty : Attempt (List α × Nat)} {items : List α}
    (h : (listOrNone view pos nonempty).outcome = .ok (items, next)) :
    (view.peek pos).kind = .rightParen ∧ items = [] ∧ next = pos ∨
      nonempty.outcome = .ok (items, next) := by
  unfold listOrNone at h
  split at h
  · next hc =>
    simp only [Attempt.outcome_pure, Except.ok.injEq, Prod.mk.injEq] at h
    exact .inl ⟨hc, h.1.symm, h.2.symm⟩
  · exact .inr h

/-- Arguments stand between parentheses. -/
theorem argumentListAt_ok {nodes : List Node}
    (h : (argumentListAt view expression pos).outcome = .ok (nodes, next)) :
    (view.peek pos).kind = .leftParen ∧ ∃ close, next = close + 1 ∧
      (view.peek close).kind = .rightParen ∧
      (listOrNone view (pos + 1)
        (argumentsFrom view expression (view.tokens.size + 2) (pos + 1) [])).outcome
          = .ok (nodes, close) := by
  unfold argumentListAt at h
  dsimp only at h
  split at h
  · simp at h
  · next ho =>
    obtain ⟨⟨items, close⟩, hi, hr⟩ := Attempt.outcome_bind_ok_iff.mp h
    dsimp only at hr
    split at hr
    · simp at hr
    · next hc =>
      simp only [Attempt.outcome_pure, Except.ok.injEq, Prod.mk.injEq] at hr
      obtain ⟨rfl, rfl⟩ := hr
      exact ⟨Decidable.not_not.mp ho, close, rfl, Decidable.not_not.mp hc, hi⟩

theorem argumentListAt_forward (hf : Forward expression) {nodes : List Node}
    (h : (argumentListAt view expression pos).outcome = .ok (nodes, next)) :
    pos < next := by
  obtain ⟨-, close, rfl, -, hi⟩ := argumentListAt_ok h
  rcases listOrNone_ok hi with ⟨-, -, rfl⟩ | hs
  · omega
  · have hc := argumentsFrom_forward hf hs
    omega

theorem argumentListAt_congr (hf : Forward expression)
    (h : ∀ later, pos < later → expression later = other later) :
    argumentListAt view expression pos = argumentListAt view other pos := by
  unfold argumentListAt
  rw [argumentsFrom_congr hf _ _ _ fun later hl => h later (by omega)]

end Lists

/-! ## Blocks -/

theorem blockFrom_congr {statement other : Nat → Attempt (Node × Nat)}
    (hf : ∀ pos node next, (statement pos).outcome = .ok (node, next) → pos ≤ next)
    (terminators : List String) (rounds pos : Nat) (found : List Node)
    (h : ∀ later, pos ≤ later → statement later = other later) :
    blockFrom view statement terminators rounds pos found
      = blockFrom view other terminators rounds pos found := by
  induction rounds generalizing pos found with
  | zero => rfl
  | succ rounds ih =>
    unfold blockFrom
    dsimp only
    split
    · exact ih _ _ fun later hl => h later (by omega)
    · rfl
    · split
      · rfl
      · rw [← h pos (Nat.le_refl pos)]
        refine Attempt.bind_congr_of_ok fun answer han => ?_
        have hn := hf pos answer.1 answer.2 han
        rw [ih (answer.2 + 1) (answer.1 :: found) fun later hl => h later (by omega),
          ih answer.2 (answer.1 :: found) fun later hl => h later (by omega)]

theorem blockFrom_forward {statement : Nat → Attempt (Node × Nat)}
    (hf : ∀ pos node next, (statement pos).outcome = .ok (node, next) → pos ≤ next)
    {terminators : List String} {rounds pos : Nat} {found nodes : List Node}
    (h : (blockFrom view statement terminators rounds pos found).outcome = .ok (nodes, next)) :
    pos ≤ next := by
  induction rounds generalizing pos found with
  | zero => simp [blockFrom] at h
  | succ rounds ih =>
    unfold blockFrom at h
    dsimp only at h
    split at h
    · have hl := ih h
      omega
    · split at h
      · simp only [Attempt.outcome_pure, Except.ok.injEq, Prod.mk.injEq] at h
        omega
      · simp at h
    · split at h
      · simp only [Attempt.outcome_pure, Except.ok.injEq, Prod.mk.injEq] at h
        omega
      · obtain ⟨⟨node, stop⟩, hn, hr⟩ := Attempt.outcome_bind_ok_iff.mp h
        have hs := hf pos node stop hn
        dsimp only at hr
        split at hr
        · have hl := ih hr
          omega
        · have hl := ih hr
          omega
        · simp at hr

/-! ## Matching goes forward -/

theorem tokenAt_ok {fits : Token → Bool} {what : String}
    (h : (tokenAt view slot pos fits what).outcome = .ok (found, next)) :
    fits (view.peek pos) = true ∧ found = inSlot slot (.text (view.peek pos).text)
      ∧ next = pos + 1 := by
  unfold tokenAt at h
  dsimp only at h
  split at h
  · next hft =>
    simp only [Attempt.outcome_pure, Except.ok.injEq, Prod.mk.injEq] at h
    exact ⟨hft, h.1.symm, h.2.symm⟩
  · simp at h

/-- A matcher never goes back. -/
def Advances (one : Matcher) : Prop :=
  ∀ entry pos found next, (one entry pos).outcome = .ok (found, next) → pos ≤ next

theorem Matches.advances {one : Matcher} (hone : Advances one) {captures found : Captures}
    (h : Matches one entries pos captures (found, next)) : pos ≤ next := by
  induction entries generalizing pos captures with
  | nil =>
    have hn : next = pos := (Prod.mk.inj h).2
    omega
  | cons entry rest ih =>
    unfold Matches at h
    split at h
    · next he =>
      have hs := hone _ _ _ _ he
      have hr := ih h
      omega
    · exact ih h.2

theorem statementAt_advances {one : Matcher} (hone : Advances one) {node : Node}
    (h : (statementAt view one pos).outcome = .ok (node, next)) :
    pos ≤ next := by
  obtain ⟨rule, -, hr⟩ := alternatives_ok h
  obtain ⟨captures, hm, -⟩ := matchRule_ok_iff.mp hr
  exact hm.advances hone

theorem matchEntry_advances {one : View → Matcher} (hone : ∀ view, Advances (one view))
    (view : View) : Advances (matchEntry one view) := by
  intro ⟨slot, entry⟩ pos found next h
  have hf : Forward (expressionAt view (headedRun one)) := fun _ _ _ => expressionAt_forward
  cases entry
  case word | kind | typeName | identifier =>
    obtain ⟨-, -, rfl⟩ := tokenAt_ok h
    omega
  all_goals
    obtain ⟨⟨item, stop⟩, hi, hr⟩ := Attempt.outcome_bind_ok_iff.mp h
    simp only [Attempt.outcome_pure, Except.ok.injEq, Prod.mk.injEq] at hr
    obtain ⟨-, rfl⟩ := hr
  case expression => exact Nat.le_of_lt (hf _ _ _ hi)
  case statement => exact statementAt_advances (hone view) hi
  case arguments => exact Nat.le_of_lt (argumentListAt_forward hf hi)
  case parameters =>
    rcases listOrNone_ok hi with ⟨-, -, rfl⟩ | hs
    · exact Nat.le_refl _
    · exact parametersFrom_forward hf hs
  case optional => exact (matchEntries_ok_iff.mp hi).advances (hone view)
  case statements => exact blockFrom_forward (fun _ _ _ => statementAt_advances (hone view)) hi

theorem matchOne_advances (depth : Nat) (view : View) : Advances (matchOne depth view) := by
  induction depth generalizing view with
  | zero =>
    intro entry pos found next h
    simp [matchOne] at h
  | succ depth ih => exact matchEntry_advances ih view

/-! ## Depths that suffice -/

mutual

/-- With `left` tokens left the depth suffices for the entry. -/
def Entry.Fits (left depth : Nat) : Entry → Prop
  | .word _ | .kind _ | .typeName | .identifier => 1 ≤ depth
  | .expression | .arguments | .parameters => left + 3 ≤ depth
  | .statement | .statements _ => 2 * left + 4 ≤ depth
  | .optional group => 1 ≤ depth ∧ groupFits left (depth - 1) group

/-- The depth suffices for each entry of a group. -/
def groupFits (left depth : Nat) : List (Option Slot × Entry) → Prop
  | [] => True
  | entry :: rest => matchFits left depth entry ∧ groupFits left depth rest

/-- The depth suffices for an entry with its slot. -/
def matchFits (left depth : Nat) : Option Slot × Entry → Prop
  | (_, entry) => entry.Fits left depth

end

/-- The entry takes a token, and never the one that stands past the end of a file. -/
def Entry.consumes : Entry → Bool
  | .word text => text != ""
  | .kind wanted => wanted != .endOfFile
  | .typeName | .identifier => true
  | _ => false

/-- The depth suffices for entries one after the other, where each token that they take
leaves one less. -/
def Paced (depth : Nat) : List Match → Nat → Prop
  | [], _ => True
  | entry :: rest, left =>
    entry.2.Fits left depth ∧
      if entry.2.consumes then 0 < left → Paced depth rest (left - 1)
      else Paced depth rest left

/-- The entries of a statement need little in front of their first token. -/
theorem paced_statementRules {rule : Rule} (hr : rule ∈ statementRules) {depth left : Nat}
    (hd : 2 * left + 3 ≤ depth) : Paced depth rule.entries left := by
  simp only [statementRules, List.mem_cons, List.not_mem_nil, or_false] at hr
  rcases hr with rfl | rfl | rfl | rfl | rfl | rfl | rfl | rfl | rfl | rfl | rfl | rfl |
    rfl | rfl | rfl | rfl | rfl | rfl | rfl | rfl | rfl | rfl | rfl
  all_goals
    simp [Paced, Entry.Fits, groupFits, matchFits, Entry.consumes, word, lineEnd, capture,
      optionally, sharedFlag, expression, body, parameterList, classRule, behaviourRule,
      functionRule, nativeRule, constructorRule, propertyRule, hasBehaviourRule, contractRule,
      Contract.text, updateOrderRule, branchBlockRule, branchChainRule, branchLineRule, whileRule,
      repeatRule, forRule, returnRule, breakRule, continueRule, waitRule, assignmentRule,
      expressionRule]
  all_goals omega

mutual

theorem Entry.Fits.mono {left less depth more : Nat} (hl : less ≤ left)
    (hd : depth ≤ more) : (entry : Entry) → entry.Fits left depth → entry.Fits less more
  | .word _, h | .kind _, h | .typeName, h | .identifier, h => by
    simp only [Entry.Fits] at h ⊢
    omega
  | .expression, h | .arguments, h | .parameters, h | .statement, h | .statements _, h => by
    simp only [Entry.Fits] at h ⊢
    omega
  | .optional group, h => by
    unfold Entry.Fits at h ⊢
    exact ⟨by omega, groupFits.mono hl (by omega) group h.2⟩

theorem groupFits.mono {left less depth more : Nat} (hl : less ≤ left)
    (hd : depth ≤ more) : (group : List (Option Slot × Entry)) →
    groupFits left depth group → groupFits less more group
  | [], _ => by unfold groupFits; trivial
  | entry :: rest, h => by
    unfold groupFits at h ⊢
    exact ⟨matchFits.mono hl hd entry h.1, groupFits.mono hl hd rest h.2⟩

theorem matchFits.mono {left less depth more : Nat} (hl : less ≤ left)
    (hd : depth ≤ more) : (entry : Option Slot × Entry) →
    matchFits left depth entry → matchFits less more entry
  | (_, entry), h => by
    unfold matchFits at h ⊢
    exact Entry.Fits.mono hl hd entry h

end

/-- No token is left in sight of a depth that does not suffice. -/
theorem Entry.not_fits_zero {left : Nat} (entry : Entry) : ¬ entry.Fits left 0 := by
  cases entry <;> simp [Entry.Fits]

theorem paced_of_groupFits {depth left : Nat} (h : groupFits left depth group) :
    Paced depth group left := by
  induction group generalizing left with
  | nil => trivial
  | cons entry rest ih =>
    unfold groupFits matchFits at h
    refine ⟨h.1, ?_⟩
    split
    · exact fun _ => ih (groupFits.mono (Nat.sub_le left 1) (Nat.le_refl depth) rest h.2)
    · exact ih h.2

/-! ## Matching at two depths -/

/-- Two matchers agree on entries one after the other, wherever these can come to stand. -/
def Agrees (one other : Matcher) : List Match → Nat → Prop
  | [], _ => True
  | entry :: rest, pos =>
    one entry pos = other entry pos ∧
      (∀ found next, (one entry pos).outcome = .ok (found, next) →
        Agrees one other rest next) ∧
      (entry.2.isOptional = true → Agrees one other rest pos)

theorem matchEntries_congr {one other : Matcher} (h : Agrees one other entries pos)
    (skipped : Option Fault) (captures : Captures) :
    matchEntries one entries pos skipped captures
      = matchEntries other entries pos skipped captures := by
  induction entries generalizing pos skipped captures with
  | nil => rfl
  | cons entry rest ih =>
    obtain ⟨he, hfn, hs⟩ := h
    unfold matchEntries
    rw [← he]
    refine Attempt.bind_congr_of_ok fun answer han => ?_
    obtain rfl : (one entry pos).outcome = answer := Except.ok.inj han
    cases ho : (one entry pos).outcome with
    | ok result => exact ih (hfn _ _ ho) _ _
    | error fault =>
      obtain ⟨slot, entry⟩ := entry
      cases entry
      case optional group => exact Attempt.bind_congr_of_ok fun _ _ => ih (hs rfl) _ _
      all_goals rfl

theorem alternatives_congr {one other : Matcher} {rules : List Rule}
    (h : ∀ rule ∈ rules, Agrees one other rule.entries pos) (best : Option Fault) :
    alternatives view one rules pos best = alternatives view other rules pos best := by
  induction rules generalizing best with
  | nil => rfl
  | cons rule rest ih =>
    have hr : matchRule view one rule pos = matchRule view other rule pos := by
      unfold matchRule
      rw [matchEntries_congr (h rule (List.mem_cons_self ..))]
    unfold alternatives
    rw [hr]
    refine Attempt.bind_congr_of_ok fun answer _ => ?_
    cases answer with
    | ok found => rfl
    | error fault =>
      exact Attempt.bind_congr_of_ok fun _ _ =>
        ih (fun later hl => h later (List.mem_cons_of_mem _ hl)) _

/-- An entry that takes a token has no elements within it. -/
theorem matchEntry_of_consumes (one other : View → Matcher) (view : View) {entry : Match}
    (he : entry.2.consumes = true) (pos : Nat) :
    matchEntry one view entry pos = matchEntry other view entry pos := by
  obtain ⟨slot, entry⟩ := entry
  cases entry
  case word | kind | typeName | identifier => rfl
  all_goals cases he

theorem matchOne_add_one (depth : Nat) (view : View) :
    matchOne (depth + 1) view = matchEntry (matchOne depth) view := rfl

/-- Entries within a run look at the run only, so that its length bounds their depth. -/
theorem headedRun_succ (depth : Nat) (run : List Token) (after : Token)
    (hd : run.length + 2 ≤ depth) :
    headedRun (matchOne (depth + 1)) run after = headedRun (matchOne depth) run after := by
  induction depth using Nat.strongRecOn generalizing run after with
  | ind depth ih =>
    have har : ∀ (slot : Option Slot) (pos more : Nat), 1 ≤ pos → more < depth →
        run.length ≤ more →
        matchEntry (matchOne (more + 1)) ⟨run.toArray, after⟩ (slot, .arguments) pos
          = matchEntry (matchOne more) ⟨run.toArray, after⟩ (slot, .arguments) pos := by
      intro slot pos more hpos hm hrun
      simp only [matchEntry]
      rw [argumentListAt_congr (fun _ _ _ => expressionAt_forward) fun later hl =>
        expressionAt_congr fun part stop hne hp => ?_]
      refine ih more hm part stop ?_
      have hln := List.length_pos_iff.mpr hne
      simp only [List.size_toArray] at hp
      omega
    obtain ⟨depth, rfl⟩ : ∃ more, depth = more + 2 := ⟨depth - 2, by omega⟩
    unfold headedRun
    refine alternatives_congr (fun rule hr => ?_) none
    rw [matchOne_add_one (depth + 2), matchOne_add_one (depth + 1)]
    simp only [expressionRules, List.mem_cons, List.not_mem_nil, or_false] at hr
    rcases hr with rfl | rfl
    · dsimp only [createRule, Agrees, word, capture]
      refine ⟨matchEntry_of_consumes _ _ _ rfl _, fun _ first hfr =>
        ⟨matchEntry_of_consumes _ _ _ rfl _, fun _ second hs => ⟨?_, ?_, ?_⟩, nofun⟩, nofun⟩
      · obtain ⟨-, -, rfl⟩ := tokenAt_ok hfr
        obtain ⟨-, -, rfl⟩ := tokenAt_ok hs
        have hg : Agrees (matchOne (depth + 2) ⟨run.toArray, after⟩)
            (matchOne (depth + 1) ⟨run.toArray, after⟩) [(some .args, .arguments)] (0 + 1 + 1) := by
          rw [matchOne_add_one (depth + 1), matchOne_add_one depth]
          exact ⟨har _ 2 depth (by omega) (by omega) (by omega), fun _ _ _ => trivial, nofun⟩
        simp only [optionally, matchEntry]
        rw [matchEntries_congr hg]
      · exact fun _ _ _ => trivial
      · exact fun _ => trivial
    · dsimp only [callRule, Agrees, capture]
      refine ⟨matchEntry_of_consumes _ _ _ rfl _, fun _ first hfr =>
        ⟨?_, fun _ _ _ => trivial, nofun⟩, nofun⟩
      obtain ⟨-, -, rfl⟩ := tokenAt_ok hfr
      exact har _ 1 (depth + 1) (by omega) (by omega) (by omega)

/-- The depth that `entryAt` takes suffices for every run. -/
theorem headedRun_matchOne {run : List Token} {after : Token} (hd : run.length + 2 ≤ depth) :
    headedRun (matchOne depth) run after = headedRun entryAt run after := by
  have hs : ∀ more, headedRun (matchOne (run.length + 2 + more)) run after
      = headedRun (matchOne (run.length + 2)) run after := by
    intro more
    induction more with
    | zero => rfl
    | succ more ih =>
      rw [← Nat.add_assoc, headedRun_succ _ _ _ (by omega)]
      exact ih
  obtain ⟨more, rfl⟩ := Nat.exists_eq_add_of_le hd
  have he : headedRun entryAt run after
      = headedRun (matchOne (run.length + 2 + (3 * run.length + 6))) run after := by
    unfold headedRun entryAt depthFor
    simp only [List.size_toArray]
    congr 2
    omega
  rw [he, hs, hs]

/-! ## Matching in a file -/

/-- Past the end of the view stands the end of the file. -/
structure View.Ended (view : View) : Prop where
  kind : view.after.kind = .endOfFile
  text : view.after.text = ""

theorem View.peek_eq_after (h : view.tokens.size ≤ pos) : view.peek pos = view.after := by
  unfold View.peek
  rw [Array.getElem?_eq_none h]
  rfl

/-- An entry that takes a token takes one of the file. -/
theorem matchEntry_consumes {one : View → Matcher} (hv : view.Ended) {entry : Match}
    (he : entry.2.consumes = true)
    (h : (matchEntry one view entry pos).outcome = .ok (found, next)) :
    pos < view.tokens.size ∧ next = pos + 1 := by
  obtain ⟨slot, entry⟩ := entry
  by_cases hpos : pos < view.tokens.size
  · refine ⟨hpos, ?_⟩
    cases entry
    case word | kind | typeName | identifier => exact (tokenAt_ok h).2.2
    all_goals simp [Entry.consumes] at he
  · have hp := View.peek_eq_after (Nat.le_of_not_lt hpos)
    exfalso
    cases entry
    case word text =>
      have hft := (tokenAt_ok h).1
      simp only [hp, Token.spells, hv.text, Bool.and_eq_true, beq_iff_eq] at hft
      simp [Entry.consumes, ← hft.1] at he
    case kind wanted =>
      have hft := (tokenAt_ok h).1
      simp only [hp, hv.kind, decide_eq_true_eq] at hft
      simp [Entry.consumes, ← hft] at he
    case typeName | identifier =>
      have hft := (tokenAt_ok h).1
      simp [hp, hv.kind] at hft
    all_goals simp [Entry.consumes] at he

theorem Paced.agrees (hv : view.Ended)
    (hs : ∀ entry pos, entry.2.Fits (view.tokens.size - pos) depth →
      matchOne (depth + 1) view entry pos = matchOne depth view entry pos) {left pos : Nat}
    (h : Paced depth entries left) (hl : view.tokens.size - pos ≤ left) :
    Agrees (matchOne (depth + 1) view) (matchOne depth view) entries pos := by
  induction entries generalizing left pos with
  | nil => trivial
  | cons entry rest ih =>
    obtain ⟨hft, hr⟩ := h
    have he := hs entry pos (Entry.Fits.mono hl (Nat.le_refl depth) _ hft)
    refine ⟨he, fun found next hfn => ?_, fun ho => ?_⟩
    · cases hc : entry.2.consumes with
      | true =>
        simp only [hc, if_true] at hr
        obtain ⟨hpos, rfl⟩ := matchEntry_consumes hv hc hfn
        exact ih (hr (by omega)) (by omega)
      | false =>
        simp only [hc, Bool.false_eq_true, if_false] at hr
        have hn := matchOne_advances _ _ _ _ _ _ hfn
        exact ih hr (by omega)
    · have hc : entry.2.consumes = false := by
        obtain ⟨slot, entry⟩ := entry
        cases entry <;> simp_all [Entry.isOptional, Entry.consumes]
      simp only [hc, Bool.false_eq_true, if_false] at hr
      exact ih hr hl

/-- What matching an entry asks of the matcher for the elements within it. -/
theorem matchEntry_congr {one other : View → Matcher} (hone : Advances (one view))
    (hr : entry = .expression ∨ entry = .arguments ∨ entry = .parameters →
      ∀ run after, run ≠ [] → run.length ≤ view.tokens.size - pos →
        headedRun one run after = headedRun other run after)
    (hs : entry = .statement ∨ (∃ terminators, entry = .statements terminators) →
      ∀ later, pos ≤ later →
        statementAt view (one view) later = statementAt view (other view) later)
    (hg : ∀ group, entry = .optional group →
      Agrees (one view) (other view) group pos) :
    matchEntry one view (slot, entry) pos = matchEntry other view (slot, entry) pos := by
  have hf : Forward (expressionAt view (headedRun one)) := fun _ _ _ => expressionAt_forward
  have he (hen : entry = .expression ∨ entry = .arguments ∨ entry = .parameters)
      (later : Nat) (hl : pos ≤ later) : expressionAt view (headedRun one) later
        = expressionAt view (headedRun other) later := by
    refine expressionAt_congr fun run after hne hrun => ?_
    exact hr hen run after hne (by omega)
  cases entry <;> simp only [matchEntry]
  case expression => rw [he (by simp) pos (Nat.le_refl pos)]
  case arguments =>
    rw [argumentListAt_congr hf fun later hl => he (by simp) later (Nat.le_of_lt hl)]
  case parameters =>
    rw [parametersFrom_congr hf _ _ _ fun later hl => he (by simp) later hl]
  case statement => rw [hs (by simp) pos (Nat.le_refl pos)]
  case statements =>
    rw [blockFrom_congr (fun _ _ _ => statementAt_advances hone) _ _ _ _ fun later hl =>
      hs (by simp) later hl]
  case optional group => rw [matchEntries_congr (hg group rfl)]

/-- Entries of a file are matched in the same way at every depth that suffices. -/
theorem matchOne_succ (hv : view.Ended) (depth : Nat) (entry : Match) (pos : Nat)
    (hft : entry.2.Fits (view.tokens.size - pos) depth) :
    matchOne (depth + 1) view entry pos = matchOne depth view entry pos := by
  induction depth generalizing entry pos with
  | zero => exact absurd hft (Entry.not_fits_zero _)
  | succ depth ih =>
    refine matchEntry_congr (matchOne_advances _ _) (fun he => ?_) (fun he => ?_)
      (fun group he => ?_)
    · intro run after hne hrun
      refine headedRun_succ depth run after ?_
      rcases he with he | he | he <;> simp only [he, Entry.Fits] at hft <;> omega
    · intro later hl
      refine alternatives_congr (fun rule hr => ?_) none
      have hd : 2 * (view.tokens.size - pos) + 3 ≤ depth := by
        rcases he with he | ⟨terminators, he⟩ <;> simp only [he, Entry.Fits] at hft <;> omega
      exact (paced_statementRules hr hd).agrees hv ih (by omega)
    · rw [he, Entry.Fits] at hft
      exact (paced_of_groupFits hft.2).agrees hv ih (Nat.le_refl _)

theorem matchOne_of_le (hv : view.Ended) {depth more : Nat} (hm : depth ≤ more)
    {entry : Match} (hft : entry.2.Fits (view.tokens.size - pos) depth) :
    matchOne more view entry pos = matchOne depth view entry pos := by
  obtain ⟨extra, rfl⟩ := Nat.exists_eq_add_of_le hm
  induction extra with
  | zero => rfl
  | succ extra ih =>
    rw [← ih (Nat.le_add_right ..)]
    refine matchOne_succ hv (depth + extra) entry pos ?_
    exact Entry.Fits.mono (Nat.le_refl _) (Nat.le_add_right ..) _ hft

/-! ## Matching without a bound -/

/-- No optional group stands within another.  For such entries the depth that `entryAt` takes
is more than enough. -/
def Entry.isPlain : Entry → Bool
  | .optional group => group.all fun entry => !entry.2.isOptional
  | _ => true

theorem isPlain_statementRules : ∀ rule ∈ statementRules, ∀ entry ∈ rule.entries,
    entry.2.isPlain = true := by
  have hall : (statementRules.all fun rule =>
      rule.entries.all fun entry => entry.2.isPlain) = true := rfl
  simpa only [List.all_eq_true] using hall

theorem Entry.isPlain_of_not_optional (he : entry.isOptional = false) : entry.isPlain = true := by
  cases entry
  case optional => cases he
  all_goals rfl

theorem Entry.fits_of_not_optional (he : entry.isOptional = false) {left depth : Nat}
    (hd : 2 * left + 4 ≤ depth) : entry.Fits left depth := by
  cases entry <;> simp_all [Entry.Fits, Entry.isOptional] <;> omega

theorem groupFits_of_not_optional (hg : ∀ entry ∈ group, entry.2.isOptional = false)
    {left depth : Nat} (hd : 2 * left + 4 ≤ depth) : groupFits left depth group := by
  induction group with
  | nil => simp [groupFits]
  | cons entry rest ih =>
    unfold groupFits matchFits
    rw [List.forall_mem_cons] at hg
    exact ⟨Entry.fits_of_not_optional hg.1 hd, ih hg.2⟩

theorem Entry.not_optional_of_isPlain (hg : (Entry.optional group).isPlain = true) :
    ∀ entry ∈ group, entry.2.isOptional = false := by
  simpa only [isPlain, List.all_eq_true, Bool.not_eq_true'] using hg

theorem Entry.fits_of_isPlain (he : entry.isPlain = true) {left depth : Nat}
    (hd : 2 * left + 5 ≤ depth) : entry.Fits left depth := by
  cases entry
  case optional group =>
    unfold Entry.Fits
    exact ⟨by omega, groupFits_of_not_optional (not_optional_of_isPlain he) (by omega)⟩
  all_goals exact Entry.fits_of_not_optional rfl (by omega)

theorem entryAt_eq_matchEntry (view : View) :
    entryAt view = matchEntry (matchOne (4 * view.tokens.size + 7)) view := rfl

/-- The entries of a file are matched as if there were no bound on the depth. -/
theorem entryAt_eq (hv : view.Ended) {entry : Match} (he : entry.2.isPlain = true)
    (pos : Nat) :
    entryAt view entry pos = matchEntry entryAt view entry pos := by
  have hag : ∀ entries : List Match, (∀ other ∈ entries, other.2.isPlain = true) →
      ∀ later, Agrees (matchOne (4 * view.tokens.size + 7) view) (entryAt view) entries later := by
    intro entries
    induction entries with
    | nil => exact fun _ _ => trivial
    | cons other rest ih =>
      intro hp later
      rw [List.forall_mem_cons] at hp
      refine ⟨?_, fun _ next _ => ih hp.2 next, fun _ => ih hp.2 later⟩
      exact (matchOne_of_le hv (by unfold depthFor; omega)
        (Entry.fits_of_isPlain hp.1 (by omega))).symm
  rw [entryAt_eq_matchEntry]
  refine matchEntry_congr (matchOne_advances _ _) (fun _ => ?_) (fun _ => ?_) (fun group hg => ?_)
  · intro run after hne hrun
    exact headedRun_matchOne (by omega)
  · intro later _
    refine alternatives_congr (fun rule hr => ?_) none
    exact hag _ (isPlain_statementRules rule hr) later
  · refine hag group (fun other ho => ?_) pos
    refine Entry.isPlain_of_not_optional ?_
    exact Entry.not_optional_of_isPlain (hg ▸ he) other ho

/-- Arguments are matched as if there were no bound on the depth, in every view. -/
theorem matchOne_arguments (hd : view.tokens.size + 3 ≤ depth) (slot : Option Slot)
    (pos : Nat) :
    matchOne depth view (slot, .arguments) pos
      = matchEntry entryAt view (slot, .arguments) pos := by
  obtain ⟨depth, rfl⟩ : ∃ more, depth = more + 1 := ⟨depth - 1, by omega⟩
  change matchEntry (matchOne depth) view _ pos = _
  refine matchEntry_congr (matchOne_advances _ _) (fun _ => ?_) (by simp) (by simp)
  intro run after hne hrun
  exact headedRun_matchOne (by omega)

theorem entryAt_optional_arguments (view : View) (outer slot : Option Slot) (pos : Nat) :
    entryAt view (outer, .optional [(slot, .arguments)]) pos
      = matchEntry entryAt view (outer, .optional [(slot, .arguments)]) pos := by
  rw [entryAt_eq_matchEntry]
  refine matchEntry_congr (matchOne_advances _ _) (by simp) (by simp) fun group hg => ?_
  obtain rfl := Entry.optional.inj hg
  refine ⟨?_, fun _ _ _ => trivial, nofun⟩
  rw [entryAt, matchOne_arguments (by omega), matchOne_arguments (by unfold depthFor; omega)]

/-! ## Entries that take a token -/

/-- The entry takes the token. -/
def Entry.accepts : Entry → Token → Bool
  | .word text, token => token.spells text
  | .kind wanted, token => token.kind = wanted
  | .typeName, token => token.kind = .typeName && !constantNames.contains token.text
  | .identifier, token => token.kind = .identifier
  | _, _ => false

/-- An entry that takes a token looks at that token only. -/
theorem entryAt_token_iff (he : entry.consumes = true) :
    (entryAt view (slot, entry) pos).outcome = .ok (found, next) ↔
      entry.accepts (view.peek pos) = true ∧
        found = inSlot slot (.text (view.peek pos).text) ∧ next = pos + 1 := by
  have ht : ∀ (fits : Token → Bool) (what : String),
      (tokenAt view slot pos fits what).outcome = .ok (found, next) ↔
        fits (view.peek pos) = true ∧ found = inSlot slot (.text (view.peek pos).text) ∧
          next = pos + 1 := by
    intro fits what
    refine ⟨tokenAt_ok, fun ⟨hft, hfn, hn⟩ => ?_⟩
    unfold tokenAt
    rw [if_pos hft, hfn, hn]
    rfl
  rw [entryAt_eq_matchEntry, matchEntry_of_consumes _ entryAt view he]
  cases entry
  case word | kind | typeName | identifier => exact ht _ _
  all_goals cases he

theorem entryAt_token_ok (h : (entryAt view (slot, entry) pos).outcome = .ok (found, next))
    (he : entry.consumes = true) :
    entry.accepts (view.peek pos) = true ∧
      found = inSlot slot (.text (view.peek pos).text) ∧ next = pos + 1 :=
  (entryAt_token_iff he).mp h

end StepScript.Grammar
