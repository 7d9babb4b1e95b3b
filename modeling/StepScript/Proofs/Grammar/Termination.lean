import StepScript.Proofs.Grammar.Blocks
import StepScript.Proofs.Grammar.Traces
set_option autoImplicit false

/-!
# Parsing comes to an end

In a file, what matches ends in front of the end of the file, and a statement or an expression ends
behind where it starts.  A routine that is called within itself has fewer tokens left then, however
many others are called in between (`Event.Below`), and no bound on rounds or depth is ever used up.
-/

namespace StepScript.Grammar

open List (forall_mem_append forall_mem_cons forall_mem_nil forall_mem_singleton)

variable {view : View} {pos next depth : Nat} {node : Node}

/-! ## Positions -/

/-- A run does not go beyond the end of a file. -/
theorem runLength_le {tokens : List Token} {stop : Nat} (hs : stop ≤ tokens.length)
    (h : ∀ token ∈ tokens[stop]?, token.kind = .endOfFile) (depth : Nat) :
    runLength depth tokens ≤ stop := by
  induction tokens generalizing stop depth with
  | nil => exact Nat.zero_le _
  | cons token rest ih =>
    cases stop with
    | zero =>
      have hk := h token rfl
      simp [runLength, hk]
    | succ stop =>
      have hr := ih (Nat.le_of_succ_le_succ hs) h
      rw [runLength]
      split
      · omega
      · omega
      · exact Nat.succ_le_succ (hr _)
      · split
        · omega
        · exact Nat.succ_le_succ (hr _)
      · split
        · omega
        · exact Nat.succ_le_succ (hr _)

theorem View.length_from (view : View) (pos : Nat) :
    (view.from pos).length = view.tokens.size - pos := by
  rw [View.from, List.length_drop, Array.length_toList]

section Expressions

variable {headed : List Token → Token → Attempt (Node × Nat)}

/-- An expression is a part of what it is read from. -/
theorem expressionAt_inside (h : (expressionAt view headed pos).outcome = .ok (node, next)) :
    pos < next ∧ next ≤ view.tokens.size := by
  obtain ⟨hne, rfl, -⟩ := expressionAt_ok_iff.mp h
  have hl := runLength_le (Nat.le_refl (view.from pos).length) (by simp) 0
  rw [View.length_from] at hl
  omega

/-- The last token of the view ends the file, and so does every one past it. -/
structure View.Ends (view : View) : Prop where
  isFile : view.IsFile
  last : view.tokens.back? = some view.after

theorem View.Ends.expressionAt_inside (hv : view.Ends)
    (h : (expressionAt view headed pos).outcome = .ok (node, next)) :
    next < view.tokens.size := by
  obtain ⟨hlt, hle⟩ := Grammar.expressionAt_inside h
  obtain ⟨-, rfl, -⟩ := expressionAt_ok_iff.mp h
  have hl : ∀ token ∈ (view.from pos)[view.tokens.size - 1 - pos]?, token.kind = .endOfFile := by
    intro token ht
    have hb := hv.last
    rw [Array.back?_eq_getElem?] at hb
    rw [View.from, List.getElem?_drop, Array.getElem?_toList,
      show pos + (view.tokens.size - 1 - pos) = view.tokens.size - 1 by omega, hb] at ht
    exact Option.some.inj ht ▸ hv.isFile.ended.kind
  have hr := runLength_le (by rw [View.length_from]; omega) hl 0
  omega

end Expressions

/-- Statements are matched in the same way at every depth that suffices. -/
theorem statementAt_of_le (hv : view.Ended) {more : Nat} (hm : depth ≤ more)
    (hd : 2 * (view.tokens.size - pos) + 3 ≤ depth) :
    statementAt view (matchOne more view) pos = statementAt view (matchOne depth view) pos := by
  obtain ⟨extra, rfl⟩ := Nat.exists_eq_add_of_le hm
  clear hm
  induction extra with
  | zero => rfl
  | succ extra ih =>
    rw [← ih]
    refine alternatives_congr (fun rule hr => ?_) none
    exact (paced_statementRules hr (by omega)).agrees hv
      (fun entry pos => matchOne_succ hv (depth + extra) entry pos) (Nat.le_refl _)

/-- A statement ends behind where it starts and in front of the end of the file. -/
theorem statementAt_inside (hv : view.Ends) (hd : 2 * (view.tokens.size - pos) + 3 ≤ depth)
    (h : (statementAt view (matchOne depth view) pos).outcome = .ok (node, next)) :
    pos < next ∧ next < view.tokens.size := by
  have hfull : statementAt view (entryAt view) pos = statementAt view (matchOne depth view) pos := by
    have hle : 2 * (view.tokens.size - pos) + 3 ≤ depthFor view.tokens.size := by
      unfold depthFor
      omega
    rcases Nat.le_total depth (depthFor view.tokens.size) with hm | hm
    · exact statementAt_of_le hv.isFile.ended hm hd
    · exact (statementAt_of_le hv.isFile.ended hm hle).symm
  rw [← hfull] at h
  obtain ⟨⟨part, hp, hr⟩, -⟩ := statementsRead hv.isFile pos pos node next (Nat.le_refl _) h
  obtain ⟨symbol, rest, hs, -⟩ := hr.exists_head
  have hlen := congrArg List.length hp
  have hpart := congrArg List.length hs
  simp only [List.length_append, View.length_from, symbols, List.length_map,
    List.length_cons] at hlen hpart
  refine ⟨by omega, Nat.lt_of_not_le fun hle => ?_⟩
  -- the end of the file would be a part of the statement
  have hlast : (view.from pos).getLast? = some view.after := by
    rw [View.from, List.getLast?_drop, Array.getLast?_toList, hv.last, Array.length_toList,
      if_neg (by omega)]
  have hnil : view.from next = [] := List.length_eq_zero_iff.mp (by rw [View.length_from]; omega)
  rw [hp, hnil, List.append_nil] at hlast
  exact hr.noFileEnd noFileEnd_nil _ (List.mem_map_of_mem (List.mem_of_getLast? hlast))
    hv.isFile.ended.kind

/-! ## What holds of all events -/

/-- Something holds of all events of a trace. -/
abbrev All (P : Event → Prop) (trace : List Event) : Prop := ∀ event ∈ trace, P event

section All

variable {α : Type} {P : Event → Prop}

theorem all_bind {attempt : Attempt α} {trace : List Event} {later : α → List Event}
    (ht : All P trace) (h : ∀ answer, attempt.outcome = .ok answer → All P (later answer)) :
    All P (trace ++ attempt.thenTrace later) := by
  refine forall_mem_append.mpr ⟨ht, ?_⟩
  unfold Attempt.thenTrace
  split
  · next ho => exact h _ ho
  · exact forall_mem_nil _

variable (hr : ∀ fault, P (.raised fault))

include hr

theorem all_raised (fault : Fault) : All P [.raised fault] := forall_mem_singleton.mpr (hr _)

theorem all_own (attempt : Attempt α) : All P attempt.ownTrace := by
  unfold Attempt.ownTrace
  split
  · exact forall_mem_nil _
  · exact all_raised hr _

omit hr in
theorem all_entries {one : Matcher} {within : Match → Nat → List Event} (ha : Advances one)
    {entries : List Match}
    (h : ∀ entry ∈ entries, ∀ later, pos ≤ later → All P (within entry later)) :
    All P (entriesTrace one within entries pos) := by
  induction entries generalizing pos with
  | nil => exact forall_mem_nil _
  | cons entry rest ih =>
    obtain ⟨he, hrest⟩ := forall_mem_cons.mp h
    refine forall_mem_append.mpr ⟨he pos (Nat.le_refl _), ?_⟩
    split
    · next ho =>
      have hn := ha _ _ _ _ ho
      exact ih fun entry hm later hl => hrest entry hm later (by omega)
    · split
      · exact ih hrest
      · exact forall_mem_nil _

omit hr in
/-- It is enough if it holds where the depth suffices that entries one after the other need. -/
theorem all_paced (hv : view.IsFile) {bound left : Nat} {within : Match → Nat → List Event}
    {entries : List Match} (hp : Paced bound entries left) (hl : view.tokens.size - pos ≤ left)
    (h : ∀ entry later, pos ≤ later → entry.2.Fits (view.tokens.size - later) bound →
      All P (within entry later)) :
    All P (entriesTrace (matchOne depth view) within entries pos) := by
  induction entries generalizing left pos with
  | nil => exact forall_mem_nil _
  | cons entry rest ih =>
    obtain ⟨hf, hrest⟩ := hp
    have he := h entry pos (Nat.le_refl _) (Entry.Fits.mono hl (Nat.le_refl _) _ hf)
    refine forall_mem_append.mpr ⟨he, ?_⟩
    split
    · next next ho =>
      have hn := matchOne_advances _ _ _ _ _ _ ho
      have hlater := fun entry later (hle : next ≤ later) => h entry later (by omega)
      cases hc : entry.2.consumes with
      | true =>
        rw [if_pos hc] at hrest
        obtain ⟨more, rfl⟩ : ∃ more, depth = more + 1 := by
          cases depth with
          | zero => simp [matchOne] at ho
          | succ more => exact ⟨more, rfl⟩
        obtain ⟨hlt, rfl⟩ := matchEntry_consumes hv.ended hc ho
        exact ih (hrest (by omega)) (by omega) hlater
      | false =>
        rw [if_neg (by simp [hc])] at hrest
        exact ih hrest (by omega) hlater
    · split
      · next ho =>
        have hc : entry.2.consumes = false := by
          obtain ⟨slot, entry⟩ := entry
          cases entry <;> first | rfl | cases ho
        rw [if_neg (by simp [hc])] at hrest
        exact ih hrest hl h
      · exact forall_mem_nil _

theorem all_rules {one : Matcher} {within : Match → Nat → List Event} {rules : List Rule}
    {best : Option Fault}
    (h : ∀ rule ∈ rules, All P (entriesTrace one within rule.entries pos)) :
    All P (rulesTrace one within view rules pos best) := by
  induction rules generalizing best with
  | nil =>
    cases best with
    | none => exact all_raised hr _
    | some fault => exact forall_mem_nil _
  | cons rule rest ih =>
    obtain ⟨hrule, hrest⟩ := forall_mem_cons.mp h
    refine forall_mem_append.mpr ⟨all_bind hrule fun answer _ => ?_, ?_⟩
    · dsimp only
      split
      · exact forall_mem_nil _
      · exact all_raised hr _
    · split
      · exact forall_mem_nil _
      · exact ih hrest

theorem all_block {statement : Nat → Attempt (Node × Nat)} {within : Nat → List Event}
    {terminators : List String} {rounds : Nat}
    (hs : ∀ pos node next, (statement pos).outcome = .ok (node, next) → pos ≤ next)
    (h : ∀ later, pos ≤ later → All P (within later))
    (hx : (∀ token, P (.exhausted token)) ∨ view.IsFile ∧
      (∀ later node next, pos ≤ later → (statement later).outcome = .ok (node, next) →
        later < next ∧ next < view.tokens.size) ∧
      0 < rounds ∧ view.tokens.size < rounds + pos) :
    All P (blockTrace view statement within terminators rounds pos) := by
  induction rounds generalizing pos with
  | zero => exact forall_mem_singleton.mpr (hx.elim (· _) (by simp))
  | succ rounds ih =>
    have hgo {place : Nat} (hle : pos ≤ place)
        (hin : (∀ token, P (.exhausted token)) ∨ pos < place ∧ pos < view.tokens.size) :
        All P (blockTrace view statement within terminators rounds place) := by
      refine ih (fun later hl => h later (by omega)) ?_
      rcases hx, hin with ⟨hx | ⟨hv, hm, hb⟩, hx | hlt⟩ <;> first | exact .inl hx | skip
      exact .inr ⟨hv, fun later node next hl => hm later node next (by omega), by omega⟩
    unfold blockTrace
    split
    · next hk =>
      exact hgo (by omega) (hx.imp_right fun hb => ⟨by omega, hb.1.lt_size (by simp [hk])⟩)
    · split
      · split
        · exact forall_mem_nil _
        · exact all_raised hr _
      · split
        · exact forall_mem_nil _
        · refine all_bind (h pos (Nat.le_refl _)) fun answer ho => ?_
          have hle := hs pos answer.1 answer.2 ho
          have hin := hx.imp_right fun hb => hb.2.1 pos _ _ (Nat.le_refl _) ho
          dsimp only
          split
          · exact hgo (by omega) (hin.imp_right fun _ => by omega)
          · split
            · exact hgo hle (hin.imp_right fun _ => by omega)
            · exact all_raised hr _

section Lists

variable {headed : List Token → Token → Attempt (Node × Nat)} {within : Nat → List Event}
  (h : ∀ later, pos ≤ later → All P (within later))

include h

omit hr in
theorem all_arguments {rounds : Nat}
    (hx : (∀ token, P (.exhausted token)) ∨ 0 < rounds ∧ view.tokens.size < rounds + pos) :
    All P (argumentsTrace view (expressionAt view headed) within rounds pos) := by
  induction rounds generalizing pos with
  | zero => exact forall_mem_singleton.mpr (hx.elim (· _) (by simp))
  | succ rounds ih =>
    refine all_bind (h pos (Nat.le_refl _)) fun answer ho => ?_
    have hlt := expressionAt_inside ho
    dsimp only
    split
    · exact ih (fun later hl => h later (by omega)) (hx.imp_right fun _ => by omega)
    · exact forall_mem_nil _

theorem all_parameters {rounds : Nat} {given : List Parameter}
    (hx : (∀ token, P (.exhausted token)) ∨
      view.IsFile ∧ 0 < rounds ∧ view.tokens.size < rounds + pos) :
    All P (parametersTrace view (expressionAt view headed) within rounds pos given) := by
  induction rounds generalizing pos given with
  | zero => exact forall_mem_singleton.mpr (hx.elim (· _) (by simp))
  | succ rounds ih =>
    refine all_bind (all_own hr _) fun name hn => ?_
    refine all_bind ?_ fun answer ho => ?_
    · split
      · exact h _ (by omega)
      · exact forall_mem_nil _
    · have hle := initialAt_forward (fun _ _ _ => expressionAt_forward) ho
      dsimp only
      split
      · refine ih (fun later hl => h later (by omega)) (hx.imp_right fun hb => ?_)
        have hin : pos < view.tokens.size := by
          refine hb.1.lt_size fun hk => ?_
          simp [parameterNameAt, hk] at hn
        exact ⟨hb.1, by omega⟩
      · exact forall_mem_nil _

end Lists

section Runs

variable {headed : List Token → Token → Attempt (Node × Nat)}
  {within : List Token → Token → List Event} {run : List Token} {after : Token}

/-- What happens within a run happens in a shorter part of it or in the rules on it. -/
theorem all_split_tail
    (hp : ∀ part stop, part.length < run.length → All P (splitTrace headed within depth part stop))
    (hh : run ≠ [] → All P (within run after)) :
    All P (splitTrace headed within (depth + 1) run after).tail := by
  cases run with
  | nil => exact all_raised hr _
  | cons first rest =>
    unfold splitTrace
    dsimp only [List.tail_cons]
    cases splitPoint? (first :: rest) after with
    | error fault => exact all_raised hr _
    | ok point =>
      cases point with
      | some point =>
        dsimp only
        cases hd : (first :: rest).drop point.index with
        | nil => exact all_raised hr _
        | cons op right =>
          have hlen := congrArg List.length hd
          simp only [List.length_drop, List.length_cons] at hlen
          have hright := hp right after (by simp only [List.length_cons]; omega)
          dsimp only
          split
          · exact hright
          · have hleft := hp ((first :: rest).take point.index) op
              (by simp only [List.length_take, List.length_cons]; omega)
            refine all_bind hleft fun lhs _ => ?_
            exact all_bind hright fun rhs _ => all_own hr _
      | none =>
        dsimp only
        split
        · exact hp _ _ (by simp only [List.length_dropLast, List.length_cons]; omega)
        · split
          · exact all_own hr _
          · refine all_bind (hh (List.cons_ne_nil _ _)) fun answer _ => ?_
            split
            · exact forall_mem_nil _
            · exact all_raised hr _

variable {bound : Nat}
  (hc : ∀ (part : List Token) stop, part.length ≤ bound →
    P (.called .split ⟨part.toArray, stop⟩ 0))
  (hh : ∀ part stop, part ≠ [] → part.length ≤ bound → All P (within part stop))

include hc hh

theorem all_split (hb : run.length ≤ bound)
    (hx : (∀ token, P (.exhausted token)) ∨ run.length < depth) :
    All P (splitTrace headed within depth run after) := by
  induction depth generalizing run after with
  | zero => exact forall_mem_singleton.mpr (hx.elim (· _) (by simp))
  | succ depth ih =>
    refine forall_mem_cons.mpr ⟨hc run after hb, all_split_tail hr (fun part stop hp => ?_)
      fun hne => hh run after hne hb⟩
    exact ih (by omega) (hx.imp_right fun _ => by omega)

theorem all_expression_tail (hb : view.tokens.size - pos ≤ bound) :
    All P (expressionTrace headed within view pos).tail := by
  unfold expressionTrace
  dsimp only [List.tail_cons]
  split
  · exact all_raised hr _
  · have hl := List.length_take_le (runLength 0 (view.from pos)) (view.from pos)
    have hle := List.length_take_le' (runLength 0 (view.from pos)) (view.from pos)
    rw [View.from, List.length_drop, Array.length_toList] at hle
    exact all_split hr hc hh (Nat.le_trans hle hb) (.inr (Nat.lt_succ_of_le hl))

end Runs

/-- The entries whose parts are expressions. -/
theorem all_list_entry {one : View → Matcher} {within : View → Match → Nat → List Event}
    {slot : Option Slot} {entry : Entry}
    (h : ∀ later, pos ≤ later → (entry = .arguments → pos < later) →
      All P (expressionTrace (headedRun one) (headedTrace one within) view later))
    (hx : entry = .parameters → (∀ token, P (.exhausted token)) ∨ view.IsFile)
    (he : entry = .expression ∨ entry = .arguments ∨ entry = .parameters) :
    All P (entryTrace one within view (slot, entry) pos) := by
  rcases he with rfl | rfl | rfl
  · exact h pos (Nat.le_refl _) (by simp)
  · unfold entryTrace argumentListTrace
    dsimp only
    split
    · exact all_raised hr _
    · refine all_bind ?_ fun answer _ => ?_
      · split
        · exact forall_mem_nil _
        · exact all_arguments (fun later hl => h later (by omega) fun _ => hl) (.inr (by omega))
      · split
        · exact all_raised hr _
        · exact forall_mem_nil _
  · unfold entryTrace
    dsimp only
    split
    · exact forall_mem_nil _
    · exact all_parameters hr (fun later hl => h later hl (by simp))
        ((hx rfl).imp_right fun hv => ⟨hv, by omega⟩)

/-- Behind a token entry the rest is matched one token further. -/
theorem all_token {entry : Match} {rest : List Match} (he : entry.2.consumes = true)
    (hx : (∀ token, P (.exhausted token)) ∨ 0 < depth)
    (h : All P (entriesTrace (matchOne depth view) (oneTrace depth view) rest (pos + 1))) :
    All P (entriesTrace (matchOne depth view) (oneTrace depth view) (entry :: rest) pos) := by
  obtain ⟨slot, entry⟩ := entry
  refine forall_mem_append.mpr ⟨?_, ?_⟩
  · cases depth with
    | zero => exact forall_mem_singleton.mpr (hx.elim (· _) (by simp))
    | succ depth => cases entry <;> first | exact all_own hr _ | cases he
  · split
    · next found next ho =>
      obtain rfl : next = pos + 1 := by
        cases depth with
        | zero => cases ho
        | succ depth => cases entry <;> first | exact (tokenAt_ok ho).2.2 | cases he
      exact h
    · rw [if_neg (by cases entry <;> first | exact Bool.false_ne_true | cases he)]
      exact forall_mem_nil _

end All

/-! ## Fewer tokens are left -/

/-- How far out the routine stands. -/
def Routine.level : Routine → Nat
  | .run => 0
  | .split => 1
  | .expression => 2
  | .statement => 3
  | .block => 4

/-- No more than `left` tokens are left for what is called, and fewer for a routine of the level or
further out. -/
def Event.Below (left level : Nat) : Event → Prop
  | .called routine view pos => view.tokens.size - pos ≤ left ∧
      (level ≤ routine.level → view.tokens.size - pos < left)
  | _ => True

theorem Event.Below.mono {left more level high : Nat} {event : Event}
    (h : event.Below left level) (hl : left ≤ more) (hi : level ≤ high ∨ left < more) :
    event.Below more high := by
  cases event with
  | called routine view pos =>
    obtain ⟨hle, hlt⟩ := h
    refine ⟨by omega, fun hr => ?_⟩
    rcases hi with hi | hi
    · exact Nat.lt_of_lt_of_le (hlt (by omega)) hl
    · omega
  | _ => trivial

theorem all_below {left more level high : Nat} {trace : List Event}
    (h : All (Event.Below left level) trace) (hl : left ≤ more)
    (hi : level ≤ high ∨ left < more) : All (Event.Below more high) trace :=
  fun event he => (h event he).mono hl hi

/-- A call of a routine that stands further in. -/
theorem Event.Below.called {left level : Nat} {routine : Routine} {inner : View} {place : Nat}
    (hl : inner.tokens.size - place ≤ left) (hr : routine.level < level) :
    (Event.called routine inner place).Below left level :=
  ⟨hl, fun hle => absurd hr (Nat.not_lt_of_le hle)⟩

section Below

variable {run : List Token} {after : Token} {terminators : List String} {rounds : Nat}

/-- The trace of the rules of expressions on a run, at a depth. -/
abbrev runTraceAt (depth : Nat) : List Token → Token → List Event :=
  headedTrace (matchOne depth) (oneTrace depth)

/-- The trace of an expression, at a depth. -/
abbrev expressionTraceAt (depth : Nat) : View → Nat → List Event :=
  expressionTrace (headedRun (matchOne depth)) (runTraceAt depth)

/-- The trace of a statement, at a depth. -/
abbrev statementTraceAt (depth : Nat) (view : View) : Nat → List Event :=
  statementTrace (matchOne depth view) (oneTrace depth view) view

/-- The trace of statements up to a terminator, at a depth. -/
abbrev blockTraceAt (depth : Nat) (view : View) : List String → Nat → Nat → List Event :=
  blockTrace view (statementAt view (matchOne depth view)) (statementTraceAt depth view)

theorem oneTrace_within (depth : Nat) (view : View) (entry : Match) (pos : Nat) :
    All (Event.Below (view.tokens.size - pos) 5) (oneTrace depth view entry pos) := by
  induction depth generalizing view entry pos with
  | zero => exact forall_mem_singleton.mpr trivial
  | succ depth ih =>
    have hrules {inner : View} {place : Nat} (hp : inner.tokens.size - place ≤ view.tokens.size - pos)
        (rules : List Rule) : All (Event.Below (view.tokens.size - pos) 5)
          (rulesTrace (matchOne depth inner) (oneTrace depth inner) inner rules place none) :=
      all_rules (fun _ => trivial) fun rule _ => all_entries (matchOne_advances _ _)
        fun entry _ later hl => all_below (ih inner entry later) (by omega) (.inl (Nat.le_refl _))
    have hs (later : Nat) (hl : pos ≤ later) :
        All (Event.Below (view.tokens.size - pos) 5) (statementTraceAt depth view later) :=
      forall_mem_cons.mpr ⟨.called (by omega) (by decide), hrules (by omega) _⟩
    have he (later : Nat) (hl : pos ≤ later) :
        All (Event.Below (view.tokens.size - pos) 5) (expressionTraceAt depth view later) := by
      refine forall_mem_cons.mpr ⟨.called (by omega) (by decide), ?_⟩
      refine all_expression_tail (fun _ => trivial) (fun part stop hp => ?_)
        (fun part stop _ hp => ?_) (Nat.le_refl _)
      · exact .called (by simp only [List.size_toArray]; omega) (by decide)
      · have hle : part.toArray.size - 0 ≤ view.tokens.size - pos := by
          simp only [List.size_toArray]
          omega
        exact forall_mem_cons.mpr ⟨.called hle (by decide), hrules hle _⟩
    obtain ⟨slot, entry⟩ := entry
    cases entry
    case word | kind | typeName | identifier => exact all_own (fun _ => trivial) _
    case expression | arguments | parameters =>
      exact all_list_entry (fun _ => trivial) (fun later hl _ => he later hl) (fun _ => .inl fun _ => trivial) (by simp)
    case statement => exact hs pos (Nat.le_refl _)
    case optional group =>
      exact all_entries (matchOne_advances _ _) fun entry _ later hl =>
        all_below (ih view entry later) (by omega) (.inl (Nat.le_refl _))
    case statements terminators =>
      refine forall_mem_cons.mpr ⟨.called (Nat.le_refl _) (by decide), ?_⟩
      exact all_block (fun _ => trivial) (fun _ _ _ => statementAt_advances (matchOne_advances _ _))
        hs (.inl fun _ => trivial)

/-- The rules of expressions take a token before anything is called. -/
theorem runTraceAt_below (hne : run ≠ []) :
    All (Event.Below run.length 0) (runTraceAt depth run after).tail := by
  have hlen := List.length_pos_iff.mpr hne
  have hlater (rest : List Match) : All (Event.Below run.length 0)
      (entriesTrace (matchOne depth ⟨run.toArray, after⟩) (oneTrace depth ⟨run.toArray, after⟩) rest
        (0 + 1)) := by
    refine all_entries (matchOne_advances _ _) fun entry _ later hl => ?_
    have hlt : run.toArray.size - later < run.length := by
      simp only [List.size_toArray]
      omega
    exact all_below (oneTrace_within depth _ entry later) (Nat.le_of_lt hlt) (.inr hlt)
  refine all_rules (fun _ => trivial) fun rule hr => ?_
  obtain ⟨entry, rest, he, hc⟩ : ∃ entry rest, rule.entries = entry :: rest ∧
      entry.2.consumes = true := by
    simp only [expressionRules, List.mem_cons, List.not_mem_nil, or_false] at hr
    rcases hr with rfl | rfl <;> exact ⟨_, _, rfl, rfl⟩
  rw [he]
  exact all_token (fun _ => trivial) hc (.inl fun _ => trivial) (hlater rest)

theorem expressionTraceAt_below :
    All (Event.Below (view.tokens.size - pos) 2) (expressionTraceAt depth view pos).tail := by
  refine all_expression_tail (fun _ => trivial) (fun part stop hp => ?_)
    (fun part stop hne hp => ?_) (Nat.le_refl _)
  · exact .called hp (by decide)
  · exact forall_mem_cons.mpr ⟨.called hp (by decide),
      all_below (runTraceAt_below hne) hp (.inl (by omega))⟩

theorem splitTrace_below {bound : Nat} :
    All (Event.Below run.length 1)
      (splitTrace (headedRun (matchOne depth)) (runTraceAt depth) bound run after).tail := by
  have hh (part : List Token) (stop : Token) (hne : part ≠ []) (hp : part.length ≤ run.length) :
      All (Event.Below run.length 1) (runTraceAt depth part stop) :=
    forall_mem_cons.mpr ⟨.called hp (by decide),
      all_below (runTraceAt_below hne) hp (.inl (by omega))⟩
  cases bound with
  | zero => exact forall_mem_nil _
  | succ bound =>
    refine all_split_tail (fun _ => trivial) (fun part stop hp => ?_) fun hne =>
      hh run after hne (Nat.le_refl _)
    exact all_split (fun _ => trivial) (fun other stop ho => ⟨by simp; omega, fun _ => by simp; omega⟩)
      (fun other stop hne ho => hh other stop hne (by omega)) (Nat.le_refl _) (.inl fun _ => trivial)

/-- An entry that stands at the start of a statement calls no statement before it has taken a
token: it would need more depth than the first entries of a rule do. -/
theorem oneTrace_below (hv : view.IsFile) {left bound : Nat} (hb : bound ≤ 2 * left + 3)
    (entry : Match) (hl : view.tokens.size - pos ≤ left)
    (hf : entry.2.Fits (view.tokens.size - pos) bound) :
    All (Event.Below left 3) (oneTrace depth view entry pos) := by
  induction depth generalizing bound entry pos with
  | zero => exact forall_mem_singleton.mpr trivial
  | succ depth ih =>
    have hwithin (hlt : view.tokens.size - pos < left) :
        All (Event.Below left 3) (oneTrace (depth + 1) view entry pos) :=
      all_below (oneTrace_within _ view entry pos) hl (.inr hlt)
    obtain ⟨slot, entry⟩ := entry
    cases entry
    case word | kind | typeName | identifier => exact all_own (fun _ => trivial) _
    case expression | arguments | parameters =>
      refine all_list_entry (fun _ => trivial) (fun later hp _ => ?_) (fun _ => .inl fun _ => trivial)
        (by simp)
      exact forall_mem_cons.mpr ⟨.called (by omega) (by decide),
        all_below expressionTraceAt_below (by omega) (.inl (by omega))⟩
    case statement | statements =>
      simp only [Entry.Fits] at hf
      exact hwithin (by omega)
    case optional group =>
      rw [Entry.Fits] at hf
      exact all_paced hv (paced_of_groupFits hf.2) (Nat.le_refl _) fun entry later hp hfits =>
        ih (by omega) entry (by omega) hfits

theorem statementTraceAt_below (hv : view.IsFile) :
    All (Event.Below (view.tokens.size - pos) 3) (statementTraceAt depth view pos).tail :=
  all_rules (fun _ => trivial) fun rule hr => all_paced hv
    (paced_statementRules hr (Nat.le_refl _)) (Nat.le_refl _) fun entry later hp =>
      oneTrace_below hv (Nat.le_refl _) entry (by omega)

theorem blockTraceAt_below (hv : view.IsFile) :
    All (Event.Below (view.tokens.size - pos) 4) (blockTraceAt depth view terminators rounds pos) :=
  all_block (fun _ => trivial) (fun _ _ _ => statementAt_advances (matchOne_advances _ _))
    (fun later hl => forall_mem_cons.mpr ⟨.called (by omega) (by decide),
      all_below (statementTraceAt_below hv) (by omega) (.inl (by omega))⟩)
    (.inl fun _ => trivial)

end Below

/-! ## No bound is used up -/

/-- No bound is used up in the event. -/
def Event.calm : Event → Prop
  | .exhausted _ => False
  | _ => True

theorem runTraceAt_calm {run : List Token} {after : Token} (hd : run.length + 2 ≤ depth) :
    All Event.calm (runTraceAt depth run after) := by
  induction depth using Nat.strongRecOn generalizing run after with
  | ind depth ih =>
    have har {slot : Option Slot} {more : Nat} (hm : more < depth) (hrun : run.length ≤ more)
        (place : Nat) (hp : 1 ≤ place) : All Event.calm
          (entryTrace (matchOne more) (oneTrace more) ⟨run.toArray, after⟩ (slot, .arguments)
            place) := by
      refine all_list_entry (fun _ => trivial) (fun later _ hl => ?_) (by simp) (by simp)
      have hlt := hl rfl
      refine forall_mem_cons.mpr ⟨trivial, all_expression_tail (fun _ => trivial)
        (fun _ _ _ => trivial) (fun part stop hne hpart => ?_) (Nat.le_refl _)⟩
      have hln := List.length_pos_iff.mpr hne
      simp only [List.size_toArray] at hpart
      exact ih more hm (by omega)
    obtain ⟨depth, rfl⟩ : ∃ more, depth = more + 2 := ⟨depth - 2, by omega⟩
    refine forall_mem_cons.mpr ⟨trivial, all_rules (fun _ => trivial) fun rule hr => ?_⟩
    simp only [expressionRules, List.mem_cons, List.not_mem_nil, or_false] at hr
    rcases hr with rfl | rfl
    · refine all_token (fun _ => trivial) rfl (.inr (by omega)) ?_
      refine all_token (fun _ => trivial) rfl (.inr (by omega)) ?_
      refine all_entries (matchOne_advances _ _) (forall_mem_singleton.mpr fun later hl => ?_)
      exact all_entries (matchOne_advances _ _) (forall_mem_singleton.mpr fun place hp =>
        har (by omega) (by omega) place (by omega))
    · refine all_token (fun _ => trivial) rfl (.inr (by omega)) ?_
      exact all_entries (matchOne_advances _ _) (forall_mem_singleton.mpr fun later hl =>
        har (by omega) (by omega) later (by omega))

section Calm

variable {terminators : List String} {rounds : Nat} (hv : view.Ends)

include hv

theorem statementTraceAt_calm (hd : 2 * (view.tokens.size - pos) + 3 ≤ depth)
    (h : ∀ entry later, entry.2.Fits (view.tokens.size - later) depth →
      All Event.calm (oneTrace depth view entry later)) :
    All Event.calm (statementTraceAt depth view pos) :=
  forall_mem_cons.mpr ⟨trivial, all_rules (fun _ => trivial) fun _ hr =>
    all_paced hv.isFile (paced_statementRules hr hd) (Nat.le_refl _) fun entry later _ =>
      h entry later⟩

theorem blockTraceAt_calm (hd : 2 * (view.tokens.size - pos) + 3 ≤ depth)
    (hr : 0 < rounds ∧ view.tokens.size < rounds + pos)
    (h : ∀ entry later, entry.2.Fits (view.tokens.size - later) depth →
      All Event.calm (oneTrace depth view entry later)) :
    All Event.calm (blockTraceAt depth view terminators rounds pos) :=
  all_block (fun _ => trivial) (fun _ _ _ => statementAt_advances (matchOne_advances _ _))
    (fun later hl => statementTraceAt_calm hv (by omega) h)
    (.inr ⟨hv.isFile, fun later node next hl => statementAt_inside hv (by omega), hr⟩)

theorem oneTrace_calm (entry : Match) (hf : entry.2.Fits (view.tokens.size - pos) depth) :
    All Event.calm (oneTrace depth view entry pos) := by
  induction depth generalizing entry pos with
  | zero => exact absurd hf (Entry.not_fits_zero _)
  | succ depth ih =>
    have hone (entry : Match) (later : Nat) := @ih later entry
    obtain ⟨slot, entry⟩ := entry
    cases entry
    case word | kind | typeName | identifier => exact all_own (fun _ => trivial) _
    case expression | arguments | parameters =>
      simp only [Entry.Fits] at hf
      refine all_list_entry (fun _ => trivial) (fun later hl _ => ?_) (fun _ => .inr hv.isFile)
        (by simp)
      exact forall_mem_cons.mpr ⟨trivial, all_expression_tail (fun _ => trivial)
        (fun _ _ _ => trivial) (fun part stop _ hp => runTraceAt_calm (by omega)) (Nat.le_refl _)⟩
    case statement =>
      simp only [Entry.Fits] at hf
      exact statementTraceAt_calm hv (by omega) hone
    case optional group =>
      rw [Entry.Fits] at hf
      exact all_paced hv.isFile (paced_of_groupFits hf.2) (Nat.le_refl _)
        fun entry later _ => ih entry
    case statements terminators =>
      simp only [Entry.Fits] at hf
      exact forall_mem_cons.mpr ⟨trivial, blockTraceAt_calm hv (by omega) (by omega) hone⟩

theorem fileTrace_calm : All Event.calm (fileTrace view) :=
  forall_mem_cons.mpr ⟨trivial, blockTraceAt_calm hv (by unfold depthFor; omega) (by omega)
    fun entry _ => oneTrace_calm hv entry⟩

end Calm

/-- Reading the file ends.  A bound stands where the tokens left are no measure of their own. -/
structure View.Terminates (view : View) : Prop where
  calm : All Event.calm (fileTrace view)
  statement_inside : ∀ depth pos node next, 2 * (view.tokens.size - pos) + 3 ≤ depth →
    (statementAt view (matchOne depth view) pos).outcome = .ok (node, next) →
      pos < next ∧ next < view.tokens.size
  expression_inside : ∀ headed pos node next,
    (expressionAt view headed pos).outcome = .ok (node, next) →
      pos < next ∧ next < view.tokens.size
  run_inside : ∀ (inner : View) headed pos node next,
    (expressionAt inner headed pos).outcome = .ok (node, next) →
      pos < next ∧ next ≤ inner.tokens.size
  entry_forward : ∀ depth inner, Advances (matchOne depth inner)
  block_ends : ∀ depth terminators rounds pos, 2 * (view.tokens.size - pos) + 3 ≤ depth →
    0 < rounds → view.tokens.size < rounds + pos →
      All Event.calm (blockTraceAt depth view terminators rounds pos)
  block_calls : ∀ depth terminators rounds pos, All (Event.Below (view.tokens.size - pos) 4)
    (blockTraceAt depth view terminators rounds pos)
  statement_calls : ∀ depth pos, All (Event.Below (view.tokens.size - pos) 3)
    (statementTraceAt depth view pos).tail
  expression_calls : ∀ depth (inner : View) pos, All (Event.Below (inner.tokens.size - pos) 2)
    (expressionTraceAt depth inner pos).tail
  split_calls : ∀ depth bound run after, All (Event.Below run.length 1)
    (splitTrace (headedRun (matchOne depth)) (runTraceAt depth) bound run after).tail
  run_calls : ∀ depth run after, run ≠ [] → All (Event.Below run.length 0)
    (runTraceAt depth run after).tail

theorem View.Ends.terminates (hv : view.Ends) : view.Terminates where
  calm := fileTrace_calm hv
  statement_inside _ _ _ _ := statementAt_inside hv
  expression_inside _ _ _ _ h := ⟨(Grammar.expressionAt_inside h).1, hv.expressionAt_inside h⟩
  run_inside _ _ _ _ _ := Grammar.expressionAt_inside
  entry_forward := matchOne_advances
  block_ends _ _ _ _ hd hr hs :=
    blockTraceAt_calm hv hd ⟨hr, hs⟩ fun entry _ => oneTrace_calm hv entry
  block_calls _ _ _ _ := blockTraceAt_below hv.isFile
  statement_calls _ _ := statementTraceAt_below hv.isFile
  expression_calls _ _ _ := expressionTraceAt_below
  split_calls _ _ _ _ := splitTrace_below
  run_calls _ _ _ := runTraceAt_below

/-- Reading a source ends, with a tree or with a fault that was raised, and not at a bound. -/
theorem parse_terminates (text name : String) :
    ∃ last, (tokenize text name).back? = some last ∧ last.kind = .endOfFile ∧
      View.Terminates ⟨tokenize text name, last⟩ ∧
      ((∃ file, parse (tokenize text name) name = .ok file) ∨
        ∃ fault, .raised fault ∈ fileTrace ⟨tokenize text name, last⟩ ∧
          parse (tokenize text name) name = .error fault.toError) := by
  obtain ⟨body, hs, -⟩ := isSource_tokenize text name
  obtain ⟨lines, last, ht, -, hl⟩ := hs.exists_lines
  have hv : View.Ends ⟨tokenize text name, last⟩ := ⟨hs.isFile hl, IsSource.back?_eq ht⟩
  refine ⟨last, hv.last, hv.isFile.ended.kind, hv.terminates, ?_⟩
  cases hp : parse (tokenize text name) name with
  | ok file => exact .inl ⟨file, rfl⟩
  | error error =>
    obtain ⟨fault, hk, rfl, -⟩ := parse_reports hv.last hp
    obtain hg | ⟨event, he, hf⟩ := (accounts_fileBody _).made fault hk
    · cases hg
    · have hc := fileTrace_calm hv event he
      cases event with
      | raised found => exact .inr ⟨found, he, by rw [Option.some.inj hf]⟩
      | exhausted token => exact hc.elim
      | called routine inner pos => cases hf

end StepScript.Grammar
