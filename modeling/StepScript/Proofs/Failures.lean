import StepScript.Machine.Node
set_option autoImplicit false

/-!
# How computations fail

Operations on values and lookups of names fail with ordinary errors only (`Ordinary`).  Arguments
are bound to parameters unless they do not fit (`Binding.ofArguments_cases`), and so are those of a
creation to the constructors of a hierarchy (`Construction.levels_cases`).
-/

namespace StepScript

variable {α β : Type}

/-! ## Ordinary errors -/

/-- The error is no failure of the evaluator itself, and no matter of arguments or of behaviours
that are to be attached. -/
def Error.IsOrdinary (error : Error) : Prop :=
  match error.cause with
  | .internal _ | .arity _ | .undefinedName (.behaviourName _) => False
  | _ => True

/-- The computation fails with ordinary errors only. -/
structure Ordinary (answer : Except Error α) : Prop where
  of_failure : ∀ error, answer = .error error → error.IsOrdinary

namespace Ordinary

theorem of_ok (answer : α) : Ordinary (.ok answer : Except Error α) := ⟨fun _ h => by cases h⟩

theorem of_error {error : Error} (h : error.IsOrdinary) :
    Ordinary (.error error : Except Error α) := by
  refine ⟨fun other ho => ?_⟩
  obtain rfl := Except.error.inj ho
  exact h

theorem bind {answer : Except Error α} {next : α → Except Error β} (h : Ordinary answer)
    (hn : ∀ value, Ordinary (next value)) : Ordinary (answer >>= next) := by
  cases answer with
  | error error => exact .of_error (h.of_failure error rfl)
  | ok value => exact hn value

end Ordinary

theorem Constant.ordinary_asNumber (value : Constant) : Ordinary value.asNumber := by
  unfold Constant.asNumber
  split
  · exact .of_ok _
  · exact .of_error trivial

theorem UnaryOp.ordinary_apply (op : UnaryOp) (operand : Constant) :
    Ordinary (op.apply operand) := by
  unfold UnaryOp.apply
  split
  · exact .of_ok _
  · exact .of_ok _
  · exact .of_error trivial

namespace BinaryOp

theorem ordinary_mismatch (op : BinaryOp) (lhs rhs : Constant) :
    Ordinary (op.mismatch lhs rhs) := .of_error trivial

theorem ordinary_join (lhs rhs : Constant) : Ordinary (join lhs rhs) := by
  unfold join
  split
  · exact .of_ok _
  · exact ordinary_mismatch ..

theorem ordinary_compare (op : BinaryOp) (lhs rhs : Constant) : Ordinary (op.compare lhs rhs) := by
  unfold compare
  split
  · exact .of_ok _
  · exact .of_ok _
  · exact ordinary_mismatch ..

theorem ordinary_calculate (op : BinaryOp) (l r : Float) : Ordinary (op.calculate l r) := by
  have hz : Ordinary (.error { cause := .divisionByZero } : Except Error Constant) :=
    .of_error trivial
  unfold calculate
  split
  · exact .of_ok _
  · exact .of_ok _
  · exact .of_ok _
  · split
    · exact hz
    · exact .of_ok _
  · split
    · exact hz
    · exact .of_ok _
  · exact ordinary_mismatch ..

theorem ordinary_apply (op : BinaryOp) (lhs rhs : Constant) : Ordinary (op.apply lhs rhs) := by
  unfold apply
  split
  case h_1 | h_2 => exact .of_ok _
  case h_3 | h_4 =>
      split
      · exact .of_ok _
      · exact ordinary_mismatch ..
  case h_9 =>
      split
      · exact ordinary_join ..
      · split
        · exact ordinary_calculate ..
        · exact ordinary_mismatch ..
  all_goals exact ordinary_compare ..

end BinaryOp

namespace NodeFrame

variable (store : Store) (held : Held) (scope : ScopeId) (name : String)

theorem ordinary_variableValue : Ordinary (variableValue store held scope name) := by
  unfold variableValue
  split
  · exact .of_ok _
  · split
    · exact .of_ok _
    · exact .of_error trivial

theorem ordinary_typeValue : Ordinary (typeValue store held scope name) := by
  unfold typeValue
  split
  · exact .of_ok _
  · split <;> exact .of_error trivial

theorem ordinary_memberScope (value : Constant) : Ordinary (memberScope store value) := by
  unfold memberScope
  split
  · exact .of_ok _
  · exact .of_error trivial

theorem ordinary_typeScope : Ordinary (typeScope store held scope name) := by
  unfold typeScope
  split
  · exact ordinary_memberScope ..
  · split
    · exact .of_ok _
    · split <;> exact .of_error trivial

theorem ordinary_loopNumber : Ordinary (loopNumber store held scope name) :=
  Constant.ordinary_asNumber _

theorem ordinary_hasRound (limit step : Constant) :
    Ordinary (hasRound limit step fun _ => loopNumber store held scope name) := by
  unfold hasRound
  refine limit.ordinary_asNumber.bind fun limit => step.ordinary_asNumber.bind fun step => ?_
  dsimp only
  have hn := ordinary_loopNumber store held scope name
  split
  · exact .bind (@Ordinary.of_error _ (.runtime .zeroStep) trivial) fun _ =>
      hn.bind fun _ => .of_ok _
  · exact hn.bind fun _ => .of_ok _

end NodeFrame

/-! ## Arguments -/

/-- The arguments do not fit the parameters: there are more of them, or there is none for a
parameter without a default. -/
def Refuses (params : List Parameter) (args : List Constant) : Prop :=
  params.length < args.length ∨ ∃ param ∈ params.drop args.length, param.initial = none

instance (params : List Parameter) (args : List Constant) : Decidable (Refuses params args) :=
  inferInstanceAs (Decidable (_ ∨ _))

/-- What has got arguments that do not fit. -/
def ArityFault.callee? : ArityFault → Option Callee
  | .tooMany callee _ _ | .missing _ callee => some callee
  | .noConstructor .. => none

namespace Binding

theorem collect_cases (callee : Callee) (binding : Binding) (params : List Parameter)
    (args : List Constant) :
    (∃ fault : ArityFault, collect callee binding params args = .error (.arity fault) ∧
        fault.callee? = some callee) ∧
        (∃ param ∈ params.drop args.length, param.initial = none) ∨
      (∃ bound, collect callee binding params args = .ok bound) ∧
        ¬ ∃ param ∈ params.drop args.length, param.initial = none := by
  fun_induction collect callee binding params args with
  | case1 => exact .inr ⟨⟨_, rfl⟩, by simp⟩
  | case2 _ _ _ _ _ ih => exact ih
  | case3 binding param params initial hi ih =>
    rcases ih with ⟨he, other, ho, hn⟩ | ⟨hb, hall⟩
    · exact .inl ⟨he, other, List.mem_cons_of_mem _ ho, hn⟩
    · refine .inr ⟨hb, ?_⟩
      rintro ⟨other, ho, hn⟩
      rcases List.mem_cons.mp ho with rfl | ho
      · cases hi.symm.trans hn
      · exact hall ⟨other, ho, hn⟩
  | case4 binding param params hi => exact .inl ⟨⟨_, rfl, rfl⟩, param, List.mem_cons_self, hi⟩

/-- Arguments are bound unless they do not fit. -/
theorem ofArguments_cases (callee : Callee) (params : List Parameter) (args : List Constant) :
    (∃ fault : ArityFault, ofArguments callee params args = .error (.arity fault) ∧
        fault.callee? = some callee) ∧ Refuses params args ∨
      (∃ bound, ofArguments callee params args = .ok bound) ∧ ¬ Refuses params args := by
  unfold ofArguments Refuses
  split
  · next hm => exact .inl ⟨⟨_, rfl, rfl⟩, .inl hm⟩
  · next hfew =>
    rcases collect_cases callee {} params args with ⟨he, hms⟩ | ⟨hb, hall⟩
    · exact .inl ⟨he, .inr hms⟩
    · exact .inr ⟨hb, fun hr => hr.elim hfew hall⟩

end Binding

/-- The constructors of the classes. -/
def constructors (classes : List Class) : List Function := classes.filterMap (·.members.constructor)

/-- One of the constructors does not take the arguments.  Once one has taken all of them, the
others take as many as they have parameters. -/
def Refused (args : List Constant) : (checked : Bool) → List Function → Prop
  | _, [] => False
  | checked, constructor :: rest =>
    Refuses constructor.params (if checked then args.take constructor.params.length else args) ∨
      Refused args true rest

/-- The levels are planned unless a constructor does not take the arguments. -/
theorem Construction.levels_cases (args : List Constant) (checked : Bool) (classes : List Class) :
    (∃ (fault : ArityFault) (name : String), levels args checked classes = .error (.arity fault) ∧
        fault.callee? = some (.constructor name)) ∧ Refused args checked (constructors classes) ∨
      (∃ planned, levels args checked classes
          = .ok (checked || !(constructors classes).isEmpty, planned)) ∧
        ¬ Refused args checked (constructors classes) := by
  induction classes generalizing checked with
  | nil => exact .inr ⟨⟨[], by simp [levels, constructors]⟩, id⟩
  | cons declared rest ih =>
    unfold levels
    cases hcn : declared.members.constructor with
    | none =>
      have hs : constructors (declared :: rest) = constructors rest := List.filterMap_cons_none hcn
      rw [hs]
      rcases ih checked with
        ⟨⟨fault, name, he, hc⟩, hr⟩ | ⟨⟨planned, hp⟩, ht⟩
      · exact .inl ⟨⟨fault, name, by simp only [he], hc⟩, hr⟩
      · exact .inr ⟨⟨⟨declared, {}⟩ :: planned, by simp only [hp]⟩, ht⟩
    | some constructor =>
      have hm : constructors (declared :: rest) = constructor :: constructors rest :=
        List.filterMap_cons_some hcn
      rw [hm]
      dsimp only [Refused]
      rcases Binding.ofArguments_cases (.constructor declared.name) constructor.params
          (if checked then args.take constructor.params.length else args) with
        ⟨⟨fault, he, hc⟩, hrf⟩ | ⟨⟨bound, hb⟩, hf⟩
      · exact .inl ⟨⟨fault, _, by simp only [he], hc⟩, .inl hrf⟩
      · rcases ih true with
          ⟨⟨fault, name, he, hc⟩, hr⟩ | ⟨⟨planned, hp⟩, ht⟩
        · exact .inl ⟨⟨fault, name, by simp only [hb, he], hc⟩, .inr hr⟩
        · refine .inr ⟨⟨⟨declared, bound⟩ :: planned, by simp [hb, hp]⟩, ?_⟩
          exact fun hr => hr.elim hf ht

end StepScript
