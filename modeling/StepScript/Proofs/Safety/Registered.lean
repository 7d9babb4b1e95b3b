import StepScript.Proofs.Safety.Declared
set_option autoImplicit false

/-!
# Registration takes in code that can be evaluated

What a body declares is checked when it is collected, and what a file runs is checked when
its statements are gathered.  So the code that an accepted unit adds to the store can be
evaluated, and so can its files (`Program.register_ok`).
-/

namespace StepScript

variable {token : Token} {shared : Bool} {name : String} {params : List Parameter}
  {kind : OwnerKind} {body : Node} {store : Store}

/-! ## Bodies of classes and behaviours -/

/-- The code that has been collected can be evaluated. -/
structure Collected.Fits (collected : Collected) : Prop where
  members : collected.members.Fits
  sharedProperties : PropertiesFit collected.sharedProperties
  sharedFunctions : collected.sharedFunctions.Every Function.Fits
  sharedConstructor : ∀ function ∈ collected.sharedConstructor, function.Fits

namespace Collected

variable {collected next : Collected} {owner : String}

theorem fits_empty : Fits {} where
  members := members_fits_empty
  sharedProperties := by simp [PropertiesFit]
  sharedFunctions := Table.every_nil
  sharedConstructor := by simp

theorem propertiesFit_append {properties : List Property} {property : Property}
    (h : PropertiesFit properties) (hi : ∀ node ∈ property.initial, node.Fits .expression) :
    PropertiesFit (properties ++ [property]) := by
  intro other ho
  rcases List.mem_append.mp ho with hold | hnew
  · exact h other hold
  · rw [List.mem_singleton.mp hnew]
    exact hi

theorem Fits.addProperty (h : collected.Fits) {initial : Option Node}
    (hi : ∀ node ∈ initial, node.Fits .expression)
    (hadd : collected.addProperty owner name initial shared token = .ok next) : next.Fits := by
  unfold Collected.addProperty at hadd
  dsimp only at hadd
  split at hadd
  · cases hadd
  · split at hadd
    · obtain rfl := Except.ok.inj hadd
      exact ⟨h.members, propertiesFit_append h.sharedProperties hi, h.sharedFunctions,
        h.sharedConstructor⟩
    · obtain rfl := Except.ok.inj hadd
      have hm := h.members
      exact ⟨⟨propertiesFit_append hm.properties hi, hm.functions,
        hm.creation⟩, h.sharedProperties, h.sharedFunctions, h.sharedConstructor⟩

/-- A function that is taken in has passed the check of its body. -/
theorem addFunction_ok {body : Option Node}
    (hadd : collected.addFunction owner name params body shared token = .ok next) :
    checkFunctionBody body = .ok () ∧
      ∃ function : Function, function.params = params ∧ function.body = body ∧
        next = if shared then
            { collected with
              sharedFunctions := collected.sharedFunctions.insert name function }
          else
            { collected with
              members := { collected.members with
                functions := collected.members.functions.insert name function } } := by
  unfold Collected.addFunction at hadd
  grind

theorem Fits.addFunction (h : collected.Fits) {body : Option Node}
    (hf : FunctionFits params body)
    (hadd : collected.addFunction owner name params body shared token = .ok next) :
    next.Fits := by
  obtain ⟨hc, function, rfl, rfl, rfl⟩ := addFunction_ok hadd
  have had : function.Fits := ⟨hf.1, hf.2 hc⟩
  have hm := h.members
  cases shared with
  | true =>
    exact ⟨hm, h.sharedProperties, h.sharedFunctions.insert name had, h.sharedConstructor⟩
  | false =>
    exact ⟨⟨hm.properties, hm.functions.insert name had, hm.creation⟩,
      h.sharedProperties, h.sharedFunctions, h.sharedConstructor⟩

/-- A constructor that is taken in has passed the check of its body. -/
theorem addConstructor_ok
    (hadd : collected.addConstructor owner kind params body shared token = .ok next) :
    checkFunctionBody (some body) = .ok () ∧
      ∃ function : Function, function.params = params ∧ function.body = some body ∧
        next = if shared then { collected with sharedConstructor := some function }
          else
            { collected with
              members := { collected.members with constructor := some function } } := by
  unfold Collected.addConstructor at hadd
  grind

theorem Fits.addConstructor (h : collected.Fits) (hf : FunctionFits params (some body))
    (hadd : collected.addConstructor owner kind params body shared token = .ok next) :
    next.Fits := by
  obtain ⟨hc, function, rfl, hb, rfl⟩ := addConstructor_ok hadd
  have had : ∀ other ∈ some function, other.Fits := by
    intro other ho
    obtain rfl := Option.mem_some.mp ho
    exact ⟨hf.1, hb ▸ hf.2 hc⟩
  have hm := h.members
  cases shared with
  | true => exact ⟨hm, h.sharedProperties, h.sharedFunctions, had⟩
  | false =>
    exact ⟨⟨hm.properties, hm.functions, had⟩, h.sharedProperties,
      h.sharedFunctions, h.sharedConstructor⟩

theorem Fits.addAttachment (h : collected.Fits)
    (hadd : collected.addAttachment owner name token = .ok next) : next.Fits := by
  unfold Collected.addAttachment at hadd
  split at hadd
  · cases hadd
  · obtain rfl := Except.ok.inj hadd
    exact ⟨h.members, h.sharedProperties, h.sharedFunctions, h.sharedConstructor⟩

theorem Fits.addUpdateOrder (h : collected.Fits) {order : UpdateOrder}
    (hadd : collected.addUpdateOrder owner order token = .ok next) : next.Fits := by
  unfold Collected.addUpdateOrder at hadd
  split at hadd
  · cases hadd
  · obtain rfl := Except.ok.inj hadd
    exact ⟨h.members, h.sharedProperties, h.sharedFunctions, h.sharedConstructor⟩

theorem Fits.addContract (h : collected.Fits) {contract : Contract}
    (hadd : collected.addContract owner contract name token = .ok next) :
    next.Fits := by
  unfold Collected.addContract at hadd
  split at hadd
  · cases hadd
  · cases contract <;> obtain rfl := Except.ok.inj hadd <;>
      exact ⟨h.members, h.sharedProperties, h.sharedFunctions, h.sharedConstructor⟩

/-- A declaration that is taken in. -/
theorem Fits.add (h : collected.Fits) {statement : Node} (hm : MemberFits statement.kind)
    (hadd : Collected.add owner kind collected statement = .ok next) : next.Fits := by
  unfold Collected.add at hadd
  dsimp only at hadd
  split at hadd
  · cases hadd
  · split at hadd
    case h_1 =>
        rename_i hk _
        rw [hk] at hm
        exact h.addProperty hm hadd
    case h_2 =>
        rename_i hk _
        rw [hk] at hm
        exact h.addFunction hm hadd
    case h_3 =>
        rename_i hk _
        rw [hk] at hm
        exact h.addConstructor hm hadd
    case h_4 => exact h.addAttachment hadd
    case h_5 => exact h.addUpdateOrder hadd
    case h_6 => exact h.addContract hadd
    case h_7 => split at hadd <;> cases hadd

/-- What is collected from a body can be evaluated. -/
theorem fits_ofBody (hm : ∀ statement ∈ body.statements, MemberFits statement.kind)
    (hc : Collected.ofBody owner kind body = .ok collected) : collected.Fits := by
  unfold Collected.ofBody at hc
  suffices hf : ∀ (statements : List Node) (start : Collected), start.Fits →
      (∀ statement ∈ statements, MemberFits statement.kind) →
      statements.foldlM (Collected.add owner kind) start = .ok collected → collected.Fits from
    hf _ _ fits_empty hm hc
  intro statements
  induction statements with
  | nil =>
    intro start hs _ hf
    obtain rfl := Except.ok.inj hf
    exact hs
  | cons statement rest ih =>
    intro start hs hsm hf
    rw [List.foldlM_cons] at hf
    obtain ⟨hst, hr⟩ := List.forall_mem_cons.mp hsm
    cases hadd : Collected.add owner kind start statement with
    | error error =>
      rw [hadd] at hf
      cases hf
    | ok later =>
      rw [hadd] at hf
      exact ih later (hs.add hst hadd) hr hf

end Collected

/-! ## Drafts -/

/-- The statements of the files can be evaluated in their places. -/
def UnitFits (files : List Node) : Prop :=
  ∀ file ∈ files, ∀ name body, file.kind = .file name body →
    ∀ statement ∈ body, StatementFits statement

/-- The code of the draft can be evaluated. -/
structure Draft.Fits (draft : Draft) : Prop where
  store : draft.store.Fits
  behaviours : ∀ behaviour ∈ draft.behaviours, behaviour.members.Fits
  functions : ∀ function ∈ draft.functions, function.Fits

namespace Draft

variable {files : List Node} {draft next : Draft}

theorem Fits.withClass (h : draft.Fits) (file : ScopeId) (name : String)
    (parentName : Option String) {collected : Collected} (hc : collected.Fits)
    (token : Token) : (draft.withClass file name parentName collected token).Fits := by
  have hs := (h.store.newScope .classLevel file).setFunctions ⟨draft.store.scopes.size⟩
    hc.sharedFunctions
  exact ⟨hs.addClass ⟨hc.members, hc.sharedProperties,
    hc.sharedConstructor⟩, h.behaviours, h.functions⟩

theorem Declares.statementFits {statement : Node} (h : Declares files statement)
    (hu : UnitFits files) : StatementFits statement := by
  obtain ⟨file, hf, name, body, hk, hs⟩ := h
  exact hu file hf name body hk statement hs

/-- Additions keep the code of a draft such that it can be evaluated. -/
theorem Addition.fits (had : Addition files draft next) (hu : UnitFits files)
    (h : draft.Fits) : next.Fits := by
  cases had with
  | file name => exact ⟨h.store.newScope .file draft.target, h.behaviours, h.functions⟩
  | @classDecl statement name parentName body collected file declared kind collects =>
    have ho := (declared.statementFits hu).owner
    rw [kind] at ho
    exact h.withClass file name parentName (Collected.fits_ofBody ho collects) _
  | @behaviourDecl statement name body collected declared kind collects =>
    have ho := (declared.statementFits hu).owner
    rw [kind] at ho
    have hc := Collected.fits_ofBody ho collects
    refine ⟨h.store, fun behaviour hb => ?_, h.functions⟩
    rcases List.mem_append.mp hb with hold | hnew
    · exact h.behaviours behaviour hold
    · rw [List.mem_singleton.mp hnew]
      exact hc.members
  | @functionDecl statement name params body native file declared kind checked =>
    have hm := (declared.statementFits hu).member
    rw [kind] at hm
    refine ⟨h.store, h.behaviours, fun function hf => ?_⟩
    rcases List.mem_append.mp hf with hold | hnew
    · exact h.functions function hold
    · rw [List.mem_singleton.mp hnew]
      exact ⟨hm.1, hm.2 checked⟩
  | parent added =>
    exact ⟨h.store.modifyClass _ fun _ hd =>
      ⟨hd.members, hd.sharedProperties, hd.sharedConstructor⟩,
      h.behaviours, h.functions⟩
  | sharedParent added => exact ⟨h.store.setParent .., h.behaviours, h.functions⟩

theorem Additions.fits (han : Additions files draft next) (hu : UnitFits files)
    (h : draft.Fits) : next.Fits := by
  induction han with
  | refl => exact h
  | tail _ had ih => exact had.fits hu ih

/-! ## Publishing -/

/-- What each step of a loop over entries keeps, the loop keeps. -/
theorem fits_foldl {α : Type} {items : List α} {step : Store → α → Store} (h : store.Fits)
    (hs : ∀ item ∈ items, ∀ store : Store, store.Fits → (step store item).Fits) :
    (items.foldl step store).Fits :=
  List.foldlRecOn items step h fun store hst item hi => hs item hi store hst

theorem fits_accepted {registered : Except Error Store} (h : store.Fits)
    (hr : ∀ later, registered = .ok later → later.Fits) :
    (accepted store registered).Fits := by
  cases registered with
  | error error => exact h
  | ok later => exact hr later rfl

theorem Fits.publish (h : draft.Fits) : draft.publish.Fits := by
  unfold Draft.publish
  refine fits_foldl (fits_foldl (fits_foldl (fits_foldl h.store ?_) ?_) ?_) ?_
  · exact fun file _ store hs => hs.modifyState ..
  · intro behaviour hb store hs
    refine fits_accepted hs fun later hl => ?_
    unfold Store.registerBehaviour at hl
    split at hl
    · cases hl
    · obtain rfl := Except.ok.inj hl
      refine hs.modifyScope _ fun scope hsc => ⟨hsc.functions, ?_⟩
      exact hsc.behaviours.insert _ (h.behaviours behaviour hb)
  · intro function hf store hs
    refine fits_accepted hs fun later hl => ?_
    unfold Store.registerFunction at hl
    split at hl
    · cases hl
    · obtain rfl := Except.ok.inj hl
      refine hs.modifyScope _ fun scope hsc => ⟨?_, hsc.behaviours⟩
      exact hsc.functions.insert _ (h.functions function hf)
  · intro id _ store hs
    refine fits_accepted hs fun later hl => ?_
    unfold Store.registerClass at hl
    dsimp only at hl
    split at hl
    · cases hl
    · obtain rfl := Except.ok.inj hl
      exact hs.modifyScope _ fun scope hsc => ⟨hsc.functions, hsc.behaviours⟩

end Draft

/-! ## Units -/

/-- The files of a unit can be evaluated. -/
def Code.Fits (code : Code) : Prop :=
  ∀ file ∈ code.files, (∃ name body, file.kind = .file name body) ∧
    file.Fits (.statement false)

/-- A unit that is accepted. -/
theorem Store.addUnit_ok {store after : Store} {target : ScopeId} {files : List Node}
    {classes : List ClassId} (hst : store.Fits) (hu : UnitFits files)
    (h : store.addUnit target files = (.ok classes, after)) :
    after.Fits ∧ Code.Fits { files, classes } := by
  have had := Draft.gather_additions files { store, target }
  unfold Store.addUnit at h
  split at h
  case h_1 => cases h
  case h_2 draft hg =>
      obtain ⟨-, rfl⟩ := Prod.mk.inj h
      unfold Draft.Leaves at had
      rw [hg] at had
      refine ⟨(had.fits hu ⟨hst, by simp, by simp⟩).publish, fun file hf => ?_⟩
      obtain ⟨name, body, hk, hb⟩ := Draft.gather_ok ⟨(), draft, hg⟩ file hf
      refine ⟨⟨name, body, hk⟩, ?_⟩
      obtain ⟨kind, token⟩ := file
      obtain rfl : kind = .file name body := hk
      refine .file fun statement hs => ?_
      rcases hb statement hs with hd | hp
      · obtain ⟨declared, start⟩ := statement
        exact .declaration hd
      · exact (hu _ hf name body rfl statement hs).placed false hp

theorem unitFits_of_mapM {sources : List Source} {files : List Node}
    (h : sources.mapM (fun source => Grammar.parseText source.text source.name) = .ok files) :
    UnitFits files := by
  intro file hf name body hk
  obtain ⟨source, -, hp⟩ := mem_of_mapM_ok h file hf
  obtain ⟨nodes, first, rfl, hn⟩ := fits_of_parseText hp
  obtain ⟨-, rfl⟩ := NodeKind.file.inj hk
  exact hn

/-- Whether sources are accepted or not, the code in the store can be evaluated; so can the
files of sources that are accepted. -/
theorem Program.register_fits {root : ScopeId} {sources : List Source} (hs : store.Fits) :
    (register store root sources).2.Fits ∧
      ∀ code, (register store root sources).1 = .ok code → code.Fits := by
  cases hr : register store root sources with
  | mk answer after =>
    cases answer with
    | error error =>
      rw [register_error hr]
      exact ⟨hs, fun code hc => by cases hc⟩
    | ok code =>
      unfold register at hr
      split at hr
      case h_1 => cases hr
      case h_2 files hp =>
          split at hr
          case h_1 => cases hr
          case h_2 classes later hu =>
              obtain ⟨hc, rfl⟩ := Prod.mk.inj hr
              obtain ⟨hl, hf⟩ := Store.addUnit_ok hs (unitFits_of_mapM hp) hu
              refine ⟨hl, fun other ho => ?_⟩
              obtain rfl := Except.ok.inj (hc.trans ho)
              exact hf

end StepScript
