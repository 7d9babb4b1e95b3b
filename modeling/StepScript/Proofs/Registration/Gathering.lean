import Mathlib.Logic.Relation
import StepScript.Proofs.Store.Access
import StepScript.Registration.Draft
set_option autoImplicit false

/-!
# What gathering a unit does to its draft

Work on a draft is a sequence of few kinds of additions, `Draft.Addition`, whether it fails
or not.  `Draft.gather_additions` says so for the whole unit; every invariant of drafts is
then a matter of one case per kind of addition.  `Draft.gather_ok` says what the statements
of an accepted unit have passed.
-/

namespace StepScript.Draft

variable {statement : Node} {name : String} {draft : Draft}

variable {α β : Type}

/-! ## Work that leaves a property behind -/

/-- The draft that the work leaves has the property, whatever the work answers. -/
def Leaves (P : Draft → Prop) (work : Drafting α) (draft : Draft) : Prop := P (work.run.run draft).2

section Leaves

variable {P : Draft → Prop} {draft : Draft}

theorem leaves_pure (answer : α) (h : P draft) : Leaves P (pure answer) draft := h

theorem leaves_throw (error : Error) (h : P draft) :
    Leaves P (throw error : Drafting α) draft := h

theorem leaves_liftExcept (outcome : Except Error α) (h : P draft) :
    Leaves P (liftExcept outcome) draft := h

theorem leaves_set {next : Draft} (h : P next) :
    Leaves P (set next : Drafting PUnit) draft := h

/-- Work that reads the draft goes on with the draft that it starts from. -/
theorem leaves_get_bind {next : Draft → Drafting α} (h : Leaves P (next draft) draft) :
    Leaves P (get >>= next) draft := h

/-- Behind a check, the check has been passed. -/
theorem leaves_liftExcept_bind {outcome : Except Error α} {next : α → Drafting β}
    (h : P draft) (hn : ∀ answer, outcome = .ok answer → Leaves P (next answer) draft) :
    Leaves P (liftExcept outcome >>= next) draft := by
  cases ho : outcome with
  | error error => exact h
  | ok answer => exact hn answer ho

theorem leaves_bind {work : Drafting α} {next : α → Drafting β}
    (hw : Leaves P work draft)
    (hn : ∀ answer later, P later → Leaves P (next answer) later) :
    Leaves P (work >>= next) draft := by
  unfold Leaves at hw ⊢
  rw [ExceptT.run_bind, StateT.run_bind]
  generalize work.run.run draft = result at hw ⊢
  obtain ⟨answer, later⟩ := result
  cases answer with
  | error error => exact hw
  | ok answer => exact hn answer later hw

theorem leaves_mono {Q : Draft → Prop} {work : Drafting α} (hPQ : ∀ later, P later → Q later)
    (h : Leaves P work draft) : Leaves Q work draft :=
  hPQ _ h

theorem leaves_forM {items : List α} {work : α → Drafting Unit} (h : P draft)
    (hw : ∀ item ∈ items, ∀ later, P later → Leaves P (work item) later) :
    Leaves P (items.forM work) draft := by
  induction items generalizing draft with
  | nil => exact leaves_pure () h
  | cons item rest ih =>
    refine leaves_bind (hw item (List.mem_cons_self ..) draft h) fun _ later hl => ?_
    exact ih hl fun other ho => hw other (List.mem_cons_of_mem _ ho)

end Leaves

/-! ## Kinds of additions -/

/-- The statement stands at the top of one of the files. -/
def Declares (files : List Node) (statement : Node) : Prop :=
  ∃ file ∈ files, ∃ name body, file.kind = .file name body ∧ statement ∈ body

/-- What gathering the files can do to a draft in one go. -/
inductive Addition (files : List Node) : Draft → Draft → Prop where
  | file {draft : Draft} (name : String) : Addition files draft (draft.withFile name).2
  | classDecl {draft : Draft} {statement : Node} {name : String} {parentName : Option String}
      {body : Node} {collected : Collected} (file : ScopeId)
      (declared : Declares files statement)
      (kind : statement.kind = .classDecl name parentName body)
      (collects : Collected.ofBody name .ofClass body = .ok collected) :
      Addition files draft (draft.withClass file name parentName collected statement.token)
  | behaviourDecl {draft : Draft} {statement : Node} {name : String} {body : Node}
      {collected : Collected} (declared : Declares files statement)
      (kind : statement.kind = .behaviourDecl name body)
      (collects : Collected.ofBody name .ofBehaviour body = .ok collected) :
      Addition files draft (draft.withBehaviour name collected statement.token)
  | functionDecl {draft : Draft} {statement : Node} {name : String}
      {params : List Parameter} {body : Option Node} {native : Bool} (file : ScopeId)
      (declared : Declares files statement)
      (kind : statement.kind = .functionDecl name params body false native)
      (checked : checkFunctionBody body = .ok ()) :
      Addition files draft (draft.withFunction file name params body statement.token)
  | parent {draft : Draft} {id parent : ClassId} (added : id ∈ draft.classes) :
      Addition files draft (draft.withParent id parent)
  | sharedParent {draft : Draft} {id parent : ClassId} (added : id ∈ draft.classes) :
      Addition files draft (draft.withSharedParent id parent)

/-- Some additions one after the other. -/
abbrev Additions (files : List Node) : Draft → Draft → Prop :=
  Relation.ReflTransGen (Addition files)

/-! ## Gathering makes additions only -/

section Gathering

variable {files : List Node} {start draft : Draft}

theorem fileScope_additions (name : String) (h : Additions files start draft) :
    Leaves (Additions files start) (fileScope name) draft := by
  refine leaves_get_bind ?_
  dsimp only
  split
  · exact leaves_pure _ h
  · exact leaves_bind (leaves_set (h.tail (.file name))) fun _ _ hl => leaves_pure _ hl

theorem addClass_additions {parentName : Option String} {body : Node} (file : ScopeId)
    (hd : Declares files statement)
    (hk : statement.kind = .classDecl name parentName body) (h : Additions files start draft) :
    Leaves (Additions files start) (addClass file name parentName body statement.token)
      draft := by
  refine leaves_get_bind ?_
  split
  · exact leaves_throw _ h
  · refine leaves_liftExcept_bind h fun collected hc => ?_
    exact leaves_set (h.tail (.classDecl file hd hk hc))

theorem addBehaviour_additions {body : Node} (hd : Declares files statement)
    (hk : statement.kind = .behaviourDecl name body) (h : Additions files start draft) :
    Leaves (Additions files start) (addBehaviour name body statement.token) draft := by
  refine leaves_get_bind ?_
  split
  · exact leaves_throw _ h
  · refine leaves_liftExcept_bind h fun collected hc => ?_
    exact leaves_set (h.tail (.behaviourDecl hd hk hc))

theorem addFunction_additions {params : List Parameter} {body : Option Node} {native : Bool}
    (file : ScopeId) (hd : Declares files statement)
    (hk : statement.kind = .functionDecl name params body false native)
    (h : Additions files start draft) :
    Leaves (Additions files start) (addFunction file name params body statement.token)
      draft := by
  refine leaves_liftExcept_bind h fun _ hc => ?_
  refine leaves_get_bind ?_
  split
  · exact leaves_throw _ h
  · exact leaves_set (h.tail (.functionDecl file hd hk hc))

/-- A statement adds what it declares, or nothing. -/
theorem addStatement_additions (file : ScopeId) (hd : Declares files statement)
    (h : Additions files start draft) :
    Leaves (Additions files start) (addStatement file statement) draft := by
  unfold addStatement
  split
  case h_1 name parentName body hk => exact addClass_additions file hd hk h
  case h_2 name body hk => exact addBehaviour_additions hd hk h
  case h_3 name params body shared native hk =>
      cases shared with
      | true => exact leaves_throw _ h
      | false => exact addFunction_additions file hd hk h
  case h_4 name initial shared hk => cases shared <;> exact leaves_throw _ h
  case h_9 => exact leaves_liftExcept _ h
  all_goals exact leaves_throw _ h

theorem addFile_additions {file : Node} (hf : file ∈ files)
    (h : Additions files start draft) :
    Leaves (Additions files start) (addFile file) draft := by
  unfold addFile
  split
  case h_1 name body hk =>
      refine leaves_bind (fileScope_additions name h) fun scope later hlt => ?_
      refine leaves_forM hlt fun statement hs last hl => ?_
      exact addStatement_additions scope ⟨file, hf, name, body, hk, hs⟩ hl
  case h_2 => exact leaves_throw _ h

/-- The additions so far, with the classes that the unit declares. -/
def AddsTo (files : List Node) (start : Draft) (classes : List ClassId) (draft : Draft) : Prop :=
  Additions files start draft ∧ draft.classes = classes

theorem link_additions {classes : List ClassId} {id : ClassId} (hid : id ∈ classes)
    (h : AddsTo files start classes draft) :
    Leaves (AddsTo files start classes) (link id) draft := by
  refine leaves_get_bind ?_
  have had : id ∈ draft.classes := h.2 ▸ hid
  dsimp only
  split
  · exact leaves_pure () h
  · split
    · exact leaves_set ⟨h.1.tail (.parent had), h.2⟩
    · split <;> exact leaves_throw _ h

theorem linkShared_additions {classes : List ClassId} {id : ClassId} (hid : id ∈ classes)
    (h : AddsTo files start classes draft) :
    Leaves (AddsTo files start classes) (linkShared id) draft := by
  refine leaves_get_bind ?_
  have had : id ∈ draft.classes := h.2 ▸ hid
  split
  · exact leaves_set ⟨h.1.tail (.sharedParent had), h.2⟩
  · exact leaves_pure () h

/-- Gathering a unit makes additions to its draft, also when it fails. -/
theorem gather_additions (files : List Node) (start : Draft) :
    Leaves (Additions files start) (gather files) start := by
  refine leaves_bind (leaves_forM .refl fun file hf _ => addFile_additions hf)
    fun _ draft hd => leaves_get_bind ?_
  -- Nothing behind this point declares another class.
  have had : AddsTo files start draft.classes draft := ⟨hd, rfl⟩
  refine leaves_mono (fun _ => And.left) (P := AddsTo files start draft.classes) ?_
  refine leaves_bind (leaves_forM had fun id hid _ => link_additions hid)
    fun _ linked hl => leaves_get_bind ?_
  refine leaves_bind (leaves_forM hl fun id _ _ => leaves_liftExcept _)
    fun _ acyclic hac => ?_
  refine leaves_bind (leaves_forM hac fun id hid _ =>
    linkShared_additions (hl.2 ▸ hid)) fun _ shared hs => leaves_get_bind ?_
  refine leaves_bind (leaves_forM hs fun behaviour _ _ => leaves_liftExcept _)
    fun _ kept hk => ?_
  exact leaves_forM hk fun id _ _ => leaves_liftExcept _

end Gathering

/-! ## The scope of a file -/

section Files

variable {draft : Draft}

/-- The scope that the draft has for a file, in its Global scope or in store. -/
def fileKnown? (draft : Draft) (name : String) : Option ScopeId :=
  (draft.store.fileOf? draft.target name).or (draft.files.get? name)

/-- The scope of a file, and the draft that has it. -/
def openFile (draft : Draft) (name : String) : ScopeId × Draft :=
  match draft.fileKnown? name with
  | some file => (file, draft)
  | none => draft.withFile name

theorem openFile_cases (draft : Draft) (name : String) :
    (∃ file, draft.fileKnown? name = some file ∧ draft.openFile name = (file, draft)) ∨
      (draft.fileKnown? name = none ∧ draft.openFile name = draft.withFile name) := by
  unfold openFile
  cases draft.fileKnown? name with
  | some file => exact .inl ⟨file, rfl, rfl⟩
  | none => exact .inr ⟨rfl, rfl⟩

theorem run_fileScope (name : String) :
    (fileScope name).run.run draft = (.ok (draft.openFile name).1, (draft.openFile name).2) := by
  have hs : (((draft.store.scope draft.target).state.getD {}).files.get? name).or
      (draft.files.get? name) = draft.fileKnown? name := by
    unfold fileKnown? Store.fileOf?
    cases (draft.store.scope draft.target).state <;> rfl
  unfold fileScope openFile
  change ((match (((draft.store.scope draft.target).state.getD {}).files.get? name).or
      (draft.files.get? name) with
    | some file => pure file
    | none => (do
        set (draft.withFile name).2
        return (draft.withFile name).1) : Drafting ScopeId).run.run draft) = _
  rw [hs]
  cases draft.fileKnown? name <;> rfl

end Files

/-! ## What an accepted unit has passed -/

/-- The work succeeds. -/
def Succeeds (work : Drafting α) (draft : Draft) : Prop :=
  ∃ answer after, work.run.run draft = (.ok answer, after)

theorem Succeeds.of_bind {work : Drafting α} {next : α → Drafting β}
    (h : Succeeds (work >>= next) draft) :
    Succeeds work draft ∧ ∃ answer later, Succeeds (next answer) later := by
  obtain ⟨answer, after, hrun⟩ := h
  rw [ExceptT.run_bind, StateT.run_bind] at hrun
  cases hw : work.run.run draft with
  | mk outcome later =>
    rw [hw] at hrun
    cases outcome with
    | error error => cases hrun
    | ok first => exact ⟨⟨first, later, hw⟩, first, later, answer, after, hrun⟩

theorem Succeeds.of_forM {items : List α} {work : α → Drafting Unit}
    (h : Succeeds (items.forM work) draft) :
    ∀ item ∈ items, ∃ before, Succeeds (work item) before := by
  induction items generalizing draft with
  | nil => simp
  | cons item rest ih =>
    obtain ⟨hi, -, later, hr⟩ := h.of_bind
    exact List.forall_mem_cons.mpr ⟨⟨draft, hi⟩, ih hr⟩

theorem Succeeds.of_liftExcept {outcome : Except Error α}
    (h : Succeeds (liftExcept outcome) draft) :
    ∃ answer, outcome = .ok answer := by
  obtain ⟨answer, after, hrun⟩ := h
  exact ⟨answer, (Prod.mk.inj hrun).1⟩

section Runs

variable {draft later : Draft}

theorem run_bind_ok {work : Drafting α} {next : α → Drafting β} {answer : β} :
    (work >>= next).run.run draft = (.ok answer, later) ↔
      ∃ first between, work.run.run draft = (.ok first, between) ∧
        (next first).run.run between = (.ok answer, later) := by
  rw [ExceptT.run_bind, StateT.run_bind]
  constructor
  · intro hrun
    cases hw : work.run.run draft with
    | mk outcome between =>
      rw [hw] at hrun
      cases outcome with
      | error error => cases hrun
      | ok first => exact ⟨first, between, rfl, hrun⟩
  · rintro ⟨first, between, hw, hn⟩
    rw [hw]
    exact hn

theorem run_cons_forM_ok {item : α} {rest : List α} {work : α → Drafting Unit} :
    ((item :: rest).forM work).run.run draft = (.ok (), later) ↔
      ∃ between, (work item).run.run draft = (.ok (), between) ∧
        (rest.forM work).run.run between = (.ok (), later) := by
  refine run_bind_ok.trans ⟨?_, ?_⟩
  · rintro ⟨⟨⟩, between, hi, hr⟩
    exact ⟨between, hi, hr⟩
  · rintro ⟨between, hi, hr⟩
    exact ⟨(), between, hi, hr⟩

theorem run_liftExcept_ok {outcome : Except Error Unit} :
    (liftExcept outcome).run.run draft = (.ok (), later) ↔ outcome = .ok () ∧ later = draft := by
  have hrun : (liftExcept outcome).run.run draft = (outcome, draft) := rfl
  rw [hrun, Prod.mk.injEq, eq_comm (a := draft)]

end Runs

/-- A statement of an accepted file declares something or stands in its place. -/
theorem addStatement_ok {file : ScopeId} (h : Succeeds (addStatement file statement) draft) :
    statement.kind.isDeclaration = true ∨ statement.checkPlacement false = .ok () := by
  unfold addStatement at h
  split at h
  case h_9 =>
      obtain ⟨answer, hp⟩ := h.of_liftExcept
      exact .inr hp
  all_goals
    next hk =>
      rw [hk]
      exact .inl rfl

theorem addFile_ok {file : Node} (h : Succeeds (addFile file) draft) :
    ∃ name body, file.kind = .file name body ∧ ∀ statement ∈ body,
      statement.kind.isDeclaration = true ∨ statement.checkPlacement false = .ok () := by
  unfold addFile at h
  split at h
  case h_1 name body hk =>
      obtain ⟨-, scope, later, hb⟩ := h.of_bind
      refine ⟨name, body, hk, fun statement hs => ?_⟩
      obtain ⟨before, had⟩ := hb.of_forM statement hs
      exact addStatement_ok had
  case h_2 =>
      obtain ⟨answer, after, hrun⟩ := h
      cases hrun

/-- The files of an accepted unit are files, and their statements declare something or stand
in their places. -/
theorem gather_ok {files : List Node} (h : Succeeds (gather files) draft) :
    ∀ file ∈ files, ∃ name body, file.kind = .file name body ∧ ∀ statement ∈ body,
      statement.kind.isDeclaration = true ∨ statement.checkPlacement false = .ok () := by
  intro file hf
  obtain ⟨before, had⟩ := h.of_bind.1.of_forM file hf
  exact addFile_ok had

end StepScript.Draft
