import StepScript.Proofs.Registration.Grounded
set_option autoImplicit false

/-!
# What a draft shows

A draft shows the store that it would leave if it were published as it is (`Draft.shown`).  Names
are looked up there, and gathering the declarations of the files is declaring them one after the
other in that store (`Draft.simulates_files`).
-/

namespace StepScript

/-! ## Commuting changes -/

namespace Store

variable {store : Store} {root : ScopeId}

theorem modifyScope_modifyScope (id : ScopeId) (change next : Scope → Scope) :
    (store.modifyScope id change).modifyScope id next
      = store.modifyScope id fun scope => next (change scope) := by
  unfold modifyScope
  have hs : (store.scopes.modify id.index change).modify id.index next
      = store.scopes.modify id.index fun scope => next (change scope) := by
    refine Array.ext (by simp) fun index _ _ => ?_
    simp only [Array.getElem_modify]
    split <;> rfl
  rw [hs]

theorem addScope_modifyScope {id : ScopeId} (h : id.index < store.scopes.size)
    (change : Scope → Scope) (scope : Scope) :
    ((store.modifyScope id change).addScope scope).2
      = (store.addScope scope).2.modifyScope id change := by
  unfold modifyScope addScope
  have hs : (store.scopes.modify id.index change).push scope
      = (store.scopes.push scope).modify id.index change := by grind
  simp only [hs]

/-- A change of the scope that has just been added. -/
theorem modifyScope_addScope (scope : Scope) (change : Scope → Scope) :
    (store.addScope scope).2.modifyScope ⟨store.scopes.size⟩ change
      = (store.addScope (change scope)).2 := by
  unfold modifyScope addScope
  have hs : (store.scopes.push scope).modify store.scopes.size change
      = store.scopes.push (change scope) := by grind
  simp only [hs]

theorem declare_declare (entries more : Entries) :
    (store.declare root entries).declare root more = store.declare root (entries.append more) := by
  unfold declare
  rw [modifyScope_modifyScope]
  exact modifyScope_congr (Scope.declaring_declaring _ _ _)

theorem newScope_declare (h : store.IsRoot root) (entries : Entries) (kind : ScopeKind)
    (parent : ScopeId) :
    ((store.declare root entries).newScope kind parent).2
      = (store.newScope kind parent).2.declare root entries :=
  addScope_modifyScope h.inside _ _

theorem makeClass_declare (h : store.IsRoot root) (entries : Entries) (file : ScopeId)
    (name : String) (parentName : Option String) (collected : Collected) (token : Token) :
    ((store.declare root entries).makeClass file name parentName collected token).2
      = (store.makeClass file name parentName collected token).2.declare root entries := by
  unfold makeClass
  simp only [addScope_fst, size_declare]
  unfold declare
  rw [addScope_modifyScope h.inside]
  rfl

end Store

namespace Draft

/-! ## Shown stores -/

/-- What the Global scope will get to know of the unit. -/
def entries (draft : Draft) : Entries where
  files := draft.files
  behaviours := draft.behaviours
  functions := draft.functions
  classes := draft.classes.map fun id => ((draft.store.classAt id).name, id)

/-- The store that the draft would leave. -/
def shown (draft : Draft) : Store := draft.store.declare draft.target draft.entries

/-- The draft can be published in the Global scope as it is. -/
structure Pending (root : ScopeId) (draft : Draft) : Prop where
  target : draft.target = root
  grounded : draft.shown.Grounded root
  fileNames : (draft.files.map (·.1)).Nodup
  newFiles : ∀ entry ∈ draft.files, draft.store.fileOf? root entry.1 = none

variable {draft : Draft} {root : ScopeId}

namespace Pending

variable (h : draft.Pending root)

include h

theorem isRoot : draft.store.IsRoot root := by
  obtain ⟨rfl, hg, -, -⟩ := h
  have hi : draft.target.index < draft.store.scopes.size := by
    simpa [shown] using hg.isRoot.inside
  refine ⟨hi, ?_⟩
  have hp := hg.isRoot.parent
  unfold shown Store.declare at hp
  rwa [Store.scope_modifyScope_self hi] at hp

theorem scope_root : draft.shown.scope root = (draft.store.scope root).declaring draft.entries := by
  have hr := h.isRoot
  obtain rfl := h.target
  exact Store.scope_declare_self hr _

theorem scope_of_ne {id : ScopeId} (hid : id ≠ root) :
    draft.shown.scope id = draft.store.scope id := by
  obtain rfl := h.target
  exact Store.scope_declare_of_ne hid _

theorem exists_state : ∃ state, (draft.store.scope root).state = some state := by
  obtain ⟨state, hs, -⟩ := h.grounded.state
  rw [h.scope_root, Scope.declaring] at hs
  obtain ⟨former, hf, -⟩ := Option.map_eq_some_iff.mp hs
  exact ⟨former, hf⟩

theorem inside {id : ClassId} (hid : id ∈ draft.classes) : id.index < draft.store.classes.size := by
  have he : ((draft.store.classAt id).name, id) ∈ (draft.shown.scope root).classes := by
    rw [h.scope_root]
    exact List.mem_append_right _ (List.mem_map.mpr ⟨id, hid, rfl⟩)
  rw [h.grounded.classes] at he
  obtain ⟨other, ho, heq⟩ := List.mem_map.mp he
  obtain ⟨-, rfl⟩ := Prod.mk.inj heq
  exact Store.mem_allClasses.mp ho

/-! ## Lookups -/

theorem fileKnown?_eq (name : String) : draft.fileKnown? name = draft.shown.fileOf? root name := by
  obtain ⟨state, hs⟩ := h.exists_state
  have hr := h.isRoot
  obtain rfl := h.target
  exact (Store.fileOf?_declare hr hs draft.entries name).symm

end Pending

theorem get?_map_name {α : Type} (name : α → String) (items : List α) (wanted : String) :
    Table.get? (items.map fun item => (name item, item)) wanted
      = items.find? fun item => name item == wanted := by
  induction items with
  | nil => rfl
  | cons item rest ih =>
    rw [List.map_cons]
    unfold Table.get?
    by_cases heq : name item = wanted
    · rw [if_pos heq, List.find?_cons_of_pos (by simpa using heq)]
    · rw [if_neg heq, List.find?_cons_of_neg (by simpa using heq), ih]

/-- In a table without repetitions it does not matter which part is looked at first. -/
theorem or_get?_eq {α : Type} {table more : Table α}
    (h : ((table ++ more).map (·.1)).Nodup) (name : String) :
    (more.get? name).or (table.get? name) = Table.get? (table ++ more) name := by
  rw [Table.get?_append]
  cases ht : table.get? name with
  | none => simp
  | some entry =>
    have hmem : name ∈ table.map (·.1) := List.mem_map.mpr ⟨_, Table.mem_of_get? ht, rfl⟩
    have hm : more.get? name = none := by
      rw [List.map_append] at h
      refine Table.not_mem_of_unbound.mpr fun hn => ?_
      exact (List.nodup_append.mp h).2.2 name hmem name hn rfl
    rw [hm]
    rfl

namespace Pending

variable (h : draft.Pending root)

include h

theorem class?_eq (name : String) :
    draft.class? name = (draft.shown.scope root).classes.get? name := by
  have hn := h.grounded.classNames
  rw [h.scope_root] at hn ⊢
  obtain rfl := h.target
  refine Eq.trans ?_ (or_get?_eq hn name)
  unfold class? entries
  rw [get?_map_name]

theorem behaviour?_eq (name : String) :
    draft.behaviour? name = (draft.shown.scope root).behaviours.get? name := by
  have hn := h.grounded.behaviourNames
  rw [h.scope_root] at hn ⊢
  obtain rfl := h.target
  refine Eq.trans ?_ (or_get?_eq hn name)
  unfold behaviour? entries
  rw [get?_map_name]

theorem declaresFunction_eq (name : String) :
    draft.declaresFunction name = (draft.shown.scope root).functions.binds name := by
  have hn := h.grounded.functionNames
  rw [h.scope_root] at hn ⊢
  obtain rfl := h.target
  unfold Table.binds
  refine Eq.trans ?_ (congrArg Option.isSome (or_get?_eq hn name))
  unfold declaresFunction entries
  rw [get?_map_name, Option.isSome_or, List.isSome_find?]
  rfl

end Pending

/-! ## Additions -/

theorem withClass_eq (draft : Draft) (file : ScopeId) (name : String)
    (parentName : Option String) (collected : Collected) (token : Token) :
    draft.withClass file name parentName collected token = { draft with
          store := (draft.store.makeClass file name parentName collected token).2
          classes := draft.classes ++ [⟨draft.store.classes.size⟩] } := by
  have hs : (draft.store.newScope .classLevel file).2.setFunctions
      ⟨draft.store.scopes.size⟩ collected.sharedFunctions
        = (draft.store.addScope (collected.toShared file)).2 := Store.modifyScope_addScope _ _
  change ({ draft with
      store := (((draft.store.newScope .classLevel file).2.setFunctions
        ⟨draft.store.scopes.size⟩ collected.sharedFunctions).addClass
          (collected.toClass name parentName token ⟨draft.store.scopes.size⟩ file)).2
      classes := draft.classes ++ [⟨draft.store.classes.size⟩] } : Draft) = _
  rw [hs]
  rfl

theorem shown_withFile (h : draft.Pending root) {name : String}
    (hun : draft.fileKnown? name = none) :
    (draft.withFile name).2.shown = (draft.shown.newScope .file root).2.declare root
          { files := [(name, ⟨draft.store.scopes.size⟩)] } := by
  have hr := h.isRoot
  obtain rfl := h.target
  have hu : draft.files.get? name = none := (Option.or_eq_none_iff.mp hun).2
  have he : (draft.withFile name).2.entries
      = draft.entries.append { files := [(name, ⟨draft.store.scopes.size⟩)] } := by
    simp [entries, withFile, Entries.append, Table.insert_of_unbound _ hu, Store.newScope,
      Store.classAt, Store.addScope]
  unfold shown
  rw [he, ← Store.declare_declare, Store.newScope_declare hr]
  rfl

theorem shown_withClass (h : draft.Pending root) (file : ScopeId) (name : String)
    (parentName : Option String) (collected : Collected) (token : Token) :
    (draft.withClass file name parentName collected token).shown
      = (draft.shown.makeClass file name parentName collected token).2.declare root
          { classes := [(name, ⟨draft.store.classes.size⟩)] } := by
  have hr := h.isRoot
  have hi {id : ClassId} (hid : id ∈ draft.classes) := h.inside hid
  obtain rfl := h.target
  have hc : (draft.classes ++ [ClassId.mk draft.store.classes.size]).map (fun id =>
        (((draft.store.makeClass file name parentName collected token).2.classAt id).name, id))
      = draft.entries.classes ++ [(name, ⟨draft.store.classes.size⟩)] := by
    rw [List.map_append, List.map_singleton, Store.classAt_makeClass, if_pos rfl]
    refine congrArg (· ++ _) (List.map_congr_left fun id hid => ?_)
    rw [Store.classAt_makeClass, if_neg (Nat.ne_of_lt (hi hid))]
  rw [withClass_eq]
  unfold shown
  rw [Store.makeClass_declare hr, Store.declare_declare]
  refine congrArg (Store.declare _ _) ?_
  unfold entries
  dsimp only
  rw [hc]
  simp [Entries.append, entries]

theorem shown_withBehaviour (draft : Draft) (name : String) (collected : Collected)
    (token : Token) :
    (draft.withBehaviour name collected token).shown = draft.shown.declare draft.target
          { behaviours := [collected.toBehaviour name token] } := by
  unfold shown
  rw [Store.declare_declare]
  refine congrArg (Store.declare _ _) ?_
  simp [Entries.append, entries, withBehaviour, Collected.toBehaviour]

theorem shown_withFunction (draft : Draft) (file : ScopeId) (name : String)
    (params : List Parameter) (body : Option Node) (token : Token) :
    (draft.withFunction file name params body token).shown = draft.shown.declare draft.target
          { functions := [{ name, params, body, owner := none, home := some file, token }] } := by
  unfold shown
  rw [Store.declare_declare]
  refine congrArg (Store.declare _ _) ?_
  simp [Entries.append, entries, withFunction]

/-! ## Simulation -/

/-- Work has ended as the direct declaration has, in a draft that shows the declared store. -/
inductive Agrees (root : ScopeId) (keeps : Store → Prop) (draft : Draft) :
    Except Error Unit × Draft → Option Store → Prop where
  | accepted {later : Draft} {declared : Store} (pending : later.Pending root)
      (scope : later.store.scope root = draft.store.scope root)
      (shows : later.shown = declared) (kept : keeps declared) :
      Agrees root keeps draft (.ok (), later) (some declared)
  | refused {error : Error} {later : Draft} : Agrees root keeps draft (.error error, later) none

/-- Work on a draft does to the shown store what the direct declaration does. -/
def Simulates (root : ScopeId) (keeps : Store → Prop) (work : Drafting Unit)
    (declares : Store → Option Store) : Prop :=
  ∀ draft : Draft, draft.Pending root → keeps draft.shown →
    Agrees root keeps draft (work.run.run draft) (declares draft.shown)

/-- Work that leaves the files and the Global scope alone. -/
theorem Pending.later (h : draft.Pending root) {later : Draft}
    (ht : later.target = draft.target) (hf : later.files = draft.files)
    (hs : later.store.scope root = draft.store.scope root)
    (hg : later.shown.Grounded root) : later.Pending root where
  target := ht.trans h.target
  grounded := hg
  fileNames := hf ▸ h.fileNames
  newFiles := by
    unfold Store.fileOf?
    rw [hf, hs]
    exact h.newFiles

section Statements

variable {file : ScopeId}

/-- A draft in which an item has been accepted. -/
theorem Pending.agrees_item (h : draft.Pending root) (hf : draft.shown.IsHome root file)
    {item : Item} (hi : item.Admissible) {later : Draft} {declared : Store}
    (hd : draft.shown.declareItem root file item = some declared)
    (hsh : later.shown = declared) (ht : later.target = draft.target) (hfl : later.files = draft.files)
    (hs : later.store.scope root = draft.store.scope root) :
    Agrees root (·.IsHome root file) draft (.ok (), later) (some declared) := by
  obtain ⟨made, entries, hp, rfl⟩ := h.grounded.prepares_item hf hi hd
  have hg := hp.grounded h.grounded
  exact .accepted (h.later ht hfl hs (hsh ▸ hg)) hs hsh
    (hp.isHome h.grounded hf)

/-- A class or a behaviour is refused for its name or for its body. -/
theorem simulates_gathered (statement : Node) {taken : Draft → Bool} {refusal : Error}
    {gathered : Except Error Collected} {grown : Draft → Collected → Draft}
    {item : Collected → Item} (hi : Item.ofStatement? statement = gathered.toOption.map item)
    (ht : ∀ draft : Draft, draft.Pending root → taken draft = true → ∀ collected,
      draft.shown.declareItem root file (item collected) = none)
    (ha : ∀ draft : Draft, draft.Pending root → draft.shown.IsHome root file →
      ¬taken draft = true → ∀ collected, gathered = .ok collected →
        Agrees root (·.IsHome root file) draft (.ok (), grown draft collected)
          (draft.shown.declareItem root file (item collected))) :
    Simulates root (·.IsHome root file) (do
        let draft ← get
        if taken draft then throw refusal
        else
          let collected ← liftExcept gathered
          set (grown draft collected))
      fun store => store.declareStatement root file statement := by
  intro draft h hf
  change Agrees root _ draft ((if taken draft then _ else _ : Drafting Unit).run.run draft)
    ((Item.ofStatement? statement).bind (draft.shown.declareItem root file))
  rw [hi]
  cases hg : gathered with
  | error error => split <;> exact .refused
  | ok collected =>
    dsimp only [Except.toOption, Option.map_some, Option.bind_some]
    split
    · next hk =>
      rw [ht draft h hk]
      exact .refused
    · next hk => exact ha draft h hf hk collected hg

theorem simulates_class (statement : Node) {name : String} {parentName : Option String}
    {body : Node} (hk : statement.kind = .classDecl name parentName body) :
    Simulates root (·.IsHome root file) (addClass file name parentName body statement.token)
      fun store => store.declareStatement root file statement := by
  have hst : Item.ofStatement? statement = (Collected.ofBody name .ofClass body).toOption.map
      fun collected => Item.ofClass name parentName collected statement.token := by
    unfold Item.ofStatement?
    rw [hk]
  refine simulates_gathered statement hst (fun draft h ht collected => ?_)
    fun draft h hf ht collected _ => ?_ <;> rw [h.class?_eq] at ht
  · exact if_pos ht
  · have hd : draft.shown.declareItem root file
        (.ofClass name parentName collected statement.token) = some _ := if_neg ht
    have hs := shown_withClass h file name parentName collected statement.token
    rw [withClass_eq] at hs ⊢
    rw [hd]
    refine h.agrees_item hf ?_ hd hs rfl rfl (Store.scope_makeClass_of_lt h.isRoot.inside)
    trivial

theorem simulates_behaviour (statement : Node) {name : String} {body : Node}
    (hk : statement.kind = .behaviourDecl name body) :
    Simulates root (·.IsHome root file) (addBehaviour name body statement.token)
      fun store => store.declareStatement root file statement := by
  have hst : Item.ofStatement? statement = (Collected.ofBody name .ofBehaviour body).toOption.map
      fun collected => Item.ofBehaviour (collected.toBehaviour name statement.token) := by
    unfold Item.ofStatement?
    rw [hk]
  refine simulates_gathered statement hst (fun draft h ht collected => ?_)
    fun draft h hf ht collected hb => ?_ <;> rw [h.behaviour?_eq] at ht
  · exact if_pos ht
  · have hd : draft.shown.declareItem root file
        (.ofBehaviour (collected.toBehaviour name statement.token)) = some _ := if_neg ht
    have hs := shown_withBehaviour draft name collected statement.token
    rw [h.target] at hs
    rw [hd]
    refine h.agrees_item hf ?_ hd hs rfl rfl rfl
    exact Collected.ofBody_constructible hb

/-- A function is refused for its body or for its name. -/
theorem run_addFunction (draft : Draft) (file : ScopeId) (name : String) (params : List Parameter)
    (body : Option Node) (token : Token) :
    (addFunction file name params body token).run.run draft = match checkFunctionBody body with
        | .error error => (.error error, draft)
        | .ok () =>
          if draft.declaresFunction name then
            (.error (.registration (.duplicateFunction name) token), draft)
          else (.ok (), draft.withFunction file name params body token) := by
  unfold addFunction
  cases checkFunctionBody body with
  | error error => rfl
  | ok answer =>
    change (StateT.run (ExceptT.run (if draft.declaresFunction name then _ else _)) draft) = _
    dsimp only
    split <;> rfl

theorem simulates_function (statement : Node) {name : String} {params : List Parameter}
    {body : Option Node} {native : Bool}
    (hk : statement.kind = .functionDecl name params body false native) :
    Simulates root (·.IsHome root file) (addFunction file name params body statement.token)
      fun store => store.declareStatement root file statement := by
  intro draft h hf
  dsimp only
  have hd : draft.shown.declareStatement root file statement
      = ((checkFunctionBody body).toOption.map fun _ =>
          Item.ofFunction ⟨name, params, body, none, none, statement.token⟩).bind
          (draft.shown.declareItem root file) := by
    unfold Store.declareStatement Item.ofStatement?
    rw [hk]
    rfl
  rw [run_addFunction, hd, h.declaresFunction_eq]
  cases hb : checkFunctionBody body with
  | error error => exact .refused
  | ok answer =>
    dsimp only [Except.toOption, Option.map_some, Option.bind_some, Store.declareItem]
    split
    · exact .refused
    · next hn =>
      have hs := shown_withFunction draft file name params body statement.token
      rw [h.target] at hs
      have hi : (Item.ofFunction ⟨name, params, body, none, none,
        statement.token⟩).Admissible := trivial
      exact h.agrees_item hf hi (if_neg hn) hs rfl rfl rfl

/-- A statement that is refused wherever it stands. -/
theorem simulates_refused (statement : Node) (error : Error)
    (hi : Item.ofStatement? statement = none) :
    Simulates root (·.IsHome root file) (throw error)
      fun store => store.declareStatement root file statement := by
  intro draft _ _
  unfold Store.declareStatement
  rw [hi]
  exact .refused

/-- A statement that runs. -/
theorem simulates_plain (statement : Node)
    (hi : Item.ofStatement? statement
      = (statement.checkPlacement false).toOption.map fun _ => Item.nothing) :
    Simulates root (·.IsHome root file) (liftExcept (statement.checkPlacement false))
      fun store => store.declareStatement root file statement := by
  intro draft h hf
  unfold Store.declareStatement
  rw [hi]
  have hrun : (liftExcept (statement.checkPlacement false)).run.run draft
      = (statement.checkPlacement false, draft) := rfl
  rw [hrun]
  cases statement.checkPlacement false with
  | error error => exact .refused
  | ok answer => exact .accepted h rfl rfl hf

theorem simulates_statement (statement : Node) :
    Simulates root (·.IsHome root file) (addStatement file statement)
      fun store => store.declareStatement root file statement := by
  obtain ⟨kind, token⟩ := statement
  cases kind with
  | classDecl name parentName body => exact simulates_class _ rfl
  | behaviourDecl name body => exact simulates_behaviour _ rfl
  | functionDecl name params body shared native =>
    cases shared with
    | true => exact simulates_refused _ _ rfl
    | false => exact simulates_function _ rfl
  | propertyDecl name initial shared => cases shared <;> exact simulates_refused _ _ rfl
  | constructorDecl params body shared => exact simulates_refused _ _ rfl
  | hasBehaviour name => exact simulates_refused _ _ rfl
  | updateOrder order => exact simulates_refused _ _ rfl
  | contract contract name => exact simulates_refused _ _ rfl
  | _ => exact simulates_plain _ rfl

end Statements

/-! ## Files -/

/-- One piece of work after the other does what the declarations do one after the other. -/
theorem simulates_forM {α : Type} {keeps : Store → Prop} {items : List α}
    {work : α → Drafting Unit} {declares : Store → α → Option Store}
    (hi : ∀ item ∈ items, Simulates root keeps (work item) fun store => declares store item) :
    Simulates root keeps (items.forM work) fun store => items.foldlM declares store := by
  induction items with
  | nil =>
    intro draft h hk
    exact .accepted h rfl rfl hk
  | cons item rest ih =>
    intro draft h hk
    have hf := hi item List.mem_cons_self draft h hk
    have hrun : ((item :: rest).forM work).run.run draft = match (work item).run.run draft with
          | (.ok (), later) => (rest.forM work).run.run later
          | (.error error, later) => (.error error, later) := by
      change (work item >>= fun _ => rest.forM work).run.run draft = _
      rw [ExceptT.run_bind, StateT.run_bind]
      cases (work item).run.run draft with
      | mk answer later => cases answer <;> rfl
    dsimp only at hf ⊢
    rw [hrun, List.foldlM_cons]
    generalize (work item).run.run draft = ended at hf ⊢
    generalize declares draft.shown item = declared at hf ⊢
    cases hf with
    | refused => exact .refused
    | @accepted later _ hlt hsc hsh hkp =>
      obtain rfl := hsh
      have hr := ih (fun other ho => hi other (List.mem_cons_of_mem _ ho))
        later hlt hkp
      dsimp only [Option.bind_eq_bind, Option.bind_some] at hr ⊢
      generalize (rest.forM work).run.run later = ended at hr ⊢
      generalize rest.foldlM declares later.shown = declared at hr ⊢
      cases hr with
      | refused => exact .refused
      | accepted hl hs hsw hkp => exact .accepted hl (hs.trans hsc) hsw hkp

/-- The scope of a file in the draft is its scope in the shown store. -/
theorem shown_openFile (h : draft.Pending root) (name : String) :
    (draft.openFile name).1 = (draft.shown.openFile root name).1 ∧
      (draft.openFile name).2.shown = (draft.shown.openFile root name).2 := by
  have hk := h.fileKnown?_eq name
  rcases draft.openFile_cases name with ⟨file, hf, ho⟩ | ⟨hn, ho⟩
  · rw [ho]
    unfold Store.openFile
    rw [← hk, hf]
    exact ⟨rfl, rfl⟩
  · have hs : draft.shown.scopes.size = draft.store.scopes.size := Store.size_declare ..
    rw [ho, shown_withFile h hn]
    unfold Store.openFile Store.newScope
    rw [← hk, hn]
    simp only [Store.addScope_fst, hs]
    exact ⟨rfl, trivial⟩

theorem Pending.openFile (h : draft.Pending root) (name : String) :
    (draft.openFile name).2.Pending root ∧
      (draft.openFile name).2.store.scope root = draft.store.scope root := by
  rcases draft.openFile_cases name with ⟨file, hfl, ho⟩ | ⟨hn, ho⟩
  · rw [ho]
    exact ⟨h, rfl⟩
  · have hg := (h.grounded.openFile name).1
    rw [← (shown_openFile h name).2, ho] at hg
    obtain ⟨hun, hu⟩ := Option.or_eq_none_iff.mp hn
    have hs : (draft.withFile name).2.store.scope root = draft.store.scope root :=
      Store.scope_addScope_of_lt h.isRoot.inside
    have hf : (draft.withFile name).2.files = draft.files ++ [(name, ⟨draft.store.scopes.size⟩)] :=
      Table.insert_of_unbound _ hu
    rw [ho]
    refine ⟨⟨h.target, hg, ?_, ?_⟩, hs⟩
    · rw [hf]
      exact Store.nodup_names_append h.fileNames (by simp [Table.binds, hu]) _
    · unfold Store.fileOf?
      rw [hf, hs]
      intro entry he
      rcases List.mem_append.mp he with hold | hnew
      · exact h.newFiles entry hold
      · obtain rfl := List.mem_singleton.mp hnew
        exact h.target ▸ hun

theorem simulates_file (file : Node) :
    Simulates root (fun _ => True) (addFile file) fun store => store.declareFile root file := by
  intro draft h _
  obtain ⟨kind, token⟩ := file
  cases kind with
  | file name body =>
    obtain ⟨ho, hsc⟩ := h.openFile name
    obtain ⟨hf, hs⟩ := shown_openFile h name
    have hrun : (addFile ⟨.file name body, token⟩).run.run draft
        = (body.forM (addStatement (draft.openFile name).1)).run.run
            (draft.openFile name).2 := by
      change (fileScope name >>= fun scope => body.forM (addStatement scope)).run.run draft = _
      rw [ExceptT.run_bind, StateT.run_bind, run_fileScope]
      rfl
    have hd : draft.shown.declareFile root ⟨.file name body, token⟩
        = body.foldlM (Store.declareStatement root (draft.openFile name).1)
            (draft.openFile name).2.shown := by
      rw [hf, hs]
      rfl
    have hh : (draft.openFile name).2.shown.IsHome root (draft.openFile name).1 := by
      rw [hf, hs]
      exact ⟨name, (h.grounded.openFile name).2⟩
    have hb := simulates_forM
      (fun statement (_ : statement ∈ body) => @simulates_statement root _ statement)
      (draft.openFile name).2 ho hh
    dsimp only at hb ⊢
    rw [hrun, hd]
    generalize (body.forM (addStatement (draft.openFile name).1)).run.run
      (draft.openFile name).2 = ended at hb ⊢
    generalize body.foldlM (Store.declareStatement root (draft.openFile name).1)
      (draft.openFile name).2.shown = declared at hb ⊢
    cases hb with
    | refused => exact .refused
    | accepted hl hsm hsh _ => exact .accepted hl (hsm.trans hsc) hsh trivial
  | _ => exact .refused

/-- Gathering the declarations of the files declares them one after the other in the shown
store. -/
theorem simulates_files (files : List Node) :
    Simulates root (fun _ => True) (files.forM addFile)
      fun store => store.declareUnit root files :=
  simulates_forM fun file _ => simulates_file file

end Draft

end StepScript
