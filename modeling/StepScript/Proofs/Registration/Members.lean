import StepScript.Proofs.Registration.Items
import StepScript.Proofs.Registration.Placed
set_option autoImplicit false

/-!
# What bodies declare

Every statement of the body of a class or a behaviour declares one member of the owner
(`Node.member?`).  What is collected from a body are the members that its statements declare, each
kind of them in the order of the statements (`Collected.ofBody_holds`).
-/

namespace StepScript

variable {owner name : String} {token : Token} {shared : Bool} {kind : OwnerKind}

/-- What a statement in the body of a class or a behaviour declares. -/
inductive Member where
  | property (shared : Bool) (property : Property)
  | function (shared : Bool) (function : Function)
  | constructor (shared : Bool) (constructor : Function)
  | attachment (mention : Mention)
  | updateOrder (order : UpdateOrder)
  | contract (contract : Contract) (mention : Mention)

/-- What a statement declares in the body of the owner. -/
def Node.member? (owner : String) (node : Node) : Option Member :=
  let token := node.token
  match node.kind with
  | .propertyDecl name initial shared => some (.property shared { name, initial, token })
  | .functionDecl name params body shared _ =>
    some (.function shared { name, params, body, owner, home := none, token })
  | .constructorDecl params body shared =>
    some (.constructor shared
      { name := "constructor", params, body, owner, home := none, token })
  | .hasBehaviour name => some (.attachment (name, token))
  | .updateOrder order => some (.updateOrder order)
  | .contract contract name => some (.contract contract (name, token))
  | _ => none

theorem Node.isDeclaration_of_member {node : Node} {member : Member}
    (h : node.member? owner = some member) :
    node.kind.isDeclaration = true ∧ node.kind.ownerBody? = none := by
  obtain ⟨kind, token⟩ := node
  cases kind <;> first | exact ⟨rfl, rfl⟩ | cases h

namespace Member

/-- The member may stand in the body of such an owner. -/
def FitsIn : OwnerKind → Member → Bool
  | .ofClass, .contract .. => false
  | .ofClass, _ => true
  | .ofBehaviour, .property shared _ | .ofBehaviour, .function shared _
  | .ofBehaviour, .constructor shared _ => !shared
  | .ofBehaviour, .contract .. => true
  | .ofBehaviour, .attachment _ | .ofBehaviour, .updateOrder _ => false

/-- A property, shared or not. -/
@[simp] def property? (shared : Bool) : Member → Option Property
  | .property place found => if place = shared then some found else none
  | _ => none

/-- A function, shared or not. -/
@[simp] def function? (shared : Bool) : Member → Option Function
  | .function place found => if place = shared then some found else none
  | _ => none

/-- A constructor, shared or not. -/
@[simp] def constructor? (shared : Bool) : Member → Option Function
  | .constructor place found => if place = shared then some found else none
  | _ => none

/-- A behaviour that is attached. -/
@[simp] def attachment? : Member → Option Mention
  | .attachment mention => some mention
  | _ => none

/-- An update order. -/
@[simp] def updateOrder? : Member → Option UpdateOrder
  | .updateOrder order => some order
  | _ => none

/-- A behaviour that the contract mentions. -/
@[simp] def contract? (wanted : Contract) : Member → Option Mention
  | .contract kind mention => if kind = wanted then some mention else none
  | _ => none

end Member

/-- Functions under their names. -/
def Table.ofFunctions (functions : List Function) : Table Function :=
  functions.map fun function => (function.name, function)

namespace Collected

/-- What has been collected are the members, each kind of them in their order. -/
structure Holds (collected : Collected) (members : List Member) : Prop where
  properties : collected.members.properties = members.filterMap (·.property? false)
  sharedProperties : collected.sharedProperties = members.filterMap (·.property? true)
  functions : collected.members.functions
    = Table.ofFunctions (members.filterMap (·.function? false))
  sharedFunctions : collected.sharedFunctions
    = Table.ofFunctions (members.filterMap (·.function? true))
  constructor : collected.members.constructor.toList = members.filterMap (·.constructor? false)
  sharedConstructor : collected.sharedConstructor.toList = members.filterMap (·.constructor? true)
  behaviours : collected.behaviours = members.filterMap (·.attachment?)
  updateOrder : collected.updateOrder.toList = members.filterMap (·.updateOrder?)
  requires : collected.requires = members.filterMap (·.contract? .requires)
  supports : collected.supports = members.filterMap (·.contract? .supports)
  excludes : collected.excludes = members.filterMap (·.contract? .excludes)

variable {collected later : Collected} {members : List Member} {owner : String}

variable (h : collected.Holds members)

include h

/-- One member more. -/
theorem Holds.push {member : Member}
    (hp : later.members.properties
      = collected.members.properties ++ (member.property? false).toList)
    (hsp : later.sharedProperties = collected.sharedProperties ++ (member.property? true).toList)
    (hf : later.members.functions
      = collected.members.functions ++ Table.ofFunctions (member.function? false).toList)
    (hsf : later.sharedFunctions
      = collected.sharedFunctions ++ Table.ofFunctions (member.function? true).toList)
    (hc : later.members.constructor.toList
      = collected.members.constructor.toList ++ (member.constructor? false).toList)
    (hsc : later.sharedConstructor.toList
      = collected.sharedConstructor.toList ++ (member.constructor? true).toList)
    (hb : later.behaviours = collected.behaviours ++ member.attachment?.toList)
    (huo : later.updateOrder.toList = collected.updateOrder.toList ++ member.updateOrder?.toList)
    (hrq : later.requires = collected.requires ++ (member.contract? .requires).toList)
    (hs : later.supports = collected.supports ++ (member.contract? .supports).toList)
    (he : later.excludes = collected.excludes ++ (member.contract? .excludes).toList) :
    later.Holds (members ++ [member]) := by
  have hl {α : Type} (read : Member → Option α) :
      (members ++ [member]).filterMap read = members.filterMap read ++ (read member).toList := by
    rw [List.filterMap_append]
    cases hr : read member <;> simp [hr]
  have ht (functions more : List Function) : Table.ofFunctions (functions ++ more)
      = Table.ofFunctions functions ++ Table.ofFunctions more := List.map_append
  constructor <;> rw [hl]
  · rw [hp, h.properties]
  · rw [hsp, h.sharedProperties]
  · rw [hf, h.functions, ht]
  · rw [hsf, h.sharedFunctions, ht]
  · rw [hc, h.constructor]
  · rw [hsc, h.sharedConstructor]
  · rw [hb, h.behaviours]
  · rw [huo, h.updateOrder]
  · rw [hrq, h.requires]
  · rw [hs, h.supports]
  · rw [he, h.excludes]

theorem addProperty_holds {initial : Option Node}
    (hadd : collected.addProperty owner name initial shared token = .ok later) :
    later.Holds (members ++ [.property shared { name, initial, token }]) := by
  unfold addProperty at hadd
  split at hadd
  · cases hadd
  · cases shared with
    | true =>
      obtain rfl := Except.ok.inj hadd
      apply h.push <;> simp [Table.ofFunctions]
    | false =>
      obtain rfl := Except.ok.inj hadd
      apply h.push <;> simp [Table.ofFunctions]

theorem addFunction_holds {params : List Parameter} {body : Option Node}
    (hadd : collected.addFunction owner name params body shared token = .ok later) :
    checkFunctionBody body = .ok () ∧
      later.Holds (members
        ++ [.function shared { name, params, body, owner, home := none, token }]) := by
  unfold addFunction at hadd
  cases shared with
  | true =>
    simp only [reduceIte] at hadd
    split at hadd
    · cases hadd
    · next hu =>
      have hn : collected.sharedFunctions.get? name = none := by
        simpa [Table.binds] using hu
      split at hadd
      · cases hadd
      · next hb =>
        obtain rfl := Except.ok.inj hadd
        refine ⟨hb, ?_⟩
        apply h.push <;> simp [Table.ofFunctions, Table.insert_of_unbound _ hn]
  | false =>
    simp only [Bool.false_eq_true, reduceIte] at hadd
    split at hadd
    · cases hadd
    · next hu =>
      have hn : collected.members.functions.get? name = none := by
        simpa [Table.binds] using hu
      split at hadd
      · cases hadd
      · next hb =>
        obtain rfl := Except.ok.inj hadd
        refine ⟨hb, ?_⟩
        apply h.push <;> simp [Table.ofFunctions, Table.insert_of_unbound _ hn]

theorem addConstructor_holds {params : List Parameter} {body : Node}
    (hadd : collected.addConstructor owner kind params body shared token = .ok later) :
    checkFunctionBody (some body) = .ok () ∧
      later.Holds (members ++ [.constructor shared
        { name := "constructor", params, body, owner, home := none, token }]) := by
  unfold addConstructor at hadd
  cases shared with
  | true =>
    simp only [Bool.true_and, reduceIte] at hadd
    split at hadd
    · cases hadd
    · next hf =>
      have hn : collected.sharedConstructor = none := by simpa using hf
      split at hadd
      · cases hadd
      · split at hadd
        · cases hadd
        · split at hadd
          · cases hadd
          · next hb =>
            obtain rfl := Except.ok.inj hadd
            refine ⟨hb, ?_⟩
            apply h.push <;> simp [Table.ofFunctions, hn]
  | false =>
    simp only [Bool.false_and, Bool.false_eq_true, reduceIte] at hadd
    split at hadd
    · cases hadd
    · next hf =>
      have hn : collected.members.constructor = none := by simpa using hf
      split at hadd
      · cases hadd
      · split at hadd
        · cases hadd
        · next hb =>
          obtain rfl := Except.ok.inj hadd
          refine ⟨hb, ?_⟩
          apply h.push <;> simp [Table.ofFunctions, hn]

theorem addAttachment_holds (hadd : collected.addAttachment owner name token = .ok later) :
    later.Holds (members ++ [.attachment (name, token)]) := by
  unfold addAttachment at hadd
  split at hadd
  · cases hadd
  · obtain rfl := Except.ok.inj hadd
    apply h.push <;> simp [Table.ofFunctions]

theorem addUpdateOrder_holds {order : UpdateOrder}
    (hadd : collected.addUpdateOrder owner order token = .ok later) :
    later.Holds (members ++ [.updateOrder order]) := by
  unfold addUpdateOrder at hadd
  split at hadd
  · cases hadd
  · next hf =>
    have hn : collected.updateOrder = none := by simpa using hf
    obtain rfl := Except.ok.inj hadd
    apply h.push <;> simp [Table.ofFunctions, hn]

theorem addContract_holds {contract : Contract}
    (hadd : collected.addContract owner contract name token = .ok later) :
    later.Holds (members ++ [.contract contract (name, token)]) := by
  unfold addContract at hadd
  split at hadd
  · cases hadd
  · cases contract with
    | requires =>
      obtain rfl := Except.ok.inj hadd
      apply h.push <;> simp [Table.ofFunctions]
    | supports =>
      obtain rfl := Except.ok.inj hadd
      apply h.push <;> simp [Table.ofFunctions]
    | excludes =>
      obtain rfl := Except.ok.inj hadd
      apply h.push <;> simp [Table.ofFunctions]

/-- A statement that is added declares one member, which may stand in the body. -/
theorem add_holds {statement : Node} (hadd : collected.add owner kind statement = .ok later) :
    statement.kind.checkCode = .ok () ∧ ∃ member, statement.member? owner = some member ∧
      member.FitsIn kind = true ∧ later.Holds (members ++ [member]) := by
  obtain ⟨statementKind, token⟩ := statement
  unfold add at hadd
  dsimp only at hadd
  split at hadd
  · cases hadd
  · next hs =>
    split at hadd
    case h_1 name initial shared =>
      refine ⟨rfl, _, rfl, ?_, addProperty_holds h hadd⟩
      cases kind <;> simp_all [Member.FitsIn, declaresShared]
    case h_2 name params body shared native =>
      obtain ⟨hb, hh⟩ := addFunction_holds h hadd
      refine ⟨hb, _, rfl, ?_, hh⟩
      cases kind <;> simp_all [Member.FitsIn, declaresShared]
    case h_3 params body shared =>
      obtain ⟨hb, hh⟩ := addConstructor_holds h hadd
      refine ⟨hb, _, rfl, ?_, hh⟩
      cases kind <;> simp_all [Member.FitsIn, declaresShared]
    case h_4 => exact ⟨rfl, _, rfl, rfl, addAttachment_holds h hadd⟩
    case h_5 => exact ⟨rfl, _, rfl, rfl, addUpdateOrder_holds h hadd⟩
    case h_6 => exact ⟨rfl, _, rfl, rfl, addContract_holds h hadd⟩
    case h_7 => split at hadd <;> cases hadd

end Collected

/-- Every statement declares one of the members, in their order, and all of them may stand in the
body of such an owner. -/
structure DeclareMembers (owner : String) (kind : OwnerKind) (statements : List Node)
    (members : List Member) : Prop where
  each : List.Forall₂ (fun statement member => Node.member? owner statement = some member)
    statements members
  fits : ∀ member ∈ members, member.FitsIn kind = true

namespace Collected

variable {collected : Collected} {owner : String} {kind : OwnerKind}

theorem foldlM_holds {statements : List Node} {start : Collected} {before : List Member}
    (h : start.Holds before) (hf : statements.foldlM (add owner kind) start = .ok collected) :
    (∀ statement ∈ statements, statement.kind.checkCode = .ok ()) ∧
      ∃ members, DeclareMembers owner kind statements members ∧
        collected.Holds (before ++ members) := by
  induction statements generalizing start before with
  | nil =>
    obtain rfl := Except.ok.inj hf
    exact ⟨by simp, [], ⟨.nil, by simp⟩, by simpa using h⟩
  | cons statement rest ih =>
    rw [List.foldlM_cons] at hf
    cases hadd : start.add owner kind statement with
    | error error =>
      rw [hadd] at hf
      cases hf
    | ok next =>
      rw [hadd] at hf
      obtain ⟨hc, member, hm, hft, hn⟩ := add_holds h hadd
      obtain ⟨hcd, members, ⟨he, hall⟩, hh⟩ := ih hn hf
      refine ⟨List.forall_mem_cons.mpr ⟨hc, hcd⟩, member :: members, ?_, ?_⟩
      · exact ⟨.cons hm he, List.forall_mem_cons.mpr ⟨hft, hall⟩⟩
      · simpa using hh

/-- What is collected from a body are the members that its statements declare. -/
theorem ofBody_holds {body : Node} (h : ofBody owner kind body = .ok collected) :
    (∀ statement ∈ body.statements, statement.kind.checkCode = .ok ()) ∧
      ∃ members, DeclareMembers owner kind body.statements members ∧ collected.Holds members := by
  have hs : Holds {} [] := by constructor <;> rfl
  simpa using foldlM_holds hs h

end Collected

/-! ## Statements of files -/

/-- The statement of a file declares the item. -/
inductive Item.IsOf (statement : Node) : Item → Prop where
  | ofClass {name : String} {parentName : Option String} {body : Node} {collected : Collected}
      (kind : statement.kind = .classDecl name parentName body)
      (collects : Collected.ofBody name .ofClass body = .ok collected) :
      IsOf statement (.ofClass name parentName collected statement.token)
  | ofBehaviour {name : String} {body : Node} {collected : Collected}
      (kind : statement.kind = .behaviourDecl name body)
      (collects : Collected.ofBody name .ofBehaviour body = .ok collected) :
      IsOf statement (.ofBehaviour (collected.toBehaviour name statement.token))
  | ofFunction {name : String} {params : List Parameter} {body : Option Node} {native : Bool}
      (kind : statement.kind = .functionDecl name params body false native)
      (code : checkFunctionBody body = .ok ()) :
      IsOf statement (.ofFunction
        { name, params, body, owner := none, home := none, token := statement.token })
  | nothing (kind : statement.kind.isDeclaration = false)
      (placed : statement.checkPlacement false = .ok ()) : IsOf statement .nothing

theorem Item.isOf_of_ofStatement? {statement : Node} {item : Item}
    (h : Item.ofStatement? statement = some item) : item.IsOf statement := by
  unfold Item.ofStatement? at h
  dsimp only at h
  split at h
  case h_1 name parentName body hk =>
    obtain ⟨collected, hc, rfl⟩ := Option.map_eq_some_iff.mp h
    exact .ofClass hk (eq_ok_of_toOption hc)
  case h_2 name body hk =>
    obtain ⟨collected, hc, rfl⟩ := Option.map_eq_some_iff.mp h
    exact .ofBehaviour hk (eq_ok_of_toOption hc)
  case h_3 name params body shared native hk =>
    split at h
    · cases h
    · next hs =>
      obtain ⟨_, hcd, rfl⟩ := Option.map_eq_some_iff.mp h
      obtain rfl : shared = false := by simpa using hs
      exact .ofFunction hk (eq_ok_of_toOption hcd)
  case h_9 =>
    obtain ⟨_, hch, rfl⟩ := Option.map_eq_some_iff.mp h
    have hp : statement.checkPlacement false = .ok () := eq_ok_of_toOption hch
    refine .nothing (Bool.eq_false_iff.mpr fun hk => ?_) hp
    exact checkPlacement_declaration hk false hp
  all_goals cases h

/-- The declaration at a statement of a file and, if it is a class or a behaviour, the statements
of its body. -/
def Node.ownDeclarations (node : Node) : List Node :=
  if node.kind.isDeclaration then
    node :: (node.kind.ownerBody?.map Node.statements).getD []
  else []

theorem DeclareMembers.isDeclaration {statements : List Node} {members : List Member}
    (h : DeclareMembers owner kind statements members) :
    ∀ statement ∈ statements,
      statement.kind.isDeclaration = true ∧ statement.kind.ownerBody? = none := by
  obtain ⟨he, -⟩ := h
  induction he with
  | nil => simp
  | cons hm _ ih => exact List.forall_mem_cons.mpr ⟨Node.isDeclaration_of_member hm, ih⟩

/-- A tidy body of which members are collected holds no declarations but its statements. -/
theorem Node.Tidy.declarations_owner {node body : Node} (h : node.Tidy)
    (hk : node.kind.isDeclaration = true) (hb : node.kind.ownerBody? = some body)
    {collected : Collected} (hcl : Collected.ofBody owner kind body = .ok collected) :
    node.allDeclarations = node :: body.statements := by
  obtain ⟨hc, members, hm, -⟩ := Collected.ofBody_holds hcl
  obtain ⟨hn, hnn⟩ := h.owner body hb
  have hsn : ∀ statement ∈ body.statements, statement.allDeclarations = [statement] := by
    intro statement hs
    obtain ⟨hd, ho⟩ := hm.isDeclaration statement hs
    rw [Node.allDeclarations_of_declaration hd, hnn statement hs hd ho (hc statement hs)]
  have hi : node.kind.innerDeclarations = body.allDeclarations := by
    cases hown : node.kind <;> rw [hown] at hb <;> cases hb <;> rfl
  rw [Node.allDeclarations_of_declaration hk, hi, hn, nodesDeclarations_eq,
    List.flatMap_congr hsn, List.flatMap_singleton']

/-- A tidy statement that may stand in a file has its declarations on top and in the body of a
class or a behaviour. -/
theorem Node.Tidy.declarations_eq {node : Node} (h : node.Tidy) {item : Item}
    (hi : item.IsOf node) : node.allDeclarations = node.ownDeclarations := by
  unfold Node.ownDeclarations
  cases hi with
  | ofClass hk hc =>
    have hd : node.kind.isDeclaration = true := by rw [hk]; rfl
    have hb : node.kind.ownerBody? = some _ := congrArg NodeKind.ownerBody? hk
    rw [if_pos hd, hb, h.declarations_owner hd hb hc]
    rfl
  | ofBehaviour hk hc =>
    have hd : node.kind.isDeclaration = true := by rw [hk]; rfl
    have hb : node.kind.ownerBody? = some _ := congrArg NodeKind.ownerBody? hk
    rw [if_pos hd, hb, h.declarations_owner hd hb hc]
    rfl
  | ofFunction hk hcd =>
    have hd : node.kind.isDeclaration = true := by rw [hk]; rfl
    have hb : node.kind.ownerBody? = none := congrArg NodeKind.ownerBody? hk
    have hch : node.kind.checkCode = .ok () := by rw [hk]; exact hcd
    rw [if_pos hd, hb, Node.allDeclarations_of_declaration hd, h.member hd hb hch]
    rfl
  | nothing hk hp => rw [h.placed false hp, if_neg (by simp [hk])]

end StepScript
