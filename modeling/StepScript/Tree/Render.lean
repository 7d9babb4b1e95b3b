import StepScript.Tree.Basic
set_option autoImplicit false

/-!
# Rendering of trees

A compact rendering of a tree as nested lists.  The body of a function is left out.
-/

namespace StepScript

def renderNames (params : List Parameter) : String :=
  " ".intercalate (params.map (·.name))

mutual

def Node.render : Node → String
  | ⟨kind, _⟩ => kind.render

def NodeKind.render : NodeKind → String
  | .literal value => value.quoted
  | .typeName name => name
  | .unary op operand => s!"({op.text} {operand.render})"
  | .binary op lhs rhs => s!"({op.text} {lhs.render} {rhs.render})"
  | .member target member => s!"(. {target.render} {member.render})"
  | .call name args => s!"(call {name} [{renderNodes args}])"
  | .create name args => s!"(new {name} [{renderNodes args}])"
  | .block statements => s!"\x7b{renderNodes statements}\x7d"
  | .assign target value => s!"(= {target.render} {value.render})"
  | .branch condition thenBranch none => s!"(if {condition.render} {thenBranch.render})"
  | .branch condition thenBranch (some elseBranch) =>
    s!"(if {condition.render} {thenBranch.render} {elseBranch.render})"
  | .whileLoop condition body => s!"(while {condition.render} {body.render})"
  | .repeatLoop body condition => s!"(repeat {body.render} {condition.render})"
  | .forLoop var first last none body =>
    s!"(for {var} {first.render} {last.render} 1 {body.render})"
  | .forLoop var first last (some step) body =>
    s!"(for {var} {first.render} {last.render} {step.render} {body.render})"
  | .giveBack (some value) => s!"(return {value.render})"
  | .giveBack none => "(return)"
  | .breakLoop => "(break)"
  | .continueLoop => "(continue)"
  | .waitForUpdate => "(wait)"
  | .classDecl name (some parent) body => s!"(class {name} {parent} {body.render})"
  | .classDecl name none body => s!"(class {name} {body.render})"
  | .behaviourDecl name body => s!"(behaviour {name} {body.render})"
  | .functionDecl name params _ _ native =>
    let word := if native then "native" else "function"
    s!"({word} {name} [{renderNames params}])"
  | .constructorDecl params _ _ => s!"(constructor [{renderNames params}])"
  | .propertyDecl name (some initial) _ => s!"(property {name} {initial.render})"
  | .propertyDecl name none _ => s!"(property {name})"
  | .hasBehaviour name => s!"(has {name})"
  | .contract contract name => s!"({contract.text} {name})"
  | .updateOrder order => s!"(update-order {order.text})"
  | .file name body => s!"(file {name} {renderNodes body})"

def renderNodes : List Node → String
  | [] => ""
  | [node] => node.render
  | node :: rest => node.render ++ " " ++ renderNodes rest

end

end StepScript
