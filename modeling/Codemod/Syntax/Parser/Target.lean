import Codemod.Syntax.Node

/-!
# Codemod.Syntax.Parser.Target

What may stand on the left of an assignment.

An object or array literal before `=` is a pattern after all. `Node.asTarget` takes it for one, so
that it no longer counts as a literal, and drops parentheses around a target. `Node.targetFault?`
finds the first part of an expression that nothing can be assigned to.
-/

namespace Codemod

namespace Node

/-- Whether the node is an expression in parentheses. -/
def isParenthesized : Node → Bool
  | .wrapped span inner [] => decide (span.start < inner.span.start)
  | _ => false

mutual

/-- An expression taken for the target of an assignment. -/
def asTarget : Node → Node
  | .object span properties => .other span (asTargets properties)
  | .array span elements => .other span (asTargets elements)
  | .property span name key value => .property span name key value.asTarget
  | .spread span argument => .spread span argument.asTarget
  | .wrapped span inner typeMark =>
    if isParenthesized (.wrapped span inner typeMark) then inner.asTarget
    else .wrapped span inner typeMark
  | n => n

def asTargets : List Node → List Node
  | [] => []
  | n :: ns => n.asTarget :: asTargets ns

end

/-- Whether the node is an object or array literal. -/
def isLiteral : Node → Bool
  | .object .. | .array .. => true
  | _ => false

/-- Where an expression is nothing that a value can be assigned to without taking it apart. -/
def simpleFault? : Node → Option Nat
  | .reference .. | .member .. | .index .. => none
  | .wrapped span inner typeMark =>
    if isParenthesized (.wrapped span inner typeMark) && !inner.isLiteral then inner.simpleFault?
    else (inner.simpleFault?).map fun _ => span.start
  | n => some n.span.start

mutual

/-- Where an expression is nothing that can stand on the left of `=`. -/
def targetFault? : Node → Option Nat
  | .object _ properties => targetsFault? properties
  | .array _ elements => targetsFault? elements
  | .property _ _ _ value => value.targetFault?
  | .spread _ argument => argument.targetFault?
  | .hole _ | .assign .. => none
  | n => n.simpleFault?

/-- The first fault among the parts of a pattern, in which a spread part comes last. -/
def targetsFault? : List Node → Option Nat
  | [] => none
  | [n] => n.targetFault?
  | .spread span _ :: _ => some span.start
  | n :: ns => n.targetFault? <|> targetsFault? ns

end

end Node

end Codemod
