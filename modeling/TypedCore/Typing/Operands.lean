import TypedCore.Typing.Convert

/-!
# Operands of binary operators

What the rules for all kinds of operands share: the outcome of a rule, the refusal of an operator,
assignment and the logical operators.
-/

namespace TypedCore.Typing

open Session

/-- The operands after conversion, and the type of the result. -/
structure Operands where
  left : Expr
  right : Expr
  ty : TypeId

/-- Refuse an operator for the types of its operands. -/
def invalidOperands {α : Type} (op : BinaryOp) (left right : Expr) (span : Span) : RuleM α := do
  let t ← currentTypes
  throw ⟨.invalidOperands op.text (t.name left.ty) (t.name right.ty), span⟩

/-- Whether one type converts to another. -/
def converts (src dst : TypeId) : RuleM Bool :=
  return (← onTypes (.implicitConvert src dst)).isSome

/-- An assignment of `right`, converted to the type of `left`. -/
def assigned (op : BinaryOp) (left right : Expr) (span : Span) : RuleM Operands := do
  let t ← currentTypes
  let convertible ←
    if t.isFunction right.ty && t.isPointer left.ty then pure true
    else converts right.ty left.ty
  if convertible then
    return ⟨left, ← implicitCast right left.ty, left.ty⟩
  else
    invalidOperands op left right span

/-- Both operands of a logical operator become bool. -/
def logical (op : BinaryOp) (left right : Expr) (span : Span) : RuleM Operands := do
  let bool ← onTypes .bool
  let convertible ← if ← converts left.ty bool then converts right.ty bool else pure false
  if convertible then
    let left ← implicitCast left bool
    let right ← implicitCast right bool
    return ⟨left, right, bool⟩
  else
    invalidOperands op left right span

end TypedCore.Typing
