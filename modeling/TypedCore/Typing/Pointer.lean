import TypedCore.Typing.Operands

/-!
# Pointer operands

Operators where an operand is a pointer: offsets and differences count elements, so what is pointed
to must have a size.
-/

namespace TypedCore.Typing

open Session

/-- A pointer moved by a number of elements. -/
def moved (left right : Expr) (ty : RuleM TypeId) (span : Span) : RuleM Operands := do
  let _ ← sizedTarget left.ty span
  let right ← offset right
  return ⟨left, right, ← ty⟩

/-- The number of elements between two pointers. -/
def difference (left right : Expr) (span : Span) : RuleM Operands := do
  let t ← currentTypes
  let compatible ← match t.target? left.ty, t.target? right.ty with
    | some a, some b => onTypes (.equalsUnqualified a b)
    | _, _ => pure false
  if compatible then
    let _ ← sizedTarget left.ty span
    return ⟨left, right, ← onTypes (.signed 64)⟩
  else
    invalidOperands .sub left right span

/-- An element counted from a pointer. -/
def indexed (left right : Expr) (span : Span) : RuleM Operands := do
  let t ← currentTypes
  if !t.isIntegral right.ty then
    throw ⟨.integerExpected, right.span⟩
  if left.isNullPointer t then
    throw ⟨.nullDereference, left.span⟩
  let element ← sizedTarget left.ty span
  return ⟨left, ← offset right, element⟩

def pointerRules (op : BinaryOp) (left right : Expr) (span : Span) : RuleM Operands := do
  let t ← currentTypes
  -- the pointer is the base of an addition, on whichever side it stands
  let (left, right) :=
    if op == .add && !t.isPointer left.ty then (right, left) else (left, right)
  let bothPointers := t.isPointer left.ty && t.isPointer right.ty
  let pointerAndInteger := t.isPointer left.ty && t.isInteger right.ty
  match op with
  | .assign => assigned op left right span
  | .addAssign | .subAssign =>
    if pointerAndInteger then moved left right (pure left.ty) span
    else invalidOperands op left right span
  | .add =>
    if pointerAndInteger then moved left right (onTypes (.constRemoved left.ty)) span
    else invalidOperands op left right span
  | .sub =>
    if pointerAndInteger then moved left right (onTypes (.constRemoved left.ty)) span
    else if bothPointers then difference left right span
    else invalidOperands op left right span
  | .equal | .notEqual | .less | .greater | .lessEqual | .greaterEqual =>
    if bothPointers then return ⟨left, right, ← onTypes .bool⟩
    else invalidOperands op left right span
  | .logicalAnd | .logicalOr => logical op left right span
  | .index =>
    if t.isPointer left.ty then indexed left right span
    else throw ⟨.integerExpected, right.span⟩
  | .mul | .div | .mod | .mulAssign | .divAssign | .modAssign =>
    invalidOperands op left right span

end TypedCore.Typing
