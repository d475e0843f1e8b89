import TypedCore.Typing.Pointer

/-!
# Struct and array operands

Structs are only assigned. Arrays are assigned as a whole between identical types and indexed in
place; for every other operator they decay to pointers.
-/

namespace TypedCore.Typing

open Session

def structRules (op : BinaryOp) (left right : Expr) (span : Span) : RuleM Operands :=
  if op = .assign then assigned op left right span else invalidOperands op left right span

/-- Equal dimensions and equal elements, apart from const. -/
def sameArrayType (a b : TypeId) : RuleM Bool := do
  let t ← currentTypes
  match t.target? a, t.target? b with
  | some x, some y => if t.dim? a = t.dim? b then onTypes (.equalsUnqualified x y) else return false
  | _, _ => return false

/-- An element of an array that stays where it is. -/
def element (left right : Expr) (span : Span) : RuleM Operands := do
  if !(← currentTypes).isIntegral right.ty then
    throw ⟨.integerExpected, right.span⟩
  let element ← sizedTarget left.ty span
  return ⟨left, ← offset right, element⟩

/-- Both operands decay, after which one at least is a pointer. -/
def decayed (op : BinaryOp) (left right : Expr) (span : Span) : RuleM Operands := do
  let left ← decay left
  let right ← decay right
  pointerRules op left right span

/-- An array assigned to a pointer decays, to another array it is copied. -/
def arrayAssigned (left right : Expr) (span : Span) : RuleM Operands := do
  let t ← currentTypes
  if t.isPointer left.ty && t.isArray right.ty then
    pointerRules .assign left (← decay right) span
  else if t.isArray left.ty && t.isArray right.ty then
    if ← sameArrayType left.ty right.ty then assigned .assign left right span
    else invalidOperands .assign left right span
  else
    invalidOperands .assign left right span

def arrayRules (op : BinaryOp) (left right : Expr) (span : Span) : RuleM Operands := do
  if op = .index && (← currentTypes).isArray left.ty then
    element left right span
  else if op = .assign then
    arrayAssigned left right span
  else if op.isAssignment then
    invalidOperands op left right span
  else
    decayed op left right span

end TypedCore.Typing
