import TypedCore.Typing.Operands

/-!
# Arithmetic operands

Operators on bools, integers and floats. Both operands of an arithmetic operator or comparison
become their common type; the outcome of a comparison is a bool.
-/

namespace TypedCore.Typing

open Session

/-- The common type of two arithmetic operands, without const. -/
def commonType (op : BinaryOp) (left right : Expr) (span : Span) : RuleM TypeId := do
  let plainLeft ← onTypes (.constRemoved left.ty)
  let plainRight ← onTypes (.constRemoved right.ty)
  match ← onTypes (.common plainLeft plainRight) with
  | some ty => return ty
  | none => invalidOperands op left right span

def arithmetic (op : BinaryOp) (left right : Expr) (span : Span) : RuleM Operands := do
  let common ← commonType op left right span
  -- bools are added as numbers
  let ty ← if (← currentTypes).isBool common then onTypes (.signed 32) else pure common
  let left ← implicitCast left ty
  let right ← implicitCast right ty
  return ⟨left, right, ty⟩

def comparison (op : BinaryOp) (left right : Expr) (span : Span) : RuleM Operands := do
  let common ← commonType op left right span
  let left ← implicitCast left common
  let right ← implicitCast right common
  return ⟨left, right, ← onTypes .bool⟩

def arithmeticRules (op : BinaryOp) (left right : Expr) (span : Span) : RuleM Operands := do
  let t ← currentTypes
  let eitherFloat := t.isFloat left.ty || t.isFloat right.ty
  match op with
  | .assign | .addAssign | .subAssign | .mulAssign | .divAssign => assigned op left right span
  | .modAssign =>
    if eitherFloat then invalidOperands op left right span else assigned op left right span
  | .add | .sub | .mul | .div => arithmetic op left right span
  | .mod =>
    if eitherFloat then invalidOperands op left right span else arithmetic op left right span
  | .equal | .notEqual | .less | .greater | .lessEqual | .greaterEqual =>
    comparison op left right span
  | .logicalAnd | .logicalOr => logical op left right span
  | .index => invalidOperands op left right span

end TypedCore.Typing
