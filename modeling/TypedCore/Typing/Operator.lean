import TypedCore.Typing.Aggregate
import TypedCore.Typing.Arithmetic

/-!
# Operator rules

The rule for a binary operator goes by its operands: structs first, then arrays, functions, pointers
and numbers. A unary operator has a rule of its own.
-/

namespace TypedCore.Typing

open Session

/-! ### Two operands -/

def dispatch (op : BinaryOp) (left right : Expr) (span : Span) : RuleM Operands := do
  let t ← currentTypes
  if t.isStruct left.ty || t.isStruct right.ty then
    structRules op left right span
  else if t.isArray left.ty || t.isArray right.ty then
    arrayRules op left right span
  else if t.isFunction left.ty || t.isFunction right.ty then
    decayed op left right span
  else if t.isPointer left.ty || t.isPointer right.ty then
    pointerRules op left right span
  else if t.isArithmetic left.ty && t.isArithmetic right.ty then
    arithmeticRules op left right span
  else
    invalidOperands op left right span

/-- What is assigned to must be an object that may change. -/
def checkAssignable (left : Expr) : RuleM Unit := do
  let t ← currentTypes
  if t.isReadOnly left.ty then
    throw ⟨.readOnlyAssignment (left.text t), left.span⟩
  if !left.isLvalue then
    throw ⟨.notAnLvalue (left.text t), left.span⟩

/-- Whether an operation is a division of integers that would be computed here, by zero. With an
operand that is not known, the fault is left to the running program. -/
def isZeroDivision (t : TypeTable) (op : BinaryOp) (r : Operands) : Bool :=
  (op == .div || op == .mod) && t.isInteger r.right.ty && r.left.isConstant t &&
    match r.right.constant? t with
    | some (.integer v) => v == 0
    | _ => false

def binary (op : BinaryOp) (left right : Expr) (span : Span) : RuleM Operands := do
  if op.isAssignment then
    checkAssignable left
  let result ← dispatch op left right span
  if isZeroDivision (← currentTypes) op result then
    throw ⟨.divisionByZero, result.right.span⟩
  return result

/-! ### One operand -/

def invalidOperand {α : Type} (op : UnaryOp) (child : Expr) (span : Span) : RuleM α := do
  throw ⟨.invalidOperand op.text ((← currentTypes).name child.ty), span⟩

/-- The operand after conversion, and the type of the result. -/
structure Operand where
  child : Expr
  ty : TypeId

def addressOf (child : Expr) : RuleM Operand := do
  if child.hasAddress then
    return ⟨child, ← onTypes (.pointer child.ty)⟩
  else
    throw ⟨.notAddressable (child.text (← currentTypes)), child.span⟩

def dereference (child : Expr) (span : Span) : RuleM Operand := do
  let child ← if (← currentTypes).isArray child.ty then decay child else pure child
  let t ← currentTypes
  if !t.isPointer child.ty then
    invalidOperand .dereference child span
  else if child.isNullPointer t then
    throw ⟨.nullDereference, child.span⟩
  else
    match t.target? child.ty with
    | none => throw ⟨.nullDereference, child.span⟩
    | some target =>
      if t.isVoid target then throw ⟨.incompleteType (t.name target), span⟩
      else return ⟨child, target⟩

/-- Increment and decrement, before or after. -/
def step (op : UnaryOp) (child : Expr) (span : Span) : RuleM Operand := do
  let t ← currentTypes
  if t.isReadOnly child.ty then
    let text := child.text t
    throw ⟨if op.isIncrement then .readOnlyIncrement text else .readOnlyDecrement text, child.span⟩
  if !child.isLvalue then
    throw ⟨.notAnLvalue (child.text t), child.span⟩
  if t.isPointer child.ty then
    let _ ← sizedTarget child.ty span
    return ⟨child, child.ty⟩
  else if t.isInteger child.ty then
    return ⟨child, child.ty⟩
  else
    invalidOperand op child span

/-- Negation of a number keeps its type; a pointer is negated to a bool. -/
def logicalNot (child : Expr) (span : Span) : RuleM Operand := do
  let t ← currentTypes
  if t.isIntegral child.ty then
    return ⟨child, child.ty⟩
  else if t.isPointer child.ty then
    return ⟨child, ← onTypes .bool⟩
  else
    invalidOperand .logicalNot child span

def minus (child : Expr) (span : Span) : RuleM Operand := do
  let t ← currentTypes
  if t.isInteger child.ty || t.isFloat child.ty then
    return ⟨child, ← onTypes (.constRemoved child.ty)⟩
  else
    invalidOperand .minus child span

/-- Conversions are not operators: they have constructors of their own. -/
def unary (op : UnaryOp) (child : Expr) (span : Span) : RuleM Operand :=
  match op with
  | .addressOf => addressOf child
  | .dereference => dereference child span
  | .preIncrement | .postIncrement | .preDecrement | .postDecrement => step op child span
  | .logicalNot => logicalNot child span
  | .minus => minus child span
  | .cast | .explicitCast => invalidOperand op child span

end TypedCore.Typing
