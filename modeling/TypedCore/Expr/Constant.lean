import TypedCore.Expr.Basic
import TypedCore.Types.Query

/-!
# Constants

The value of an expression that can be computed without running it. Integers are kept in 64 bits,
sign- or zero-extended as their type says; unsigned numbers of 64 bits are kept as their bit
pattern.
-/

namespace TypedCore

inductive Constant where
  | integer (value : Int64)
  | float (value : Float)
  | null
  | aggregate (items : List Constant)
deriving Inhabited

namespace Constant

/-- Truth as a condition. -/
def isTrue : Constant → Bool
  | integer value => value != 0
  | float value => value != 0.0
  | null => false
  | aggregate _ => true

def ofBool (b : Bool) : Constant := integer (if b then 1 else 0)

end Constant

/-- How many numbers there are of a width. -/
def modulus (bits : Nat) : Nat := Nat.pow 2 bits

/-- Cut a number to `bits` bits and extend it back to 64. -/
def wrap (value : Int64) (bits : Nat) (signed : Bool) : Int64 :=
  if 64 ≤ bits then value
  else if signed then Int64.ofInt (value.toInt.bmod (modulus bits))
  else Int64.ofInt (value.toInt % modulus bits)

/-- The number of the given width that is nearest to `value`. -/
def FloatWidth.round (width : FloatWidth) (value : Float) : Float :=
  match width with
  | .f32 => value.toFloat32.toFloat
  | .f64 => value

namespace TypeTable

variable (t : TypeTable)

/-- A number as a constant of an integral type. -/
def integerConstant? (ty : TypeId) (value : Int64) : Option Constant :=
  match t.shape ty with
  | .integer bits signed => some (.integer (wrap value bits signed))
  | .bool => some (.ofBool (value != 0))
  | _ => none

def floatConstant? (ty : TypeId) (value : Float) : Option Constant :=
  match t.shape ty with
  | .float width => some (.float (width.round value))
  | _ => none

def literalConstant? (ty : TypeId) : Literal → Option Constant
  | .integer value => t.integerConstant? ty value
  | .float value => t.floatConstant? ty value
  | .bool value => some (.ofBool value)
  | .nullptr => some .null
  | .string _ => none

/-- A constant of type `src` converted to `dst`. A float out of the range of 64 bits becomes the
nearest number in it. -/
def convertConstant? (src dst : TypeId) (value : Constant) : Option Constant :=
  match value, t.shape dst with
  | .aggregate _, .bool => none
  | value, .bool => some (.ofBool value.isTrue)
  | .integer v, .integer bits signed => some (.integer (wrap v bits signed))
  | .float v, .integer bits signed =>
    let whole := if signed then v.toInt64 else v.toUInt64.toInt64
    some (.integer (wrap whole bits signed))
  | .integer v, .float width =>
    some (.float (width.round (if t.isUnsigned src then v.toUInt64.toFloat else v.toFloat)))
  | .float v, .float width => some (.float (width.round v))
  | .null, .pointer _ => some .null
  | .aggregate items, .array .. => some (.aggregate items)
  | .aggregate items, .struct _ => some (.aggregate items)
  | _, _ => none

def negateConstant? (ty : TypeId) : Constant → Option Constant
  | .integer v => t.integerConstant? ty (-v)
  | .float v => some (.float (-v))
  | _ => none

end TypeTable

/-- Order of two numbers; a NaN has none. -/
def compareFloat? (a b : Float) : Option Ordering :=
  if a < b then some .lt
  else if a > b then some .gt
  else if a == b then some .eq
  else none

namespace TypeTable

variable (t : TypeTable)

/-- Order of two constants of type `ty`. Null pointers are equal, and unsigned numbers are compared
as such. -/
def compareConstants? (ty : TypeId) : Constant → Constant → Option Ordering
  | .null, .null => some .eq
  | .float a, .float b => compareFloat? a b
  | .integer a, .integer b =>
    some (if t.isUnsigned ty then compare a.toUInt64 b.toUInt64 else compare a.toInt b.toInt)
  | _, _ => none

/-- Outcome of a comparison of two constants of type `ty`. Pointers have no order. -/
def comparison? (op : BinaryOp) (ty : TypeId) (a b : Constant) : Option Constant := do
  let order ← t.compareConstants? ty a b
  let pointers := t.isPointer ty
  let ordered (b : Bool) : Option Constant := if pointers then none else some (.ofBool b)
  match op with
  | .equal => some (.ofBool order.isEq)
  | .notEqual => some (.ofBool order.isNe)
  | .less => ordered order.isLT
  | .greater => ordered order.isGT
  | .lessEqual => ordered order.isLE
  | _ => ordered order.isGE

/-- Arithmetic in 64 bits with wrap-around. Division goes toward zero, and by zero has no result. -/
def integerArithmetic? (unsigned : Bool) (a b : Int64) : BinaryOp → Option Int64
  | .add => some (a + b)
  | .sub => some (a - b)
  | .mul => some (a * b)
  | .div =>
    if b == 0 then none
    else if unsigned then some (a.toUInt64 / b.toUInt64).toInt64
    else some (a / b)
  | .mod =>
    if b == 0 then none
    else if unsigned then some (a.toUInt64 % b.toUInt64).toInt64
    else some (a % b)
  | _ => none

def floatArithmetic? (a b : Float) : BinaryOp → Option Float
  | .add => some (a + b)
  | .sub => some (a - b)
  | .mul => some (a * b)
  | .div => some (a / b)
  | _ => none

/-- Arithmetic on two constants with a result of type `ty`. -/
def arithmetic? (op : BinaryOp) (ty : TypeId) : Constant → Constant → Option Constant
  | .integer a, .integer b => do t.integerConstant? ty (← integerArithmetic? (t.isUnsigned ty) a b op)
  | .float a, .float b => do t.floatConstant? ty (← floatArithmetic? a b op)
  | _, _ => none

/-- An operation on two constants; `operand` is the type of the left one, `ty` that of the
result. -/
def binaryConstant? (op : BinaryOp) (operand ty : TypeId) (a b : Constant) : Option Constant :=
  match op with
  | .logicalAnd => some (.ofBool (a.isTrue && b.isTrue))
  | .logicalOr => some (.ofBool (a.isTrue || b.isTrue))
  | op => if op.isComparison then t.comparison? op operand a b else t.arithmetic? op ty a b

/-- An operation on one constant; `operand` is its type, `ty` that of the result. -/
def unaryConstant? (op : UnaryOp) (operand ty : TypeId) (a : Constant) : Option Constant :=
  match op with
  | .cast | .explicitCast => t.convertConstant? operand ty a
  | .minus => t.negateConstant? ty a
  | .logicalNot => some (.ofBool !a.isTrue)
  | _ => none

end TypeTable

namespace Expr

mutual

/-- The value of an expression, if it is known without running it. -/
def constant? (t : TypeTable) : Expr → Option Constant
  | literal value note => t.literalConstant? note.ty value
  | identifier _ _ _ (some value) _ => value.constant? t
  | identifier _ _ _ none _ => none
  | proxy target _ => target.constant? t
  | unary op child note => do t.unaryConstant? op child.ty note.ty (← child.constant? t)
  | binary op left right note =>
    if op.isAssignment || op == .index then
      none
    else do
      let a ← left.constant? t
      let b ← right.constant? t
      t.binaryConstant? op left.ty note.ty a b
  | conditional cond thenExpr elseExpr _ => do
    if (← cond.constant? t).isTrue then thenExpr.constant? t else elseExpr.constant? t
  | call .. => none
  | member .. => none
  | aggregate elements _ => (constants? t elements).map .aggregate

def constants? (t : TypeTable) : List Expr → Option (List Constant)
  | [] => some []
  | e :: rest => do
    let c ← e.constant? t
    let cs ← constants? t rest
    some (c :: cs)

end

def isConstant (t : TypeTable) (e : Expr) : Bool := (e.constant? t).isSome

/-- Whether an expression is known to be a null pointer. -/
def isNullPointer (t : TypeTable) (e : Expr) : Bool :=
  t.isNullptr e.ty ||
    match e.constant? t with
    | some .null => true
    | _ => false

end Expr

end TypedCore
