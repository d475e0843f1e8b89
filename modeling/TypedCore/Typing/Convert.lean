import TypedCore.Expr.Constant
import TypedCore.Expr.Text
import TypedCore.Session.Basic
import TypedCore.Types.Conversion

/-!
# Conversion of expressions

Rules insert a cast node wherever the type of an operand has to change. A conversion that loses a
const flag, or that may lose part of the value, is reported as a warning.
-/

namespace TypedCore.Typing

open Session

/-- Arrays become pointers to their first element and functions pointers to themselves; all other
expressions stay as they are. -/
def decay (e : Expr) : RuleM Expr := do
  match (← currentTypes).shape e.ty with
  | .array element _ => return .unary .cast e ⟨← onTypes (.pointer element), e.span⟩
  | .function .. => return .unary .cast e ⟨← onTypes (.pointer e.ty), e.span⟩
  | _ => return e

/-- Whether the second shape has no room for every value of the first. -/
def isNarrower : Shape → Shape → Bool
  | .integer bits _, .integer bits' _ => bits' < bits
  | .float _, .integer .. => true
  | .float .f64, .float .f32 => true
  | _, _ => false

/-- Whether a constant comes out of a conversion to the shape unchanged. -/
def survives : Constant → Shape → Bool
  | .integer v, .integer bits signed => wrap v bits signed == v
  | .float v, .float .f32 => FloatWidth.f32.round v == v
  | _, _ => false

/-- Whether the conversion of `e` to `ty` may change its value. -/
def isNarrowing (t : TypeTable) (e : Expr) (ty : TypeId) : Bool :=
  isNarrower (t.shape e.ty) (t.shape ty) &&
    match e.constant? t with
    | some c => !survives c (t.shape ty)
    | none => true

/-- `e` where a value of type `ty` is wanted. -/
def implicitCast (e : Expr) (ty : TypeId) : RuleM Expr := do
  let t ← currentTypes
  if t.equals e.ty ty then
    return e
  let e ← if t.isFunction e.ty && t.isPointer ty then decay e else pure e
  let conversion ← onTypes (.implicitConvert e.ty ty)
  let t ← currentTypes
  let change := s!"conversion from '{t.name e.ty}' to '{t.name ty}'"
  match conversion with
  | none => throw ⟨.invalidConversion (t.name e.ty) (t.name ty), e.span⟩
  | some conversion =>
    if conversion.discardsConst then
      warn (change ++ " discards const qualifier") e.span
    if (← get).options.warnNarrowing && isNarrowing t e conversion.target then
      warn (change ++ " may change value") e.span
    return .unary .cast e ⟨conversion.target, e.span⟩

/-- `e` cast to `ty` by the program. -/
def explicitCast (e : Expr) (ty : TypeId) (span : Span) : RuleM Expr := do
  let t ← currentTypes
  let e ← if t.isArray e.ty || t.isFunction e.ty then decay e else pure e
  let conversion ← onTypes (.explicitCast e.ty ty)
  let t ← currentTypes
  match conversion with
  | none => throw ⟨.invalidCast (t.name e.ty) (t.name ty), span⟩
  | some conversion =>
    if conversion.discardsConst then
      warn s!"cast from '{t.name e.ty}' to '{t.name ty}' discards const qualifier" span
    return .unary .explicitCast e ⟨conversion.target, span⟩

/-- What a pointer or array refers to, which must have a size. -/
def sizedTarget (pointer : TypeId) (span : Span) : RuleM TypeId := do
  let t ← currentTypes
  match t.target? pointer with
  | none => throw ⟨.nullDereference, span⟩
  | some target =>
    if t.hasSize target then return target
    else throw ⟨.incompleteType (t.name target), span⟩

/-- Element offsets are computed in the size type. -/
def offset (index : Expr) : RuleM Expr := do
  implicitCast index (← onTypes .size)

end TypedCore.Typing
