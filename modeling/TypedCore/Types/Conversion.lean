import TypedCore.Types.Update

/-!
# Conversions

When a value of one type may stand where another type is wanted, and the common type of two
operands. Deciding this enters the types without their const flags into the table.
-/

namespace TypedCore

/-- A permitted conversion. -/
structure Conversion where
  /-- The type of the result: the wanted one, with the bound of the source if it is an array
  without bound. -/
  target : TypeId
  /-- Something const is reached through something that is not. -/
  discardsConst : Bool
deriving DecidableEq

namespace TypeM

open TypeTable

/-- The conversion `outer` of pointers to `f` and `g`, given that of `f` to `g`: the two must be
equal apart from their own const flags. -/
def throughPointer (outer : Conversion) (f g : TypeId) :
    Option Conversion → TypeM (Option Conversion)
  | none => return none
  | some inner => do
    if ← equalsUnqualified f g then
      return some { outer with discardsConst := outer.discardsConst || inner.discardsConst }
    else
      return none

/-- Conversion from `src` to `dst`. With `nested` set the two are what pointers point to, and a
const source must not lose its flag unnoticed. -/
def convert (nested : Bool) (src dst : TypeId) : TypeM (Option Conversion) := do
  let t ← get
  let discards := nested && t.isConst src && !t.isConst dst
  let plainSrc ← constRemoved (t.unalias src)
  let plainDst ← constRemoved (t.unalias dst)
  if (← get).equals plainSrc plainDst then
    return some ⟨dst, discards⟩
  let permittedIf (b : Bool) : Option Conversion := if b then some ⟨dst, discards⟩ else none
  match _h : t.shape src, t.shape dst with
  | _, .bool => return permittedIf (t.isIntegral src || t.isPointer src)
  | _, .integer .. => return permittedIf (t.isArithmetic src)
  | _, .float _ => return permittedIf (t.isArithmetic src)
  | .pointer none, .pointer (some _) => return some ⟨dst, discards⟩
  | .pointer (some f), .pointer (some g) =>
    if t.isVoid f || t.isVoid g then
      return some ⟨dst, discards || (t.isConst f && !t.isConst g)⟩
    else
      throughPointer ⟨dst, discards⟩ f g (← convert true f g)
  | .array f _, .pointer (some g) => throughPointer ⟨dst, discards⟩ f g (← convert true f g)
  | .array f m, .array g n =>
    if n ≠ m && n ≠ 0 then
      return none
    else
      match ← convert nested f g with
      | none => return none
      | some inner =>
        let target ← if n = 0 then bindArray dst m else pure dst
        return some ⟨target, discards || inner.discardsConst⟩
  | _, _ => return none
termination_by src.index
decreasing_by
  all_goals
    apply t.shape_part_lt
    simp_all [Shape.parts]

/-- The conversion that is made where a value of type `dst` is wanted. -/
def implicitConvert (src dst : TypeId) : TypeM (Option Conversion) := convert false src dst

/-- The conversion that a program asks for: also between any two pointers. -/
def explicitCast (src dst : TypeId) : TypeM (Option Conversion) := do
  let plainSrc ← constRemoved src
  let plainDst ← constRemoved dst
  match ← convert false plainSrc plainDst with
  | some conversion =>
    return some { conversion with
      target := if (← get).isUnboundArray dst then conversion.target else dst }
  | none =>
    let t ← get
    if t.isPointer src && t.isPointer dst && !t.isNullptr dst then
      let discards := match t.target? src, t.target? dst with
        | some f, some g => t.isConst f && !t.isConst g
        | _, _ => false
      return some ⟨dst, discards⟩
    else
      return none

/-- The type of a value that is one of two operands, or computed from both. -/
def common (a b : TypeId) : TypeM (Option TypeId) := do
  let t ← get
  let (a, b) := if t.isIntegral a && t.isFloat b then (b, a) else (a, b)
  let plainA ← constRemoved a
  let plainB ← constRemoved b
  let t ← get
  if t.equals plainA plainB then
    return some plainA
  else if t.isArray a && t.isArray b then
    match t.target? a, t.target? b with
    | some x, some y => if t.equals x y then some <$> pointer x else return none
    | _, _ => return none
  else if t.isFloat a && t.isIntegral b then
    return some plainA
  else if t.isFloat a && t.isFloat b then
    return some (if (t.bits? a).getD 0 ≥ (t.bits? b).getD 0 then plainA else plainB)
  else if t.isIntegral a && t.isIntegral b then
    if t.isBool a && t.isBool b then
      some <$> bool
    else
      let bits := max ((t.bits? a).getD 1) ((t.bits? b).getD 1)
      some <$> integer bits !(t.isUnsigned a || t.isUnsigned b)
  else if t.isPointer a && t.isNullptr b then
    return some plainA
  else if t.isNullptr a && t.isPointer b then
    return some plainB
  else
    return none

end TypeM

end TypedCore
