import TypedCore.Typing.Call
import TypedCore.Typing.Operator

/-!
# Building expressions

One constructor for each kind of node. A node is built only after the rules have accepted its
operands, so that every expression that a session hands out is typed.
-/

namespace TypedCore.Node

open Session

/-! ### Leaves -/

/-- An integer is of 32 bits, or of 64 if it does not fit. -/
def integer (value : Int64) (span : Span) : SessionM Expr := do
  let fits := -0x80000000 ≤ value.toInt && value.toInt < 0x80000000
  return .literal (.integer value) ⟨← onTypes (.signed (if fits then 32 else 64)), span⟩

/-- An integer whose type is written with it. -/
def typedInteger (value : Int64) (ty : TypeId) (span : Span) : SessionM Expr := do
  let t ← currentTypes
  if t.isInteger ty then
    return .literal (.integer value) ⟨ty, span⟩
  else
    reject ⟨.invalidConversion "integer literal" (t.name ty), span⟩

def float (value : Float) (width : FloatWidth) (span : Span) : SessionM Expr := do
  return .literal (.float value) ⟨← onTypes (.float width), span⟩

def bool (value : Bool) (span : Span) : SessionM Expr := do
  return .literal (.bool value) ⟨← onTypes .bool, span⟩

def nullptr (span : Span) : SessionM Expr := do
  return .literal .nullptr ⟨← onTypes .nullPointer, span⟩

/-- A text is an array of const bytes with a zero at its end. -/
def string (text : String) (span : Span) : SessionM Expr := do
  let byte ← onTypes (.unsigned 8)
  let element ← onTypes (.const byte)
  return .literal (.string text) ⟨← onTypes (.array element (text.utf8ByteSize + 1)), span⟩

def identifier (name : String) (span : Span) : SessionM Expr := do
  match (← get).lookup name with
  | some symbol =>
    let binding := symbol.value
    return .identifier name symbol.id binding.storage binding.value ⟨binding.ty, span⟩
  | none => reject ⟨.undeclaredIdentifier name, span⟩

/-! ### Operations -/

/-- A second use of an expression. -/
def proxy (target : Expr) (span : Span) : Expr := .proxy target ⟨target.ty, span⟩

def unary (op : UnaryOp) (child : Expr) (span : Span) : SessionM Expr := do
  let r ← check (Typing.unary op child span)
  return .unary op r.child ⟨r.ty, span⟩

def binary (op : BinaryOp) (left right : Expr) (span : Span) : SessionM Expr := do
  let r ← check (Typing.binary op left right span)
  return .binary op r.left r.right ⟨r.ty, span⟩

def call (callee : Expr) (args : List Expr) (span : Span) : SessionM Expr := do
  let r ← check (Typing.call callee args span)
  return .call r.callee r.args ⟨r.ty, span⟩

/-- The type of a choice between two values: their common type, or void if neither has a value. -/
def choiceType (a b : TypeId) : TypeM (Option TypeId) := do
  let t ← get
  if t.isVoid a && t.isVoid b then
    return some a
  else
    let a ← TypeM.constRemoved a
    let b ← TypeM.constRemoved b
    TypeM.common a b

def conditional (cond thenExpr elseExpr : Expr) (span : Span) : SessionM Expr := do
  let bool ← onTypes .bool
  let cond ← check (Typing.implicitCast cond bool)
  match ← onTypes (choiceType thenExpr.ty elseExpr.ty) with
  | none =>
    let t ← currentTypes
    reject ⟨.invalidOperands "?:" (t.name thenExpr.ty) (t.name elseExpr.ty), span⟩
  | some ty =>
    let thenExpr ← check (Typing.implicitCast thenExpr ty)
    let elseExpr ← check (Typing.implicitCast elseExpr ty)
    return .conditional cond thenExpr elseExpr ⟨ty, span⟩

/-- A member of a const object is const. -/
def member (object : Expr) (name : String) (span : Span) : SessionM Expr := do
  let t ← currentTypes
  if !t.isStruct object.ty then
    reject ⟨.notAStruct (t.name object.ty), span⟩
  else
    match t.member object.ty name with
    | .error error => reject ⟨.type error, span⟩
    | .ok (index, ty) =>
      let ty ← if t.isConst object.ty then onTypes (.const ty) else pure ty
      return .member object name index ⟨ty, span⟩

/-- A member of what a pointer points to. -/
def arrow (pointer : Expr) (name : String) (span : Span) : SessionM Expr := do
  member (← unary .dereference pointer span) name span

def cast (child : Expr) (ty : TypeId) (span : Span) : SessionM Expr :=
  check (Typing.explicitCast child ty span)

def implicitCast (child : Expr) (ty : TypeId) : SessionM Expr :=
  check (Typing.implicitCast child ty)

/-! ### Braces -/

/-- The types of the objects that `count` elements in braces initialize, and of one more where there
is one. -/
def initialized (t : TypeTable) (ty : TypeId) (count : Nat) : Except TypeError (List TypeId) :=
  match t.shape ty with
  | .array element dim =>
    .ok (List.replicate (if dim = 0 then count else min dim (count + 1)) element)
  | .struct _ => (t.members ty).map fun members => members.map (·.ty)
  | _ => .ok [ty]

def convertAll : List Expr → List TypeId → SessionM (List Expr)
  | e :: es, ty :: tys => do
    let e ← implicitCast e ty
    return e :: (← convertAll es tys)
  | _, _ => return []

/-- Elements in braces, for an object of type `ty`. An array without bound takes it from the number
of elements. -/
def aggregate (elements : List Expr) (ty : TypeId) (span : Span) : SessionM Expr := do
  let t ← currentTypes
  match initialized t ty elements.length with
  | .error error => reject ⟨.type error, span⟩
  | .ok targets =>
    if elements.length > targets.length then
      reject ⟨.tooManyInitializers (t.name ty), span⟩
    else
      let converted ← convertAll elements targets
      return .aggregate converted ⟨← onTypes (.bindArray ty converted.length), span⟩

end TypedCore.Node
