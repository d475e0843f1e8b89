import TypedCore.Expr.Op
import TypedCore.Lowering.Fault
import TypedCore.Ir.Text
import TypedCore.Types.Query

/-!
# Types and operators in the intermediate representation

Structs are laid out member by member. Behind a pointer a struct is referred to by name, so that a
struct may point to itself.
-/

namespace TypedCore.TypeTable

variable (t : TypeTable)

/-- Struct names are made unique by the number of the struct. -/
def layoutName? (ty : TypeId) : Option String := do
  let id ← t.structId? ty
  let name ← t.structName? ty
  return s!"{name}.{id.index}"

/-- The layout of a type, given how structs are laid out. -/
def layoutWith (struct : TypeId → StructId → Except Fault Ir.Ty) (ty : TypeId) :
    Except Fault Ir.Ty :=
  match _h : t.shape ty with
  | .void => .ok .void
  | .bool => .ok .i1
  | .integer bits _ => .ok (.int bits)
  | .float .f32 => .ok .f32
  | .float .f64 => .ok .f64
  | .pointer none => .ok (.ptr .i8)
  | .pointer (some target) =>
    match t.shape target with
    | .void => .ok (.ptr .i8)
    | .struct _ => .ok (.ptr (.struct (t.layoutName? target) []))
    | _ => do return .ptr (← layoutWith struct target)
  | .array element dim => do return .array dim (← layoutWith struct element)
  | .function ret params variadic => do
    let ret ← layoutWith struct ret
    let params ← params.attach.mapM fun ⟨p, _⟩ => layoutWith struct p
    return .function ret params variadic
  | .struct id => struct ty id
  | .named .. => .error (.unsupportedType (t.name ty))
termination_by ty.index
decreasing_by
  all_goals
    apply t.shape_part_lt
    simp_all [Shape.parts]

/-- The layout of a type in which at most `depth` structs lie inside each other. -/
def layoutWithin : Nat → TypeId → Except Fault Ir.Ty
  | 0 => t.layoutWith fun ty id =>
    .error (if (t.struct id).members.isNone then .unsupportedType (t.name ty)
      else .unboundedType (t.name ty))
  | depth + 1 => t.layoutWith fun ty id =>
    match (t.struct id).members with
    | none => .error (.unsupportedType (t.name ty))
    | some members => do
      let fields ← members.mapM fun m => layoutWithin depth m.ty
      return .struct (t.layoutName? ty) fields

/-- The layout of a type. A struct that lies inside itself has none, and along any other nesting
each struct of the table occurs at most once. -/
def layout (ty : TypeId) : Except Fault Ir.Ty := t.layoutWithin t.structs.size ty

/-- The layout of what a pointer points to. -/
def targetLayout (pointer : TypeId) : Except Fault Ir.Ty :=
  match t.target? pointer with
  | some target => t.layout target
  | none => .error (.unsupportedType (t.name pointer))

/-- The type of element or member number `index` of an aggregate. -/
def elementType (ty : TypeId) (index : Nat) : Except Fault TypeId :=
  match t.shape ty with
  | .array element _ => .ok element
  | .struct id =>
    match ((t.struct id).members.getD [])[index]? with
    | some member => .ok member.ty
    | none => .error (.unsupportedType (t.name ty))
  | _ => .ok ty

/-- How many elements or members an object of a type has. -/
def elementCount (ty : TypeId) : Nat :=
  match t.shape ty with
  | .array _ dim => dim
  | .struct id => ((t.struct id).members.getD []).length
  | _ => 1

/-! ### Operators -/

/-- The conversion between two types, or `none` if they share a representation. Conversions to bool
are comparisons instead. -/
def castOp (src dst : TypeId) : Except Fault (Option Ir.UnOp) :=
  let unsupported := .error (.unsupportedCast (t.name src) (t.name dst))
  match t.shape src, t.shape dst with
  | .integer a signed, .integer b _ =>
    .ok (if b > a then some (if signed then .sext else .zext)
      else if b < a then some .trunc
      else none)
  | .bool, .integer bits _ => .ok (if bits > 1 then some .zext else none)
  | .bool, .float _ => .ok (some .uiToFp)
  | .integer _ signed, .float _ => .ok (some (if signed then .siToFp else .uiToFp))
  | .float _, .integer _ signed => .ok (some (if signed then .fpToSi else .fpToUi))
  | .float .f32, .float .f64 => .ok (some .fpExt)
  | .float .f64, .float .f32 => .ok (some .fpTrunc)
  | .float _, .float _ => .ok none
  | .pointer none, .pointer _ => .ok none
  | .pointer _, .pointer _ => .ok (some .bitcast)
  | .array .., .array .. => do
    -- arrays are copied as they are
    if (← t.layout src) = (← t.layout dst) then .ok none else unsupported
  | .struct _, .struct _ => .ok none
  | .bool, .bool => .ok none
  | _, _ => unsupported

/-- The instruction for arithmetic on operands of type `ty`. -/
def arithmeticOp (op : BinaryOp) (ty : TypeId) : Except Fault Ir.BinOp :=
  let float := t.isFloat ty
  let unsigned := t.isUnsigned ty
  match op with
  | .add => .ok (if float then .fadd else .add)
  | .sub => .ok (if float then .fsub else .sub)
  | .mul => .ok (if float then .fmul else .mul)
  | .div => .ok (if float then .fdiv else if unsigned then .udiv else .sdiv)
  | .mod => .ok (if float then .frem else if unsigned then .urem else .srem)
  | op => .error (.unsupportedCast op.text (t.name ty))

/-- The instruction for a comparison of operands of type `ty`. Pointers and bools are compared
without sign. -/
def comparisonOp? (op : BinaryOp) (ty : TypeId) : Option Ir.BinOp :=
  let float := t.isFloat ty
  let signed := t.isSigned ty
  match op with
  | .equal => some (if float then .feq else .eq)
  | .notEqual => some (if float then .fne else .ne)
  | .less => some (if float then .flt else if signed then .slt else .ult)
  | .lessEqual => some (if float then .fle else if signed then .sle else .ule)
  | .greater => some (if float then .fgt else if signed then .sgt else .ugt)
  | .greaterEqual => some (if float then .fge else if signed then .sge else .uge)
  | _ => none

end TypedCore.TypeTable
