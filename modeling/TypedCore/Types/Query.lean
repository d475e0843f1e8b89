import TypedCore.Types.Table

/-!
# Questions about types

Every question looks through names: it is about the type that a name stands for.
-/

namespace TypedCore

namespace TypeTable

variable (t : TypeTable)

/-- The type that a name stands for, any number of names deep. -/
def unalias (ty : TypeId) : TypeId :=
  match _h : (t.entry ty).shape with
  | .named _ target => unalias target
  | _ => ty
termination_by ty.index
decreasing_by exact t.part_lt (by simp [_h, Shape.parts])

theorem unalias_le (ty : TypeId) : (t.unalias ty).index ≤ ty.index := by
  fun_induction t.unalias ty with
  | case1 ty name target h ih =>
    have : target.index < ty.index := t.part_lt (by simp [h, Shape.parts])
    omega
  | case2 ty => exact Nat.le_refl _

/-- The names that lead from a type to what it stands for, the outermost first. -/
def aliasNames (ty : TypeId) : List String :=
  match _h : (t.entry ty).shape with
  | .named name target => name :: aliasNames target
  | _ => []
termination_by ty.index
decreasing_by exact t.part_lt (by simp [_h, Shape.parts])

def shape (ty : TypeId) : Shape := (t.entry (t.unalias ty)).shape

theorem shape_part_lt {ty p : TypeId} (h : p ∈ (t.shape ty).parts) : p.index < ty.index :=
  Nat.lt_of_lt_of_le (t.part_lt h) (t.unalias_le ty)

def isConst (ty : TypeId) : Bool := (t.entry (t.unalias ty)).isConst

def isAlias (ty : TypeId) : Bool :=
  match (t.entry ty).shape with
  | .named .. => true
  | _ => false

def aliasName? (ty : TypeId) : Option String :=
  match (t.entry ty).shape with
  | .named name _ => some name
  | _ => none

/-! ### Kinds -/

def isVoid (ty : TypeId) : Bool := t.shape ty == .void

def isBool (ty : TypeId) : Bool := t.shape ty == .bool

def isInteger (ty : TypeId) : Bool :=
  match t.shape ty with
  | .integer .. => true
  | _ => false

def isSigned (ty : TypeId) : Bool :=
  match t.shape ty with
  | .integer _ signed => signed
  | _ => false

def isUnsigned (ty : TypeId) : Bool :=
  match t.shape ty with
  | .integer _ signed => !signed
  | _ => false

def isFloat (ty : TypeId) : Bool :=
  match t.shape ty with
  | .float _ => true
  | _ => false

/-- Bool or integer. -/
def isIntegral (ty : TypeId) : Bool := t.isBool ty || t.isInteger ty

/-- Bool, integer or float. -/
def isArithmetic (ty : TypeId) : Bool := t.isIntegral ty || t.isFloat ty

/-- Width of bools, integers and floats. -/
def bits? (ty : TypeId) : Option Nat :=
  match t.shape ty with
  | .bool => some 1
  | .integer bits _ => some bits
  | .float width => some width.bits
  | _ => none

/-- Any pointer, the type of the null pointer included. -/
def isPointer (ty : TypeId) : Bool :=
  match t.shape ty with
  | .pointer _ => true
  | _ => false

def isNullptr (ty : TypeId) : Bool := t.shape ty == .pointer none

def isArray (ty : TypeId) : Bool :=
  match t.shape ty with
  | .array .. => true
  | _ => false

def isUnboundArray (ty : TypeId) : Bool :=
  match t.shape ty with
  | .array _ dim => dim == 0
  | _ => false

def isFunction (ty : TypeId) : Bool :=
  match t.shape ty with
  | .function .. => true
  | _ => false

def isVariadic (ty : TypeId) : Bool :=
  match t.shape ty with
  | .function _ _ variadic => variadic
  | _ => false

def isStruct (ty : TypeId) : Bool :=
  match t.shape ty with
  | .struct _ => true
  | _ => false

def isScalar (ty : TypeId) : Bool := !t.isArray ty && !t.isStruct ty

/-! ### Parts -/

/-- What a pointer points to or an array consists of. -/
def target? (ty : TypeId) : Option TypeId :=
  match t.shape ty with
  | .pointer target => target
  | .array element _ => some element
  | _ => none

def dim? (ty : TypeId) : Option Nat :=
  match t.shape ty with
  | .array _ dim => some dim
  | _ => none

def ret? (ty : TypeId) : Option TypeId :=
  match t.shape ty with
  | .function ret _ _ => some ret
  | _ => none

def params (ty : TypeId) : List TypeId :=
  match t.shape ty with
  | .function _ params _ => params
  | _ => []

/-! ### Structs -/

def structId? (ty : TypeId) : Option StructId :=
  match t.shape ty with
  | .struct id => some id
  | _ => none

def structName? (ty : TypeId) : Option String :=
  (t.structId? ty).map fun id => (t.struct id).name

def isComplete (ty : TypeId) : Bool :=
  match t.structId? ty with
  | some id => (t.struct id).members.isSome
  | none => false

def isRemoved (ty : TypeId) : Bool :=
  match t.structId? ty with
  | some id => (t.struct id).removed
  | none => false

/-! ### Storage -/

/-- Whether objects of a type take up storage. -/
def hasSize (ty : TypeId) : Bool :=
  match _h : t.shape ty with
  | .void => false
  | .function .. => false
  | .array element dim => dim > 0 && hasSize element
  | .struct id => (t.struct id).members.isSome
  | _ => true
termination_by ty.index
decreasing_by exact t.shape_part_lt (by simp [_h, Shape.parts])

/-- Whether objects of a type must not be changed: const objects and arrays of such. -/
def isReadOnly (ty : TypeId) : Bool :=
  match _h : t.shape ty with
  | .array element _ => t.isConst ty || isReadOnly element
  | _ => t.isConst ty
termination_by ty.index
decreasing_by exact t.shape_part_lt (by simp [_h, Shape.parts])

/-! ### Equality -/

/-- Equality of what two types stand for: const flags count, structs are compared by identity, and
names do not matter at any depth. -/
def equals (a b : TypeId) : Bool :=
  if t.unalias a = t.unalias b then
    true
  else if t.isConst a ≠ t.isConst b then
    false
  else
    match _h : t.shape a, t.shape b with
    | .pointer (some x), .pointer (some y) => equals x y
    | .array x n, .array y m => n == m && equals x y
    | .function r ps v, .function s qs w =>
      v == w && equals r s && ps.length == qs.length
        && (ps.attach.zip qs).all fun (⟨x, _⟩, y) => equals x y
    | .struct i, .struct j => i == j
    | _, _ => false
termination_by a.index
decreasing_by
  all_goals
    apply t.shape_part_lt
    simp_all [Shape.parts]

/-! ### Names -/

/-- How a type is written. -/
def name (ty : TypeId) : String :=
  let qualifier := if (t.entry ty).isConst then "const " else ""
  match _h : (t.entry ty).shape with
  | .named name target => (if t.isConst target then "const " else "") ++ name
  | .void => qualifier ++ "void"
  | .bool => qualifier ++ "bool"
  | .integer bits signed => qualifier ++ (if signed then "i" else "u") ++ toString bits
  | .float width => qualifier ++ "f" ++ toString width.bits
  | .pointer none => qualifier ++ "nullptr_t"
  | .pointer (some target) => name target ++ "*" ++ if (t.entry ty).isConst then " const" else ""
  | .array element dim =>
    qualifier ++ name element ++ if dim = 0 then "[]" else s!"[{dim}]"
  | .function ret params variadic =>
    let shown := params.attach.map fun ⟨p, _⟩ => name p
    qualifier ++ "fn(" ++ ", ".intercalate (shown ++ if variadic then ["..."] else []) ++ "): "
      ++ name ret
  | .struct id => qualifier ++ "struct " ++ (t.struct id).name
termination_by ty.index
decreasing_by
  all_goals
    apply t.part_lt
    simp_all [Shape.parts]

/-! ### Members -/

def members (ty : TypeId) : Except TypeError (List Member) :=
  match t.structId? ty with
  | none => .error (.notAStruct (t.name ty))
  | some id =>
    match (t.struct id).members with
    | none => .error (.incompleteStruct (t.struct id).name)
    | some members => .ok members

/-- Position and type of a member. -/
def member (ty : TypeId) (name : String) : Except TypeError (Nat × TypeId) := do
  let members ← t.members ty
  match members.zipIdx.find? fun (m, _) => m.name == name with
  | some (m, i) => .ok (i, m.ty)
  | none => .error (.unknownMember ((t.structName? ty).getD "") name)

end TypeTable

end TypedCore
