/-!
# Shapes of types

A type is an entry of a table: a `Shape` and whether it is const. The parts of a shape are the
numbers of other entries.
-/

namespace TypedCore

/-- Number of a type in its table. -/
structure TypeId where
  index : Nat
deriving DecidableEq, Inhabited

/-- Identity of a struct: two structs with the same members are still two. -/
structure StructId where
  index : Nat
deriving DecidableEq, Inhabited

inductive FloatWidth where
  | f32
  | f64
deriving DecidableEq, Inhabited

def FloatWidth.bits : FloatWidth → Nat
  | .f32 => 32
  | .f64 => 64

inductive Shape where
  | void
  | bool
  | integer (bits : Nat) (signed : Bool)
  | float (width : FloatWidth)
  /-- The null pointer has a type of its own, which points to nothing. -/
  | pointer (target : Option TypeId)
  /-- An array of dimension 0 has no bound yet. -/
  | array (element : TypeId) (dim : Nat)
  | function (ret : TypeId) (params : List TypeId) (variadic : Bool)
  | struct (id : StructId)
  /-- Another name for `target`. -/
  | named (name : String) (target : TypeId)
deriving DecidableEq, Inhabited

/-- The types that a shape is made of. -/
def Shape.parts : Shape → List TypeId
  | .pointer (some target) => [target]
  | .array element _ => [element]
  | .function ret params _ => ret :: params
  | .named _ target => [target]
  | _ => []

structure TypeEntry where
  shape : Shape
  isConst : Bool
deriving DecidableEq, Inhabited

structure Member where
  name : String
  ty : TypeId
deriving DecidableEq, Inhabited

structure StructInfo where
  name : String
  /-- `none` until the struct is completed. -/
  members : Option (List Member) := none
  /-- Whether the scope of the struct is closed. -/
  removed : Bool := false
deriving DecidableEq, Inhabited

/-- Why an operation on struct types is refused. -/
inductive TypeError where
  | notAStruct (ty : String)
  | duplicateCompletion (name : String)
  | unknownMember (name member : String)
  | incompleteStruct (name : String)
  | duplicateMember (name member : String)
  | incompleteMember (name member : String)
  | memberCountMismatch (name : String) (names types : Nat)
deriving DecidableEq, Inhabited

def TypeError.message : TypeError → String
  | notAStruct ty => s!"'{ty}' is not a struct type"
  | duplicateCompletion name => s!"struct {name} is already complete"
  | unknownMember name member => s!"struct {name} has no member '{member}'"
  | incompleteStruct name => s!"use of incomplete type 'struct {name}'"
  | duplicateMember name member => s!"duplicate member '{member}' in struct {name}"
  | incompleteMember name member => s!"member '{member}' of struct {name} has incomplete type"
  | memberCountMismatch name names types =>
    s!"struct {name}: {names} member names but {types} member types"

end TypedCore
