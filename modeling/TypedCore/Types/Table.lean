import Std.Data.TreeMap
import TypedCore.Types.Shape

/-!
# The type table

Types are interned: a shape with a const flag is entered once and known by its number afterwards. For each
kind of shape a map leads from what tells the types of that kind apart to their numbers, beside the entries
themselves. Entries are only ever added. Members of structs are kept apart and may mention any type.
-/

namespace TypedCore

instance : Ord TypeId := ⟨compareOn TypeId.index⟩

instance : Ord StructId := ⟨compareOn StructId.index⟩

instance : Ord FloatWidth := ⟨compareOn FloatWidth.bits⟩

instance ordPair {α β : Type} [Ord α] [Ord β] : Ord (α × β) := lexOrd

structure TypeTable where
  entries : Array TypeEntry := #[]
  /-- The types of each kind; the last part of a key is the const flag. -/
  voids : Std.TreeMap Bool TypeId := ∅
  bools : Std.TreeMap Bool TypeId := ∅
  integers : Std.TreeMap (Nat × Bool × Bool) TypeId := ∅
  floats : Std.TreeMap (FloatWidth × Bool) TypeId := ∅
  pointers : Std.TreeMap (Option TypeId × Bool) TypeId := ∅
  arrays : Std.TreeMap (TypeId × Nat × Bool) TypeId := ∅
  functions : Std.TreeMap (TypeId × List TypeId × Bool × Bool) TypeId := ∅
  /-- Names have no flag of their own. -/
  names : Std.TreeMap (String × TypeId) TypeId := ∅
  /-- Structs that are removed are not listed. -/
  structTypes : Std.TreeMap (StructId × Bool) TypeId := ∅
  structs : Array StructInfo := #[]
  /-- Width of the unsigned integer type that counts elements. -/
  sizeBits : Nat

/-- A table without types. -/
def TypeTable.empty (sizeBits : Nat) : TypeTable := { sizeBits }

instance : Inhabited TypeTable := ⟨.empty 64⟩

abbrev TypeM := StateM TypeTable

namespace TypeTable

variable (t : TypeTable)

def size : Nat := t.entries.size

/-- The entry of a type. A number that the table has not issued counts as `void`, and so does one whose
entry mentions a type that does not come before it; recursion along parts ends for that reason. -/
def entry (ty : TypeId) : TypeEntry :=
  (t.entries[ty.index]?.filter fun e => e.shape.parts.all (·.index < ty.index)).getD ⟨.void, false⟩

theorem part_lt {ty p : TypeId} (h : p ∈ (t.entry ty).shape.parts) : p.index < ty.index := by
  unfold entry at h
  cases he : t.entries[ty.index]?.filter fun e => e.shape.parts.all (·.index < ty.index) with
  | none =>
    rw [he] at h
    cases h
  | some e =>
    rw [he] at h
    have hparts := (Option.filter_eq_some_iff.1 he).2
    exact of_decide_eq_true (List.all_eq_true.1 hparts p h)

/-- The data of a struct; a number that the table has not issued counts as a nameless struct. -/
def struct (id : StructId) : StructInfo := t.structs[id.index]?.getD ⟨"", none, false⟩

/-! ### Interning -/

/-- The type with this entry, if its map lists one. -/
def find? (e : TypeEntry) : Option TypeId :=
  match e.shape with
  | .void => t.voids[e.isConst]?
  | .bool => t.bools[e.isConst]?
  | .integer bits signed => t.integers[(bits, signed, e.isConst)]?
  | .float width => t.floats[(width, e.isConst)]?
  | .pointer target => t.pointers[(target, e.isConst)]?
  | .array element dim => t.arrays[(element, dim, e.isConst)]?
  | .function ret params variadic => t.functions[(ret, params, variadic, e.isConst)]?
  | .struct id => t.structTypes[(id, e.isConst)]?
  | .named name target => t.names[(name, target)]?

/-- List `ty` as the type with this entry. -/
def list (e : TypeEntry) (ty : TypeId) : TypeTable :=
  match e.shape with
  | .void => { t with voids := t.voids.insert e.isConst ty }
  | .bool => { t with bools := t.bools.insert e.isConst ty }
  | .integer bits signed => { t with integers := t.integers.insert (bits, signed, e.isConst) ty }
  | .float width => { t with floats := t.floats.insert (width, e.isConst) ty }
  | .pointer target => { t with pointers := t.pointers.insert (target, e.isConst) ty }
  | .array element dim => { t with arrays := t.arrays.insert (element, dim, e.isConst) ty }
  | .function ret params variadic =>
    { t with functions := t.functions.insert (ret, params, variadic, e.isConst) ty }
  | .struct id => { t with structTypes := t.structTypes.insert (id, e.isConst) ty }
  | .named name target => { t with names := t.names.insert (name, target) ty }

/-- Enter a type. -/
def push (e : TypeEntry) : TypeTable := { t.list e ⟨t.size⟩ with entries := t.entries.push e }

end TypeTable

namespace TypeM

open TypeTable

/-- The type with this shape and const flag, entered if it is new. -/
def intern (shape : Shape) (isConst : Bool) : TypeM TypeId := fun t =>
  match t.find? ⟨shape, isConst⟩ with
  | some ty => (ty, t)
  | none => (⟨t.size⟩, t.push ⟨shape, isConst⟩)

def void : TypeM TypeId := intern .void false

def bool : TypeM TypeId := intern .bool false

def integer (bits : Nat) (signed : Bool) : TypeM TypeId := intern (.integer bits signed) false

def signed (bits : Nat) : TypeM TypeId := integer bits true

def unsigned (bits : Nat) : TypeM TypeId := integer bits false

/-- The type of element counts and offsets. -/
def size : TypeM TypeId := do unsigned (← get).sizeBits

def float (width : FloatWidth) : TypeM TypeId := intern (.float width) false

def pointer (target : TypeId) : TypeM TypeId := intern (.pointer (some target)) false

def nullPointer : TypeM TypeId := intern (.pointer none) false

def array (element : TypeId) (dim : Nat) : TypeM TypeId := intern (.array element dim) false

def function (ret : TypeId) (params : List TypeId) (variadic : Bool) : TypeM TypeId :=
  intern (.function ret params variadic) false

def named (name : String) (target : TypeId) : TypeM TypeId := intern (.named name target) false

/-- A new struct without members. -/
def incompleteStruct (name : String) : TypeM TypeId := do
  let t ← get
  set { t with structs := t.structs.push ⟨name, none, false⟩ }
  intern (.struct ⟨t.structs.size⟩) false

end TypeM

end TypedCore
