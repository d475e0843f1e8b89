import TypedCore.Ir.Encoding
import TypedCore.Json.Number

/-!
# Reading the intermediate representation from JSON

Accepts the form that `TypedCore.Ir.Encoding` writes. The fields of a record may come in any order,
and fields that have no meaning are passed over.
-/

namespace TypedCore.Ir

/-! ### Types -/

namespace Ty

/-- The types that are written as their tag alone. -/
def ofTag? : String → Option Ty
  | "Void" => some void
  | "I1" => some i1
  | "I8" => some i8
  | "I16" => some i16
  | "I32" => some i32
  | "I64" => some i64
  | "F32" => some f32
  | "F64" => some f64
  | "Label" => some label
  | _ => none

mutual

def ofJson? : Json → Option Ty
  | .string (some tag) => ofTag? tag
  | .object [(some "Ptr", target)] => (ofJson? target).map ptr
  | .object [(some "Array", body)] =>
    match _h : body.field? "element_type" with
    | none => none
    | some element => do return array (← body.natAt? "size") (← ofJson? element)
  | .object [(some "Function", body)] =>
    match _h : body.field? "return_type", _h' : body.arrayAt? "param_types" with
    | some ret, some params => do
      return function (← ofJson? ret) (← ofJsons? params) (← body.boolAt? "is_vararg")
    | _, _ => none
  | .object [(some "Struct", body)] =>
    match _h : body.arrayAt? "fields" with
    | none => none
    | some fields => do return struct (body.stringAt? "name") (← ofJsons? fields)
  | _ => none
termination_by j => sizeOf j
decreasing_by
  · simp; omega
  · have := Json.sizeOf_field? _h; simp; omega
  · have := Json.sizeOf_field? _h; simp; omega
  · have := Json.sizeOf_arrayAt? _h'; simp; omega
  · have := Json.sizeOf_arrayAt? _h; simp; omega

def ofJsons? : List Json → Option (List Ty)
  | [] => some []
  | j :: rest => do return (← ofJson? j) :: (← ofJsons? rest)
termination_by js => sizeOf js

end

end Ty

/-! ### Values -/

namespace Value

mutual

def ofJson? : Json → Option Value
  | .string (some "Null") => some null
  | .string (some "Undef") => some undef
  | .object [(some "Temp", id)] => id.nat?.map temp
  | .object [(some "Constant", value)] => value.int?.map fun v => const (Int64.ofInt v)
  | .object [(some "FloatConstant", value)] => value.float?.map float
  | .object [(some "Global", name)] => name.string?.map global
  | .object [(some "Function", name)] => name.string?.map function
  | .object [(some "Aggregate", .array items)] => (ofJsons? items).map aggregate
  | _ => none

def ofJsons? : List Json → Option (List Value)
  | [] => some []
  | j :: rest => do return (← ofJson? j) :: (← ofJsons? rest)

end

/-- A value that may be absent. -/
def optionOfJson? : Option Json → Option (Option Value)
  | none => some none
  | some .null => some none
  | some j => (ofJson? j).map some

end Value

def tyAt? (j : Json) (key : String) : Option Ty := (j.field? key).bind Ty.ofJson?

def valueAt? (j : Json) (key : String) : Option Value := (j.field? key).bind Value.ofJson?

def valuesAt? (j : Json) (key : String) : Option (List Value) :=
  (j.arrayAt? key).bind Value.ofJsons?

def binOpAt? (j : Json) (key : String) : Option BinOp := (j.stringAt? key).bind BinOp.ofTag?

def unOpAt? (j : Json) (key : String) : Option UnOp := (j.stringAt? key).bind UnOp.ofTag?

/-! ### Instructions -/

/-- A value together with the block that it comes from. -/
def edgeValue? : Json → Option (Value × LabelId)
  | .array [value, label] => do return (← Value.ofJson? value, ← label.nat?)
  | _ => none

def edgeValuesAt? (j : Json) (key : String) : Option (List (Value × LabelId)) :=
  (j.arrayAt? key).bind fun items => items.mapM edgeValue?

def Instr.ofJson? : Json → Option Instr
  | .object [(some "Binary", j)] => do
    return .binary (← j.natAt? "result") (← binOpAt? j "op") (← valueAt? j "lhs")
      (← valueAt? j "rhs") (← tyAt? j "result_type")
  | .object [(some "Unary", j)] => do
    return .unary (← j.natAt? "result") (← unOpAt? j "op") (← valueAt? j "operand")
      (← tyAt? j "result_type")
  | .object [(some "Load", j)] => do
    return .load (← j.natAt? "result") (← valueAt? j "ptr") (← tyAt? j "result_type")
  | .object [(some "Store", j)] => do
    return .store (← valueAt? j "value") (← valueAt? j "ptr") (← tyAt? j "value_type")
  | .object [(some "GetElementPtr", j)] => do
    return .offset (← j.natAt? "result") (← valueAt? j "ptr") (← valuesAt? j "indices")
      (← tyAt? j "result_type")
  | .object [(some "Alloca", j)] => do
    return .alloca (← j.natAt? "result") (← tyAt? j "alloc_type") (← tyAt? j "result_type")
  | .object [(some "Call", j)] => do
    return .call (j.natAt? "result") (← valueAt? j "function") (← valuesAt? j "args")
      (← tyAt? j "result_type")
  | .object [(some "Return", value)] => (Value.optionOfJson? (some value)).map .ret
  | .object [(some "Branch", target)] => target.nat?.map .branch
  | .object [(some "BranchCond", j)] => do
    return .branchIf (← valueAt? j "condition") (← j.natAt? "true_label")
      (← j.natAt? "false_label")
  | .object [(some "Phi", j)] => do
    return .phi (← j.natAt? "result") (← edgeValuesAt? j "incoming") (← tyAt? j "result_type")
  | .object [(some "Comment", text)] => text.string?.map .comment
  | _ => none

/-! ### Functions and modules -/

def labelsAt? (j : Json) (key : String) : Option (List LabelId) :=
  (j.arrayAt? key).bind fun items => items.mapM Json.nat?

def Block.ofJson? (j : Json) : Option Block := do
  return ⟨← j.natAt? "id", ← (← j.arrayAt? "instructions").mapM Instr.ofJson?,
    ← labelsAt? j "predecessors", ← labelsAt? j "successors"⟩

def location? (j : Json) : Option Location := do
  return ⟨← j.stringAt? "filename", ← j.natAt? "line", ← j.natAt? "column"⟩

def span? (j : Json) : Option Span := do
  return ⟨← (j.field? "start").bind location?, ← (j.field? "end").bind location?⟩

def parameter? : Json → Option (TempId × Ty)
  | .array [id, ty] => do return (← id.nat?, ← Ty.ofJson? ty)
  | _ => none

def Function.ofJson? (j : Json) : Option Function := do
  let span ← match j.present? "span" with
    | none => some none
    | some s => (span? s).map some
  return ⟨← j.stringAt? "name", ← tyAt? j "return_type",
    ← (← j.arrayAt? "parameters").mapM parameter?, ← (← j.arrayAt? "blocks").mapM Block.ofJson?,
    ← j.boolAt? "is_vararg", span⟩

def Linkage.ofTag? : String → Option Linkage
  | "External" => some external
  | "Internal" => some internal
  | "Private" => some hidden
  | _ => none

def Global.ofJson? (j : Json) : Option Global := do
  return ⟨← j.stringAt? "name", ← tyAt? j "var_type", ← j.boolAt? "is_constant",
    ← Value.optionOfJson? (j.field? "initializer"), ← (j.stringAt? "linkage").bind Linkage.ofTag?⟩

def typeDefs? : Json → Option TypeDefs
  | .object fields =>
    fields.foldlM (fun defs (name, ty) => do return defs.insert (← name) (← Ty.ofJson? ty)) []
  | _ => none

def Module.ofJson? (j : Json) : Option Module := do
  return ⟨← j.stringAt? "name", ← (← j.arrayAt? "functions").mapM Function.ofJson?,
    ← (← j.arrayAt? "globals").mapM Global.ofJson?,
    ← (j.field? "type_definitions").bind typeDefs?⟩

end TypedCore.Ir
