import TypedCore.Decimal.Layout
import TypedCore.Ir.Function
import TypedCore.Json.Printer

/-!
# The intermediate representation as JSON

A case without fields is its tag, every other one an object whose single key is the tag. Records are
objects with their fields in a fixed order, pairs are arrays, and what is absent is null.
-/

namespace TypedCore.Ir

open Json

/-- Floating point numbers are written without exponent from 1e-5 up to 1e16. -/
def numberLayout : Decimal.Layout where
  plainFrom := -5
  plainBelow := 16
  exponentPlus := true
  tie := .toEven

/-- What is no number has no JSON form. -/
def floatJson (x : Float) : Json :=
  if x.isFinite then .number (numberLayout.finite x) else .null

def tagged (tag : String) (content : Json) : Json := obj [(tag, content)]

def BinOp.tag : BinOp → String
  | add => "Add"
  | sub => "Sub"
  | mul => "Mul"
  | sdiv => "SDiv"
  | udiv => "UDiv"
  | srem => "SRem"
  | urem => "URem"
  | fadd => "FAdd"
  | fsub => "FSub"
  | fmul => "FMul"
  | fdiv => "FDiv"
  | frem => "FRem"
  | eq => "Eq"
  | ne => "Ne"
  | slt => "Slt"
  | sle => "Sle"
  | sgt => "Sgt"
  | sge => "Sge"
  | ult => "Ult"
  | ule => "Ule"
  | ugt => "Ugt"
  | uge => "Uge"
  | feq => "FEq"
  | fne => "FNe"
  | flt => "FLt"
  | fle => "FLe"
  | fgt => "FGt"
  | fge => "FGe"

def BinOp.all : List BinOp :=
  [.add, .sub, .mul, .sdiv, .udiv, .srem, .urem, .fadd, .fsub, .fmul, .fdiv, .frem, .eq, .ne, .slt,
    .sle, .sgt, .sge, .ult, .ule, .ugt, .uge, .feq, .fne, .flt, .fle, .fgt, .fge]

def BinOp.ofTag? (tag : String) : Option BinOp := BinOp.all.find? fun op => op.tag == tag

def UnOp.tag : UnOp → String
  | neg => "Neg"
  | fneg => "FNeg"
  | zext => "ZExt"
  | sext => "SExt"
  | trunc => "Trunc"
  | fpExt => "FpExt"
  | fpTrunc => "FpTrunc"
  | siToFp => "SiToFp"
  | uiToFp => "UiToFp"
  | fpToSi => "FpToSi"
  | fpToUi => "FpToUi"
  | ptrToInt => "PtrToInt"
  | intToPtr => "IntToPtr"
  | bitcast => "Bitcast"

def UnOp.all : List UnOp :=
  [.neg, .fneg, .zext, .sext, .trunc, .fpExt, .fpTrunc, .siToFp, .uiToFp, .fpToSi, .fpToUi,
    .ptrToInt, .intToPtr, .bitcast]

def UnOp.ofTag? (tag : String) : Option UnOp := UnOp.all.find? fun op => op.tag == tag

namespace Ty

mutual

def json : Ty → Json
  | void => str "Void"
  | i1 => str "I1"
  | i8 => str "I8"
  | i16 => str "I16"
  | i32 => str "I32"
  | i64 => str "I64"
  | f32 => str "F32"
  | f64 => str "F64"
  | ptr target => tagged "Ptr" target.json
  | array size element =>
    tagged "Array" (obj [("size", nat size), ("element_type", element.json)])
  | function ret params variadic =>
    tagged "Function" (obj [("return_type", ret.json), ("param_types", .array (jsons params)),
      ("is_vararg", .bool variadic)])
  | struct name fields =>
    tagged "Struct" (obj [("name", option str name), ("fields", .array (jsons fields))])
  | label => str "Label"

def jsons : List Ty → List Json
  | [] => []
  | ty :: rest => ty.json :: jsons rest

end

end Ty

namespace Value

mutual

def json : Value → Json
  | temp id => tagged "Temp" (nat id)
  | const value => tagged "Constant" (int value.toInt)
  | float value => tagged "FloatConstant" (floatJson value)
  | null => str "Null"
  | global name => tagged "Global" (str name)
  | function name => tagged "Function" (str name)
  | aggregate items => tagged "Aggregate" (.array (jsons items))
  | undef => str "Undef"

def jsons : List Value → List Json
  | [] => []
  | v :: rest => v.json :: jsons rest

end

end Value

def Instr.json : Instr → Json
  | binary result op lhs rhs ty =>
    tagged "Binary" (obj [("result", nat result), ("op", str op.tag), ("lhs", lhs.json),
      ("rhs", rhs.json), ("result_type", ty.json)])
  | unary result op operand ty =>
    tagged "Unary" (obj [("result", nat result), ("op", str op.tag), ("operand", operand.json),
      ("result_type", ty.json)])
  | load result ptr ty =>
    tagged "Load" (obj [("result", nat result), ("ptr", ptr.json), ("result_type", ty.json)])
  | store value ptr ty =>
    tagged "Store" (obj [("value", value.json), ("ptr", ptr.json), ("value_type", ty.json)])
  | offset result ptr indices ty =>
    tagged "GetElementPtr" (obj [("result", nat result), ("ptr", ptr.json),
      ("indices", .array (indices.map Value.json)), ("result_type", ty.json)])
  | alloca result slot ty =>
    tagged "Alloca" (obj [("result", nat result), ("alloc_type", slot.json),
      ("result_type", ty.json)])
  | call result callee args ty =>
    tagged "Call" (obj [("result", option nat result), ("function", callee.json),
      ("args", .array (args.map Value.json)), ("result_type", ty.json)])
  | ret value => tagged "Return" (option Value.json value)
  | branch target => tagged "Branch" (nat target)
  | branchIf condition onTrue onFalse =>
    tagged "BranchCond" (obj [("condition", condition.json), ("true_label", nat onTrue),
      ("false_label", nat onFalse)])
  | phi result incoming ty =>
    let pairs := incoming.map fun (value, label) => Json.array [value.json, nat label]
    tagged "Phi" (obj [("result", nat result), ("incoming", .array pairs),
      ("result_type", ty.json)])
  | comment text => tagged "Comment" (str text)

def Block.json (b : Block) : Json :=
  obj [("id", nat b.id), ("instructions", .array (b.instrs.map Instr.json)),
    ("predecessors", .array (b.predecessors.map nat)),
    ("successors", .array (b.successors.map nat))]

def locationJson (l : Location) : Json :=
  obj [("filename", str l.file), ("line", nat l.line), ("column", nat l.column)]

def spanJson (s : Span) : Json :=
  obj [("start", locationJson s.start), ("end", locationJson s.stop)]

def Function.json (f : Function) : Json :=
  let params := f.params.map fun (id, ty) => Json.array [nat id, ty.json]
  obj [("name", str f.name), ("return_type", f.ret.json), ("parameters", .array params),
    ("blocks", .array (f.blocks.map Block.json)), ("is_vararg", .bool f.variadic),
    ("span", option spanJson f.span)]

def Linkage.tag : Linkage → String
  | external => "External"
  | internal => "Internal"
  | hidden => "Private"

def Global.json (g : Global) : Json :=
  obj [("name", str g.name), ("var_type", g.ty.json), ("is_constant", .bool g.isConstant),
    ("initializer", option Value.json g.init), ("linkage", str g.linkage.tag)]

def Module.json (m : Module) : Json :=
  obj [("name", str m.name), ("functions", .array (m.functions.map Function.json)),
    ("globals", .array (m.globals.map Global.json)),
    ("type_definitions", obj (m.typeDefs.map fun (name, ty) => (name, ty.json)))]

/-- The module for other tools to read. -/
def Module.jsonText (m : Module) : String := m.json.pretty

end TypedCore.Ir
