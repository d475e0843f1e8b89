import TypedCore.Expr.Text
import TypedCore.Ir.Function

/-!
# Listings

The intermediate representation as text, one instruction to a line.
-/

namespace TypedCore.Ir

def BinOp.text : BinOp → String
  | add => "add"
  | sub => "sub"
  | mul => "mul"
  | sdiv => "sdiv"
  | udiv => "udiv"
  | srem => "srem"
  | urem => "urem"
  | fadd => "fadd"
  | fsub => "fsub"
  | fmul => "fmul"
  | fdiv => "fdiv"
  | frem => "frem"
  | eq => "eq"
  | ne => "ne"
  | slt => "slt"
  | sle => "sle"
  | sgt => "sgt"
  | sge => "sge"
  | ult => "ult"
  | ule => "ule"
  | ugt => "ugt"
  | uge => "uge"
  | feq => "oeq"
  | fne => "one"
  | flt => "olt"
  | fle => "ole"
  | fgt => "ogt"
  | fge => "oge"

def UnOp.text : UnOp → String
  | neg => "neg"
  | fneg => "fneg"
  | zext => "zext"
  | sext => "sext"
  | trunc => "trunc"
  | fpExt => "fpext"
  | fpTrunc => "fptrunc"
  | siToFp => "sitofp"
  | uiToFp => "uitofp"
  | fpToSi => "fptosi"
  | fpToUi => "fptoui"
  | ptrToInt => "ptrtoint"
  | intToPtr => "inttoptr"
  | bitcast => "bitcast"

def commaSeparated (items : List String) : String := ", ".intercalate items

/-- The dots that follow the parameters of a variadic function. -/
def dots (variadic : Bool) : List String := if variadic then ["..."] else []

namespace Ty

mutual

def text : Ty → String
  | void => "void"
  | i1 => "i1"
  | i8 => "i8"
  | i16 => "i16"
  | i32 => "i32"
  | i64 => "i64"
  | f32 => "float"
  | f64 => "double"
  | ptr target => target.text ++ "*"
  | array size element => s!"[{size} x " ++ element.text ++ "]"
  | function ret params variadic =>
    ret.text ++ " (" ++ commaSeparated (texts params ++ dots variadic) ++ ")"
  | struct (some name) _ => "%" ++ name
  | struct none fields => "\x7b " ++ commaSeparated (texts fields) ++ " \x7d"
  | label => "label"

def texts : List Ty → List String
  | [] => []
  | ty :: rest => ty.text :: texts rest

end

end Ty

namespace Value

mutual

def text : Value → String
  | temp id => s!"%{id}"
  | const value => toString value.toInt
  | float value => floatText value
  | null => "null"
  | global name => "@" ++ name
  | function name => "@" ++ name
  | aggregate items => "[" ++ commaSeparated (texts items) ++ "]"
  | undef => "undef"

def texts : List Value → List String
  | [] => []
  | v :: rest => v.text :: texts rest

end

end Value

namespace Instr

def text : Instr → String
  | binary result op lhs rhs ty => s!"%{result} = {op.text} {ty.text} {lhs.text}, {rhs.text}"
  | unary result op operand ty => s!"%{result} = {op.text} {operand.text} to {ty.text}"
  | load result ptr ty => s!"%{result} = load {ty.text}, {ty.text}* {ptr.text}"
  | store value ptr ty => s!"store {ty.text} {value.text}, {ty.text}* {ptr.text}"
  | offset result ptr indices ty =>
    s!"%{result} = getelementptr " ++ commaSeparated (ptr.text :: indices.map Value.text)
      ++ " ; " ++ ty.text
  | alloca result slot _ => s!"%{result} = alloca {slot.text}"
  | call result callee args _ =>
    (match result with
      | some result => s!"%{result} = "
      | none => "") ++ s!"call {callee.text}(" ++ commaSeparated (args.map Value.text) ++ ")"
  | ret (some value) => "ret " ++ value.text
  | ret none => "ret void"
  | branch target => s!"br label %L{target}"
  | branchIf condition onTrue onFalse =>
    s!"br i1 {condition.text}, label %L{onTrue}, label %L{onFalse}"
  | phi result incoming ty =>
    let choices := incoming.map fun (value, label) => s!"[{value.text}, %L{label}]"
    s!"%{result} = phi {ty.text} " ++ commaSeparated choices
  | comment text => "; " ++ text

end Instr

def Block.text (b : Block) : String :=
  s!"L{b.id}:\n" ++ String.join (b.instrs.map fun i => "  " ++ i.text ++ "\n")

def Function.text (f : Function) : String :=
  let params := f.params.map fun (id, ty) => s!"{ty.text} %{id}"
  s!"define {f.ret.text} @{f.name}(" ++ commaSeparated (params ++ dots f.variadic) ++ ") \x7b\n"
    ++ String.join (f.blocks.map Block.text) ++ "\x7d\n"

def Global.text (g : Global) : String :=
  let kind := if g.isConstant then "constant" else "global"
  s!"@{g.name} = {kind} {g.ty.text}" ++ match g.init with
    | some init => " " ++ init.text
    | none => ""

def Module.text (m : Module) : String :=
  s!"; module {m.name}\n"
    ++ String.join (m.typeDefs.map fun (name, ty) => s!"%{name} = type {ty.text}\n")
    ++ String.join (m.globals.map fun g => g.text ++ "\n")
    ++ String.join (m.functions.map fun f => "\n" ++ f.text)

end TypedCore.Ir
