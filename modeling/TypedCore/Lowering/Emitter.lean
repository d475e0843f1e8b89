import TypedCore.Expr.Basic
import TypedCore.Ir.Builder
import TypedCore.Ir.Text
import TypedCore.Lowering.Fault

/-!
# Emitting code

An `Emitter` builds a module one function at a time. It opens blocks as they are needed: code after
a jump goes to a new block that nothing leads to, and control falls from an open block into the next
label.
-/

namespace TypedCore

open Ir (Value)

/-- A parameter of a function that is being built. -/
structure Parameter where
  symbol : SymbolId
  name : String
  ty : Ir.Ty
deriving Inhabited

/-- What is needed of a function to close it. -/
structure FunctionHead where
  name : String
  ret : Ir.Ty
deriving Inhabited

structure Emitter where
  builder : Ir.Builder := {}
  module : Ir.Module
  /-- Slots of the variables of the current function, the newest first. -/
  locals : List (SymbolId × Value) := []
  current : Option FunctionHead := none
  nextString : Nat := 0
deriving Inhabited

/-- Where the construction of a function stands. -/
inductive FunctionState where
  | notBuilding
  | building (blockOpen : Bool)
deriving DecidableEq, Inhabited

abbrev EmitM := ExceptT Fault (StateM Emitter)

namespace Emitter

def new (moduleName : String) : Emitter where
  module := { name := moduleName }

def currentLabel? (e : Emitter) : Option LabelId := e.builder.current

/-- Whether there is a block that an instruction could be added to. -/
def acceptsInstr (e : Emitter) : Bool :=
  e.builder.current.isSome && !e.builder.isTerminated

def state (e : Emitter) : FunctionState :=
  match e.current with
  | none => .notBuilding
  | some _ => .building e.acceptsInstr

def isBlockOpen (e : Emitter) : Bool := e.state = .building true

end Emitter

namespace Emit

variable {α : Type}

/-- Work on the function under construction. -/
def build (x : Ir.BuilderM α) : EmitM α := ExceptT.mk fun e =>
  match x.run.run e.builder with
  | (.ok a, builder) => (.ok a, { e with builder })
  | (.error error, builder) => (.error (.builder error), { e with builder })

/-- Fail unless a function is being built. -/
def requireFunction : EmitM FunctionHead := do
  match (← get).current with
  | some head => return head
  | none => throw .noFunction

/-- Make sure that there is a block for the next instruction. -/
def openBlock : EmitM Unit := do
  let _ ← requireFunction
  if !(← get).acceptsInstr then
    build do Ir.BuilderM.startBlock (← .newLabel)

/-! ### Control flow -/

def createLabel : EmitM LabelId := build .newLabel

/-- Start the block of a label; control falls into it from an open block. -/
def defineLabel (label : LabelId) : EmitM Unit := do
  let _ ← requireFunction
  if (← get).isBlockOpen then
    build (.branch label)
  build (.startBlock label)

def jump (target : LabelId) : EmitM Unit := do
  openBlock
  build (.branch target)

def condJump (condition : Value) (onTrue onFalse : LabelId) : EmitM Unit := do
  openBlock
  build (.branchIf condition onTrue onFalse)

def ret (value : Option Value) : EmitM Unit := do
  openBlock
  build (.ret value)

/-! ### Storage -/

def load (address : Value) (ty : Ir.Ty) : EmitM Value := do
  openBlock
  return .temp (← build (.load address ty))

def store (value address : Value) (ty : Ir.Ty) : EmitM Unit := do
  openBlock
  build (.store value address ty)

/-- Put the structs that a type contains into the header of the module. -/
def recordType (ty : Ir.Ty) : EmitM Unit :=
  modify fun e => { e with module := { e.module with typeDefs := e.module.typeDefs.record ty } }

/-- A slot for a variable. -/
def localVariable (symbol : SymbolId) (name : String) (ty : Ir.Ty) : EmitM Value := do
  openBlock
  recordType ty
  build (.comment s!"{name}: {ty.text}")
  let slot ← build (.alloca ty)
  modify fun e => { e with locals := (symbol, slot) :: e.locals }
  return slot

/-- A slot without a name. -/
def temporary (ty : Ir.Ty) : EmitM Value := do
  openBlock
  recordType ty
  build (.alloca ty)

def symbolAddress (symbol : SymbolId) (name : String) : Storage → EmitM Value
  | .automatic => do
    match (← get).locals.lookup symbol with
    | some slot => return slot
    | none => throw (.undefinedVariable name)
  | .global => return .global name
  | .function => return .function name

/-- The address of a copy of a text, with a zero byte at its end. -/
def stringLiteral (text : String) : EmitM Value := do
  let e ← get
  let name := s!".str{e.nextString}"
  let bytes := text.toUTF8.toList.map (fun b => Value.const (Int64.ofNat b.toNat)) ++ [.const 0]
  let global : Ir.Global :=
    { name, ty := .array bytes.length .i8, isConstant := true, init := some (.aggregate bytes),
      linkage := .hidden }
  set { e with module := e.module.addGlobal global, nextString := e.nextString + 1 }
  return .global name

def declareGlobal (name : String) (ty : Ir.Ty) (init : Option Value) : EmitM Value := do
  recordType ty
  let global : Ir.Global := { name, ty, isConstant := false, init, linkage := .external }
  modify fun e => { e with module := e.module.addGlobal global }
  return .global name

/-! ### Values -/

def arith (op : Ir.BinOp) (a b : Value) (ty : Ir.Ty) : EmitM Value := do
  openBlock
  return .temp (← build (.binary op a b ty))

/-- The outcome of a comparison is a single bit. -/
def compare (op : Ir.BinOp) (a b : Value) : EmitM Value := do
  openBlock
  return .temp (← build (.binary op a b .i1))

def unary (op : Ir.UnOp) (a : Value) (ty : Ir.Ty) : EmitM Value := do
  openBlock
  return .temp (← build (.unary op a ty))

/-- The value that belongs to the block control came from. -/
def merge (incoming : List (Value × LabelId)) (ty : Ir.Ty) : EmitM Value := do
  openBlock
  return .temp (← build (.phi incoming ty))

/-- A call; one that returns nothing has no value. -/
def call (callee : Value) (args : List Value) (ty : Ir.Ty) : EmitM (Option Value) := do
  openBlock
  return (← build (.call callee args ty)).map .temp

/-- The zero of a type. -/
def zero : Ir.Ty → Value
  | .f32 => .float 0
  | .f64 => .float 0
  | .ptr _ => .null
  | .array .. => .aggregate []
  | .struct .. => .aggregate []
  | _ => .const 0

/-! ### Addresses -/

/-- `base` moved by `index` elements. -/
def elementAddress (base index : Value) (element : Ir.Ty) : EmitM Value := do
  openBlock
  build (.offset base [index] (.ptr element))

def memberAddress (base : Value) (index : Nat) (member : Ir.Ty) : EmitM Value := do
  openBlock
  build (.offset base [.const 0, .const (Int64.ofNat index)] (.ptr member))

/-- The number of elements between two addresses. -/
def addressDifference (a b : Value) (element : Ir.Ty) : EmitM Value := do
  match element.size? with
  | none => throw (.unsupportedType element.text)
  | some size =>
    let a ← unary .ptrToInt a .i64
    let b ← unary .ptrToInt b .i64
    let bytes ← arith .sub a b .i64
    if size = 1 then return bytes
    else arith .sdiv bytes (.const (Int64.ofNat size)) .i64

/-! ### Functions -/

/-- Give each parameter a slot and store it there; `index` is the number of the first. -/
def spill (index : Nat) : List Parameter → EmitM Unit
  | [] => return
  | p :: rest => do
    let slot ← localVariable p.symbol p.name p.ty
    build (.store (.temp index) slot p.ty)
    spill (index + 1) rest

/-- Open the entry block of a function and bind its parameters. -/
def beginFunction (name : String) (ret : Ir.Ty) (params : List Parameter) (variadic : Bool) :
    EmitM Unit := do
  match (← get).current with
  | some head => throw (.nestedFunction name head.name)
  | none =>
    modify fun e =>
      { e with
        builder := e.builder.startFunction name ret variadic
        current := some ⟨name, ret⟩
        locals := [] }
    build do Ir.BuilderM.startBlock (← .newLabel)
    modify fun e =>
      { e with
        builder := params.zipIdx.foldl (fun b (p, i) => b.addParameter i p.ty) e.builder }
    spill 0 params

/-- Forget the function under construction. -/
def leaveFunction (e : Emitter) : Emitter :=
  { e with builder := e.builder.finish.2, current := none, locals := [] }

/-- Drop the current block if nothing leads to it. -/
def discardIfUnreachable : EmitM Bool :=
  modifyGet fun e =>
    let (dropped, builder) := e.builder.discardIfUnreachable
    (dropped, { e with builder })

/-- Close the function and add it to the module. A function without result may fall off its end;
any other one must not, and is given up if it does. -/
def endFunction : EmitM Unit := do
  let head ← requireFunction
  if (← get).isBlockOpen then
    if !(← discardIfUnreachable) then
      if head.ret ≠ .void then
        modify leaveFunction
        throw (.missingReturn head.name)
      build (.ret none)
  match (← get).builder.finish.1 with
  | none => throw .noFunction
  | some f => modify fun e => leaveFunction { e with module := e.module.addFunction f }

end Emit

end TypedCore
