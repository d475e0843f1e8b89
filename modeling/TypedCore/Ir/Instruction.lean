import TypedCore.Ir.Type
import TypedCore.Supply

/-!
# Instructions

Values, operations and instructions of the intermediate representation. An instruction that leaves
its block is a terminator.
-/

namespace TypedCore.Ir

inductive BinOp where
  | add
  | sub
  | mul
  | sdiv
  | udiv
  | srem
  | urem
  | fadd
  | fsub
  | fmul
  | fdiv
  | frem
  | eq
  | ne
  | slt
  | sle
  | sgt
  | sge
  | ult
  | ule
  | ugt
  | uge
  | feq
  | fne
  | flt
  | fle
  | fgt
  | fge
deriving DecidableEq, Inhabited

def BinOp.isComparison : BinOp → Bool
  | eq | ne | slt | sle | sgt | sge | ult | ule | ugt | uge | feq | fne | flt | fle | fgt | fge =>
    true
  | _ => false

/-- Negation and the conversions of values. -/
inductive UnOp where
  | neg
  | fneg
  | zext
  | sext
  | trunc
  | fpExt
  | fpTrunc
  | siToFp
  | uiToFp
  | fpToSi
  | fpToUi
  | ptrToInt
  | intToPtr
  | bitcast
deriving DecidableEq, Inhabited

inductive Value where
  | temp (id : TempId)
  | const (value : Int64)
  | float (value : Float)
  | null
  | global (name : String)
  | function (name : String)
  | aggregate (items : List Value)
  | undef
deriving Inhabited

namespace Value

mutual

/-- Whether a value is known before the program runs. -/
def isConstant : Value → Bool
  | const _ => true
  | float _ => true
  | null => true
  | aggregate items => allConstant items
  | _ => false

def allConstant : List Value → Bool
  | [] => true
  | v :: rest => v.isConstant && allConstant rest

end

end Value

inductive Instr where
  | binary (result : TempId) (op : BinOp) (lhs rhs : Value) (ty : Ty)
  | unary (result : TempId) (op : UnOp) (operand : Value) (ty : Ty)
  | load (result : TempId) (ptr : Value) (ty : Ty)
  | store (value ptr : Value) (ty : Ty)
  /-- The address that is the given elements away from `ptr`. -/
  | offset (result : TempId) (ptr : Value) (indices : List Value) (ty : Ty)
  /-- A new slot for a value of type `slot`; `ty` is the type of its address. -/
  | alloca (result : TempId) (slot ty : Ty)
  | call (result : Option TempId) (callee : Value) (args : List Value) (ty : Ty)
  | ret (value : Option Value)
  | branch (target : LabelId)
  | branchIf (condition : Value) (onTrue onFalse : LabelId)
  /-- The value that belongs to the block control came from. -/
  | phi (result : TempId) (incoming : List (Value × LabelId)) (ty : Ty)
  | comment (text : String)
deriving Inhabited

namespace Instr

def isTerminator : Instr → Bool
  | ret _ | branch _ | branchIf .. => true
  | _ => false

/-- The blocks that control may go to from an instruction. -/
def successors : Instr → List LabelId
  | branch target => [target]
  | branchIf _ onTrue onFalse => [onTrue, onFalse]
  | _ => []

/-- The temporary that an instruction defines. -/
def result? : Instr → Option TempId
  | binary result .. => some result
  | unary result .. => some result
  | load result .. => some result
  | offset result .. => some result
  | alloca result .. => some result
  | call result .. => result
  | phi result .. => some result
  | _ => none

end Instr

end TypedCore.Ir
