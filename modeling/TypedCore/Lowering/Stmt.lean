import TypedCore.Lowering.Expr
import TypedCore.Session.Declare

/-!
# Code for statements and functions

Statements are laid out as blocks that branch to each other. A block that ends in a jump of its own
is left as it is.
-/

namespace TypedCore

inductive Stmt where
  | expr (e : Expr)
  | ret (value : Option Expr)
  | decl (d : Declaration)
  | ifThen (cond : Expr) (body : List Stmt)
  | ifElse (cond : Expr) (thenBody elseBody : List Stmt)
  | loop (cond : Expr) (body : List Stmt)
  | block (body : List Stmt)
deriving Inhabited

namespace Lowering

/-! ### Declarations -/

def localDeclaration (t : TypeTable) (d : Declaration) : EmitM Unit := do
  let ir ← t.layout d.ty
  let address ← Emit.localVariable d.symbol d.name ir
  match d.init with
  | some e => storeInitializer t address e d.ty
  | none => return

/-- Globals are initialized before the program runs, so their initializers must be known. -/
def globalDeclaration (t : TypeTable) (d : Declaration) : EmitM Unit := do
  let ir ← t.layout d.ty
  let init ← match d.init with
    | some e => some <$> loadConstant t e
    | none => pure none
  let _ ← Emit.declareGlobal d.name ir init

def declaration (t : TypeTable) (d : Declaration) : EmitM Unit :=
  match d.storage with
  | .global => globalDeclaration t d
  | .automatic => localDeclaration t d
  | .function => return

/-! ### Statements -/

def expressionStatement (t : TypeTable) (e : Expr) : EmitM Unit := do
  let _ ← loadValue t e

def returnStatement (t : TypeTable) (value : Option Expr) : EmitM Unit := do
  let value ← match value with
    | some e => some <$> loadValue t e
    | none => pure none
  Emit.ret value

/-- Jump, unless control has left the block already. -/
def jumpIfOpen (label : LabelId) : EmitM Unit := do
  if (← get).isBlockOpen then
    Emit.jump label

def ifStatement (t : TypeTable) (cond : Expr) (body : EmitM Unit) : EmitM Unit := do
  let onTrue ← Emit.createLabel
  let done ← Emit.createLabel
  branchOn t cond onTrue done
  Emit.defineLabel onTrue
  body
  Emit.defineLabel done

def ifElseStatement (t : TypeTable) (cond : Expr) (thenBody elseBody : EmitM Unit) :
    EmitM Unit := do
  let onTrue ← Emit.createLabel
  let onFalse ← Emit.createLabel
  let done ← Emit.createLabel
  branchOn t cond onTrue onFalse
  Emit.defineLabel onTrue
  thenBody
  jumpIfOpen done
  Emit.defineLabel onFalse
  elseBody
  Emit.defineLabel done

def whileStatement (t : TypeTable) (cond : Expr) (body : EmitM Unit) : EmitM Unit := do
  let check ← Emit.createLabel
  let again ← Emit.createLabel
  let done ← Emit.createLabel
  Emit.defineLabel check
  branchOn t cond again done
  Emit.defineLabel again
  body
  jumpIfOpen check
  Emit.defineLabel done

mutual

def statement (t : TypeTable) : Stmt → EmitM Unit
  | .expr e => expressionStatement t e
  | .ret value => returnStatement t value
  | .decl d => declaration t d
  | .ifThen cond body => ifStatement t cond (statements t body)
  | .ifElse cond thenBody elseBody =>
    ifElseStatement t cond (statements t thenBody) (statements t elseBody)
  | .loop cond body => whileStatement t cond (statements t body)
  | .block body => statements t body

def statements (t : TypeTable) : List Stmt → EmitM Unit
  | [] => return
  | s :: rest => do
    statement t s
    statements t rest

end

/-! ### Functions -/

/-- Layouts of the parameters of a function. -/
def parameters (t : TypeTable) :
    List (SymbolId × String) → List TypeId → Except Fault (List Parameter)
  | (symbol, name) :: params, ty :: tys => do
    let ir ← t.layout ty
    return ⟨symbol, name, ir⟩ :: (← parameters t params tys)
  | _, _ => return []

/-- Start the body of a function of the given type; `params` are the symbols of its parameters. -/
def functionBegin (t : TypeTable) (name : String) (ty : TypeId)
    (params : List (SymbolId × String)) : EmitM Unit := do
  match t.shape ty with
  | .function ret tys variadic =>
    if tys.length ≠ params.length then
      throw (.unsupportedType (t.name ty))
    else
      let ret ← t.layout ret
      Emit.beginFunction name ret (← parameters t params tys) variadic
  | _ => throw (.unsupportedType (t.name ty))

def functionEnd : EmitM Unit := Emit.endFunction

end Lowering

end TypedCore
