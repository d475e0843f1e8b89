import TypedCore.Ir.Function

/-!
# Building functions

A `Builder` holds the function under construction and the block that instructions go to. Labels are
numbered for the whole builder, temporaries anew in every function. A refused call leaves the
function as it was, though it may use up a temporary.
-/

namespace TypedCore.Ir

inductive BuildError where
  | noFunction
  | noBlock
  | blockMissing
  | labelDefinedTwice (label : LabelId)
  | alreadyTerminated (label : LabelId)
deriving DecidableEq, Inhabited

def BuildError.message : BuildError → String
  | noFunction => "No current function"
  | noBlock => "No current block"
  | blockMissing => "Current block not found"
  | labelDefinedTwice label => s!"Label L{label} defined twice"
  | alreadyTerminated label => s!"Block L{label} is already terminated"

structure Builder where
  function : Option Function := none
  current : Option LabelId := none
  temps : Supply := {}
  labels : Supply := {}
deriving Inhabited

abbrev BuilderM := ExceptT BuildError (StateM Builder)

namespace Builder

/-! ### Questions -/

def currentBlock? (b : Builder) : Option Block := do
  let f ← b.function
  f.block? (← b.current)

def isTerminated (b : Builder) : Bool :=
  match b.currentBlock? with
  | some block => block.hasTerminator
  | none => false

/-! ### Functions and blocks -/

/-- Start a function, in place of any that was under construction. -/
def startFunction (name : String) (ret : Ty) (variadic : Bool) (b : Builder) : Builder :=
  { b with function := some { name, ret, variadic }, current := none, temps := {} }

/-- Add a parameter; its number is not used for a temporary. -/
def addParameter (id : TempId) (ty : Ty) (b : Builder) : Builder :=
  match b.function with
  | none => b
  | some f =>
    { b with function := some { f with params := f.params ++ [(id, ty)] }
             temps := b.temps.reserve id }

/-- Drop the current block if nothing leads to it: it is empty, not the entry, and no block branches
to it. -/
def discardIfUnreachable (b : Builder) : Bool × Builder :=
  match b.function, b.current with
  | some f, some label =>
    let isEntry := f.entry?.any fun block => block.id == label
    let isEmpty := (f.block? label).any Block.isEmpty
    let isTarget := f.blocks.any fun block => block.successors.contains label
    if isEntry || !isEmpty || isTarget then
      (false, b)
    else
      let blocks := f.blocks.filter fun block => block.id != label
      (true, { b with function := some { f with blocks }, current := none })
  | _, _ => (false, b)

/-- Take the function out of the builder. -/
def finish (b : Builder) : Option Function × Builder :=
  (b.function.map Function.linkPredecessors, { b with function := none, current := none })

end Builder

namespace BuilderM

def newTemp : BuilderM TempId :=
  modifyGet fun b =>
    let (id, temps) := b.temps.fresh
    (id, { b with temps })

def newLabel : BuilderM LabelId :=
  modifyGet fun b =>
    let (id, labels) := b.labels.fresh
    (id, { b with labels })

/-- Add an empty block and continue in it. -/
def startBlock (label : LabelId) : BuilderM Unit := do
  let b ← get
  match b.function with
  | none => throw .noFunction
  | some f =>
    if (f.block? label).isSome then
      throw (.labelDefinedTwice label)
    else
      let blocks := f.blocks ++ [⟨label, [], [], []⟩]
      set { b with function := some { f with blocks }, current := some label }

/-! ### Instructions -/

/-- Add an instruction to the current block, unless it is terminated. -/
def emit (i : Instr) : BuilderM Unit := do
  let b ← get
  match b.function, b.current with
  | none, _ => throw .noFunction
  | some _, none => throw .noBlock
  | some f, some label =>
    match f.block? label with
    | none => throw .blockMissing
    | some block =>
      if block.hasTerminator then
        throw (.alreadyTerminated label)
      else
        set { b with function := some { f with blocks := modifyBlock label (·.push i) f.blocks } }

/-- Add an instruction that defines a new temporary. -/
def emitTemp (i : TempId → Instr) : BuilderM TempId := do
  let result ← newTemp
  emit (i result)
  return result

def binary (op : BinOp) (lhs rhs : Value) (ty : Ty) : BuilderM TempId :=
  emitTemp fun result => .binary result op lhs rhs ty

def unary (op : UnOp) (operand : Value) (ty : Ty) : BuilderM TempId :=
  emitTemp fun result => .unary result op operand ty

def load (ptr : Value) (ty : Ty) : BuilderM TempId :=
  emitTemp fun result => .load result ptr ty

def store (value ptr : Value) (ty : Ty) : BuilderM Unit := emit (.store value ptr ty)

def alloca (slot : Ty) : BuilderM Value :=
  Value.temp <$> emitTemp fun result => .alloca result slot (.ptr slot)

def offset (ptr : Value) (indices : List Value) (ty : Ty) : BuilderM Value :=
  Value.temp <$> emitTemp fun result => .offset result ptr indices ty

/-- A call of a function that returns nothing defines no temporary. -/
def call (callee : Value) (args : List Value) (ty : Ty) : BuilderM (Option TempId) :=
  if ty = .void then do
    emit (.call none callee args ty)
    return none
  else
    some <$> emitTemp fun result => .call (some result) callee args ty

def phi (incoming : List (Value × LabelId)) (ty : Ty) : BuilderM TempId :=
  emitTemp fun result => .phi result incoming ty

def ret (value : Option Value) : BuilderM Unit := emit (.ret value)

def branch (target : LabelId) : BuilderM Unit := emit (.branch target)

def branchIf (condition : Value) (onTrue onFalse : LabelId) : BuilderM Unit :=
  emit (.branchIf condition onTrue onFalse)

def comment (text : String) : BuilderM Unit := emit (.comment text)

end BuilderM

end TypedCore.Ir
