import TypedCore.Ir.Instruction
import TypedCore.Source.Span

/-!
# Functions and modules

A function is a list of basic blocks, the first of which is its entry. A module collects functions,
global variables and the layouts of named structs.
-/

namespace TypedCore.Ir

/-! ### Blocks -/

structure Block where
  id : LabelId
  instrs : List Instr := []
  predecessors : List LabelId := []
  successors : List LabelId := []
deriving Inhabited

namespace Block

def push (b : Block) (i : Instr) : Block :=
  { b with instrs := b.instrs ++ [i], successors := b.successors ++ i.successors }

def isEmpty (b : Block) : Bool := b.instrs.isEmpty

/-- The last instruction, if it leaves the block. -/
def terminator? (b : Block) : Option Instr := b.instrs.getLast?.filter Instr.isTerminator

def hasTerminator (b : Block) : Bool := b.terminator?.isSome

end Block

/-! ### Functions -/

structure Function where
  name : String
  ret : Ty
  params : List (TempId × Ty) := []
  blocks : List Block := []
  variadic : Bool := false
  span : Option Span := none
deriving Inhabited

/-- Change the first block with the given label. -/
def modifyBlock (id : LabelId) (f : Block → Block) : List Block → List Block
  | [] => []
  | b :: rest => if b.id = id then f b :: rest else b :: modifyBlock id f rest

namespace Function

def block? (f : Function) (id : LabelId) : Option Block := f.blocks.find? fun b => b.id == id

def entry? (f : Function) : Option Block := f.blocks.head?

/-- The transfers of control between blocks, in block order. -/
def edges (f : Function) : List (LabelId × LabelId) :=
  f.blocks.flatMap fun b => b.successors.map fun s => (b.id, s)

/-- Note in each block which blocks it is reached from. -/
def linkPredecessors (f : Function) : Function :=
  let cleared := f.blocks.map fun b => { b with predecessors := [] }
  let add (blocks : List Block) (edge : LabelId × LabelId) : List Block :=
    modifyBlock edge.2 (fun b =>
      if b.predecessors.contains edge.1 then b
      else { b with predecessors := b.predecessors ++ [edge.1] }) blocks
  { f with blocks := f.edges.foldl add cleared }

end Function

/-! ### Modules -/

/-- Who sees a global symbol. -/
inductive Linkage where
  | external
  | internal
  /-- made by the compiler, for the text of a string -/
  | hidden
deriving DecidableEq, Inhabited

structure Global where
  name : String
  ty : Ty
  isConstant : Bool
  init : Option Value
  linkage : Linkage
deriving Inhabited

/-- Layouts of named structs, in the order of their names. -/
abbrev TypeDefs := List (String × Ty)

namespace TypeDefs

def find? (defs : TypeDefs) (name : String) : Option Ty :=
  (List.find? (fun d => d.1 == name) defs).map (·.2)

/-- Define a name, in place of what it meant before. -/
def insert (defs : TypeDefs) (name : String) (ty : Ty) : TypeDefs :=
  match defs with
  | [] => [(name, ty)]
  | d :: rest =>
    if name < d.1 then (name, ty) :: d :: rest
    else if name = d.1 then (name, ty) :: rest
    else d :: insert rest name ty

mutual

/-- Define the named structs that a value of the given type contains, unless they are defined. -/
def record (defs : TypeDefs) : Ty → TypeDefs
  | .struct (some name) (field :: fields) =>
    let defs := recordAll (record defs field) fields
    if (defs.find? name).isSome then defs else defs.insert name (.struct (some name) (field :: fields))
  | .array _ element => record defs element
  | _ => defs

def recordAll (defs : TypeDefs) : List Ty → TypeDefs
  | [] => defs
  | ty :: rest => recordAll (record defs ty) rest

end

end TypeDefs

structure Module where
  name : String
  functions : List Function := []
  globals : List Global := []
  typeDefs : TypeDefs := []
deriving Inhabited

namespace Module

def addFunction (m : Module) (f : Function) : Module := { m with functions := m.functions ++ [f] }

def addGlobal (m : Module) (g : Global) : Module := { m with globals := m.globals ++ [g] }

def function? (m : Module) (name : String) : Option Function :=
  m.functions.find? fun f => f.name == name

def global? (m : Module) (name : String) : Option Global :=
  m.globals.find? fun g => g.name == name

/-- Give the first function of a name another one. -/
def renameFunction? (m : Module) (name newName : String) : Option Module :=
  match m.functions.findIdx? fun f => f.name == name with
  | some i => some { m with functions := m.functions.modify i fun f => { f with name := newName } }
  | none => none

end Module

end TypedCore.Ir
