import TypedCore.Lowering.Expr
import TypedCore.Proofs.Machine.Execution

/-!
# The meaning of expressions

An evaluator for expressions over a `Machine`, with no code in between: operands are evaluated from
left to right, logical operators and choices evaluate only what they need, and known values are not
computed. An expression has no meaning where a type has no layout or a variable no slot, as it has no
code then.
-/

namespace TypedCore

open Ir (Value Ty BinOp UnOp)
open Lowering (constantValue)

namespace Machine

/-- An evaluation, which changes the world and may have no result. -/
abbrev RunM (M : Machine) := StateT M.World Option

/-- The slots of the variables. -/
abbrev Env (M : Machine) := SymbolId → Option M.Word

/-- The word of a value without temporaries. -/
def literal (M : Machine) (v : Value) : M.Word := word (fun _ => M.undef) v

namespace RunM

variable {M : Machine} {α : Type}

def lift (x : Except Fault α) : M.RunM α := fun ω => x.toOption.map fun a => (a, ω)

def binary (op : BinOp) (a b : M.Word) (ty : Ty) : M.RunM M.Word := return M.binary op a b ty

def unary (op : UnOp) (a : M.Word) (ty : Ty) : M.RunM M.Word := return M.unary op a ty

/-- The address of an element counted from `base`. -/
def element (base index : M.Word) (ty : Ty) : M.RunM M.Word :=
  return M.offset base [index] (.ptr ty)

def member (base : M.Word) (index : Nat) (ty : Ty) : M.RunM M.Word :=
  return M.offset base [M.int 0, M.int (Int64.ofNat index)] (.ptr ty)

def load (address : M.Word) (ty : Ty) : M.RunM M.Word := fun ω =>
  some (M.load ω.memory address ty, ω)

def store (value address : M.Word) (ty : Ty) : M.RunM Unit := fun ω =>
  some ((), { ω with memory := M.store ω.memory value address ty })

def alloca (ty : Ty) : M.RunM M.Word := fun ω =>
  some ((M.alloca ω.memory ty).1, { ω with memory := (M.alloca ω.memory ty).2 })

/-- A call of a function that returns nothing has no value. -/
def call (callee : M.Word) (args : List M.Word) (ty : Ty) : M.RunM M.Word := fun ω =>
  let (w, ω') := ω.call callee args ty
  some (if ty = .void then M.undef else w, ω')

end RunM

/-- What an expression does when it is asked for its value, for its address, for its truth, and to
initialize an object. -/
structure Meaning (M : Machine) where
  value : M.RunM M.Word
  address : M.RunM M.Word
  truth : M.RunM Bool
  init : M.Word → TypeId → M.RunM Unit
  elements : Option (List (M.Word → TypeId → M.RunM Unit))

end Machine

namespace Eval

open Machine

variable {M : Machine} (t : TypeTable)

/-! ### Truth -/

/-- The bit that says whether a word of type `ty` is not zero. -/
def truth (w : M.Word) (ty : TypeId) : M.RunM M.Word := do
  if t.isBool ty then
    return w
  else
    let ir ← .lift (t.layout ty)
    .binary (if ir.isFloat then .fne else .ne) w (M.literal (Emit.zero ir)) .i1

def truthOfValue (ty : TypeId) (value : M.RunM M.Word) : M.RunM Bool := do
  let w ← value
  return M.isTrue (← truth t w ty)

/-- Truth as a word. -/
def bit (b : M.RunM Bool) : M.RunM M.Word := do
  return M.int (if ← b then 1 else 0)

/-! ### Initializers -/

def partAddress (ty : TypeId) (address : M.Word) (index : Nat) (element : Ty) : M.RunM M.Word :=
  if t.isArray ty then .element address (M.int (Int64.ofNat index)) element
  else if t.isStruct ty then .member address index element
  else return address

def initElements (ty : TypeId) (address : M.Word) (index : Nat) :
    List (M.Word → TypeId → M.RunM Unit) → M.RunM Unit
  | [] => return
  | init :: rest => do
    let element ← .lift (t.elementType ty index)
    let part ← partAddress t ty address index (← .lift (t.layout element))
    init part element
    initElements ty address (index + 1) rest

def initAggregate (elements : List (M.Word → TypeId → M.RunM Unit)) (address : M.Word)
    (ty : TypeId) : M.RunM Unit := do
  let ir ← .lift (t.layout ty)
  if elements.length < t.elementCount ty then
    .store (M.literal (Emit.zero ir)) address ir
  initElements t ty address 0 elements

def initValue (value : M.RunM M.Word) (address : M.Word) (ty : TypeId) : M.RunM Unit := do
  let ir ← .lift (t.layout ty)
  .store (← value) address ir

/-! ### Nodes -/

/-- The meaning of an expression from what its kind of node does. -/
def node (e : Expr) (value address : M.RunM M.Word) (truth : M.RunM Bool)
    (elements : Option (List (M.Word → TypeId → M.RunM Unit))) : M.Meaning :=
  match e.constant? t with
  | some c =>
    let value : M.RunM M.Word := do return M.literal (← .lift (constantValue t e.ty c))
    { value, address, elements
      truth := return c.isTrue
      init := initValue t value }
  | none =>
    { value, address, truth, elements
      init := match elements with
        | some elements => initAggregate t elements
        | none => initValue t value }

def ofValue (e : Expr) (value : M.RunM M.Word) : M.Meaning :=
  node t e value failure (truthOfValue t e.ty value) none

def ofTruth (e : Expr) (truth : M.RunM Bool) : M.Meaning :=
  node t e (bit truth) failure truth none

def ofPlace (e : Expr) (address : M.RunM M.Word) : M.Meaning :=
  let value : M.RunM M.Word := do
    let address ← address
    .load address (← .lift (t.layout e.ty))
  node t e value address (truthOfValue t e.ty value) none

/-- The address of a struct or array; one without a place is first put into a new slot. -/
def objectAddress (e : Expr) (m : M.Meaning) : M.RunM M.Word := do
  if e.hasAddress then
    m.address
  else
    let ir ← .lift (t.layout e.ty)
    let w ← m.value
    let slot ← .alloca ir
    .store w slot ir
    return slot

/-! ### Unary operations -/

def cast (child : Expr) (m : M.Meaning) (ty : TypeId) : M.RunM M.Word := do
  if t.isBool ty && !t.isBool child.ty then
    truth t (← m.value) child.ty
  else if t.isArray child.ty && t.isPointer ty then
    objectAddress t child m
  else if t.isFunction child.ty then
    m.value
  else
    let w ← m.value
    match ← .lift (t.castOp child.ty ty) with
    | some op => .unary op w (← .lift (t.layout ty))
    | none => return w

def minus (m : M.Meaning) (ty : TypeId) : M.RunM M.Word := do
  let w ← m.value
  let ir ← .lift (t.layout ty)
  .unary (if ir.isFloat then .fneg else .neg) w ir

def logicalNot (child : Expr) (m : M.Meaning) (ty : TypeId) : M.RunM M.Word := do
  let w ← m.value
  let ir ← .lift (t.layout child.ty)
  let isZero ← .binary .eq w (M.literal (Emit.zero ir)) .i1
  let out ← .lift (t.layout ty)
  if out = .i1 then return isZero else .unary .zext isZero out

/-- Increment or decrement in place. -/
def step (op : UnaryOp) (child : Expr) (m : M.Meaning) : M.RunM M.Word := do
  let address ← m.address
  let ir ← .lift (t.layout child.ty)
  let old ← .load address ir
  let new ←
    if t.isPointer child.ty then
      let element ← .lift (t.targetLayout child.ty)
      .element old (M.int (if op.isIncrement then 1 else -1)) element
    else
      .binary (if op.isIncrement then .add else .sub) old (M.int 1) ir
  .store new address ir
  return if op.isPostfix then old else new

def dereference (e : Expr) (m : M.Meaning) : M.Meaning :=
  let value : M.RunM M.Word := do
    let address ← m.value
    if t.isFunction e.ty then return address else .load address (← .lift (t.layout e.ty))
  node t e value m.value (truthOfValue t e.ty value) none

/-- An inserted conversion to bool is as true as its operand. -/
def inserted (e child : Expr) (m : M.Meaning) : M.Meaning :=
  let value := cast t child m e.ty
  let truth :=
    if t.isBool e.ty && (t.isInteger child.ty || t.isPointer child.ty) then m.truth
    else truthOfValue t e.ty value
  node t e value failure truth (if t.isScalar child.ty then none else m.elements)

def negation (e child : Expr) (m : M.Meaning) : M.Meaning :=
  let truth : M.RunM Bool := do return !(← m.truth)
  node t e (if t.isBool e.ty then bit truth else logicalNot t child m e.ty) failure truth none

def unary (e : Expr) (op : UnaryOp) (child : Expr) (m : M.Meaning) : M.Meaning :=
  match op with
  | .cast => inserted t e child m
  | .explicitCast => ofValue t e (cast t child m e.ty)
  | .minus => ofValue t e (minus t m e.ty)
  | .logicalNot => negation t e child m
  | .dereference => dereference t e m
  | .addressOf => ofValue t e m.address
  | .preIncrement | .postIncrement | .preDecrement | .postDecrement =>
    ofValue t e (step t op child m)

/-! ### Binary operations -/

/-- The number of elements between two addresses. -/
def difference (a b : M.Word) (element : Ty) : M.RunM M.Word :=
  match element.size? with
  | none => failure
  | some size => do
    let a ← .unary .ptrToInt a .i64
    let b ← .unary .ptrToInt b .i64
    let bytes ← .binary .sub a b .i64
    if size = 1 then return bytes
    else .binary .sdiv bytes (M.int (Int64.ofNat size)) .i64

def arithmetic (op : BinaryOp) (leftTy : TypeId) (l : M.Word) (rightTy : TypeId) (r : M.Word)
    (ty : TypeId) : M.RunM M.Word := do
  if t.isPointer leftTy then
    let element ← .lift (t.targetLayout leftTy)
    if t.isPointer rightTy then
      difference l r element
    else
      let index ← if op = .sub then .unary .neg r (← .lift (t.layout rightTy)) else pure r
      .element l index element
  else
    let ir ← .lift (t.layout ty)
    .binary (← .lift (t.arithmeticOp op ty)) l r ir

def comparison (op : BinaryOp) (ty : TypeId) (l r : M.Word) : M.RunM M.Word := do
  let _ ← .lift (t.layout ty)
  match t.comparisonOp? op ty with
  | some irOp => .binary irOp l r .i1
  | none => failure

def assign (left right : M.Meaning) (ty : TypeId) : M.RunM M.Word := do
  let address ← left.address
  let w ← right.value
  .store w address (← .lift (t.layout ty))
  return w

/-- The destination of a compound assignment is evaluated once, and read before the right operand is
evaluated. -/
def compound (base : BinaryOp) (left : Expr) (lm : M.Meaning) (right : Expr) (rm : M.Meaning) :
    M.RunM M.Word := do
  let address ← lm.address
  let ir ← .lift (t.layout left.ty)
  let old ← .load address ir
  let w ← rm.value
  let new ← arithmetic t base left.ty old right.ty w left.ty
  .store new address ir
  return new

def index (left : Expr) (lm rm : M.Meaning) (ty : TypeId) : M.RunM M.Word := do
  let base ← if t.isArray left.ty then objectAddress t left lm else lm.value
  let i ← rm.value
  .element base i (← .lift (t.layout ty))

def conjunction (left right : M.Meaning) : M.RunM Bool := do
  if ← left.truth then right.truth else return false

def disjunction (left right : M.Meaning) : M.RunM Bool := do
  if ← left.truth then return true else right.truth

def binary (e : Expr) (op : BinaryOp) (left : Expr) (lm : M.Meaning) (right : Expr)
    (rm : M.Meaning) : M.Meaning :=
  match op with
  | .assign => ofValue t e (assign t lm rm e.ty)
  | .addAssign => ofValue t e (compound t .add left lm right rm)
  | .subAssign => ofValue t e (compound t .sub left lm right rm)
  | .mulAssign => ofValue t e (compound t .mul left lm right rm)
  | .divAssign => ofValue t e (compound t .div left lm right rm)
  | .modAssign => ofValue t e (compound t .mod left lm right rm)
  | .add | .sub | .mul | .div | .mod =>
    ofValue t e do
      let l ← lm.value
      let r ← rm.value
      arithmetic t op left.ty l right.ty r e.ty
  | .equal | .notEqual | .less | .greater | .lessEqual | .greaterEqual =>
    ofValue t e do
      let l ← lm.value
      let r ← rm.value
      comparison t op left.ty l r
  | .logicalAnd => ofTruth t e (conjunction lm rm)
  | .logicalOr => ofTruth t e (disjunction lm rm)
  | .index => ofPlace t e (index t left lm rm e.ty)

/-! ### Other nodes -/

/-- Only one of two expressions is evaluated. -/
def chosen (cond a b : M.Meaning) : M.RunM M.Word := do
  if ← cond.truth then a.value else b.value

def choice (cond a b : M.Meaning) (ty : TypeId) : M.RunM M.Word := do
  let w ← chosen cond a b
  if t.isVoid ty then
    return M.undef
  else
    let _ ← .lift (t.layout ty)
    return w

def valuesOf : List M.Meaning → M.RunM (List M.Word)
  | [] => return []
  | m :: rest => do
    let w ← m.value
    return w :: (← valuesOf rest)

def call (callee : M.Meaning) (args : List M.Meaning) (ty : TypeId) : M.RunM M.Word := do
  let f ← callee.value
  let ws ← valuesOf args
  .call f ws (← .lift (t.layout ty))

def memberAddress (object : Expr) (m : M.Meaning) (index : Nat) (ty : TypeId) : M.RunM M.Word := do
  let base ← objectAddress t object m
  let _ ← .lift (t.layout object.ty)
  .member base index (← .lift (t.layout ty))

def aggregate (elements : List M.Meaning) (ty : TypeId) : M.RunM M.Word := do
  let ir ← .lift (t.layout ty)
  let slot ← .alloca ir
  initAggregate t (elements.map (·.init)) slot ty
  .load slot ir

/-- The word of a value that is known. -/
def known (e : Expr) : M.RunM M.Word :=
  match e.constant? t with
  | some c => do return M.literal (← .lift (constantValue t e.ty c))
  | none => failure

def ofLiteral (e : Expr) : Literal → M.Meaning
  | .string text => ofPlace t e (return M.text text)
  | _ => ofValue t e (known t e)

variable (env : M.Env)

def symbolAddress (symbol : SymbolId) (name : String) : Storage → M.RunM M.Word
  | .automatic => fun ω => (env symbol).map fun w => (w, ω)
  | .global => return M.global name
  | .function => return M.function name

def ofIdentifier (e : Expr) (name : String) (symbol : SymbolId) (storage : Storage) : M.Meaning :=
  let address := symbolAddress env symbol name storage
  if storage = .function then node t e address address (truthOfValue t e.ty address) none
  else ofPlace t e address

def ofAggregate (e : Expr) (elements : List M.Meaning) : M.Meaning :=
  let value := aggregate t elements e.ty
  node t e value failure (truthOfValue t e.ty value) (some (elements.map (·.init)))

/-! ### Expressions -/

mutual

def meaning : Expr → M.Meaning
  | .literal value note => ofLiteral t (.literal value note) value
  | .identifier name symbol storage bound note =>
    ofIdentifier t env (.identifier name symbol storage bound note) name symbol storage
  | .proxy target note =>
    let m := meaning target
    node t (.proxy target note) m.value m.address m.truth m.elements
  | .unary op child note => unary t (.unary op child note) op child (meaning child)
  | .binary op left right note =>
    binary t (.binary op left right note) op left (meaning left) right (meaning right)
  | .conditional cond thenExpr elseExpr note =>
    ofValue t (.conditional cond thenExpr elseExpr note)
      (choice t (meaning cond) (meaning thenExpr) (meaning elseExpr) note.ty)
  | .call callee args note =>
    ofValue t (.call callee args note) (call t (meaning callee) (meanings args) note.ty)
  | .member object name index note =>
    ofPlace t (.member object name index note)
      (memberAddress t object (meaning object) index note.ty)
  | .aggregate elements note => ofAggregate t (.aggregate elements note) (meanings elements)

def meanings : List Expr → List M.Meaning
  | [] => []
  | e :: rest => meaning e :: meanings rest

end

end Eval

end TypedCore
