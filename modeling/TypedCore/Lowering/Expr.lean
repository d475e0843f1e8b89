import TypedCore.Expr.Constant
import TypedCore.Expr.Text
import TypedCore.Lowering.Emitter
import TypedCore.Lowering.Layout

/-!
# Code for expressions

An expression can be asked for its value, for its address, to branch on its truth, and to initialize
an object. `lower` gives the code for all four at once, from that of its operands. Logical operators
are control flow: the right operand is reached only if the left one does not decide. Where their
value is wanted, the two ways meet in a block that merges a one and a zero.
-/

namespace TypedCore.Lowering

open Ir (Value)

/-- The code for an expression. -/
structure Code where
  value : EmitM Value
  address : EmitM Value
  /-- Go to the first label if the expression is true, else to the second. -/
  branch : LabelId → LabelId → EmitM Unit
  /-- Initialize the object of the given type at an address. -/
  init : Value → TypeId → EmitM Unit
  /-- The initializers of the elements of an expression in braces. -/
  elements : Option (List (Value → TypeId → EmitM Unit))

/-! ### Constants -/

mutual

/-- A constant of type `ty` as a value. -/
def constantValue (t : TypeTable) (ty : TypeId) : Constant → Except Fault Value
  | .integer value => do
    let _ ← t.layout ty
    return .const value
  | .float value => do
    let _ ← t.layout ty
    return .float value
  | .null => do return Emit.zero (← t.layout ty)
  | .aggregate items => do return .aggregate (← constantValues t ty 0 items)

/-- The elements of an aggregate of type `ty` from number `index` on. -/
def constantValues (t : TypeTable) (ty : TypeId) (index : Nat) :
    List Constant → Except Fault (List Value)
  | [] => return []
  | item :: rest => do
    let value ← constantValue t (← t.elementType ty index) item
    return value :: (← constantValues t ty (index + 1) rest)

end

/-- The value of an expression that is known without running it. -/
def loadConstant (t : TypeTable) (e : Expr) : EmitM Value := do
  match e.constant? t with
  | some c => constantValue t e.ty c
  | none => throw (.notAConstant (e.text t))

/-! ### Truth -/

/-- The bit that says whether a value of type `ty` is not zero. -/
def truth (t : TypeTable) (value : Value) (ty : TypeId) : EmitM Value := do
  if t.isBool ty then
    return value
  else
    let ir ← t.layout ty
    Emit.compare (if ir.isFloat then .fne else .ne) value (Emit.zero ir)

/-- Branch on a value. -/
def branchOnValue (t : TypeTable) (ty : TypeId) (value : EmitM Value) (onTrue onFalse : LabelId) :
    EmitM Unit := do
  let v ← value
  Emit.condJump (← truth t v ty) onTrue onFalse

/-- The value of a condition: one where it is true, zero where it is not. -/
def materialize (branch : LabelId → LabelId → EmitM Unit) : EmitM Value := do
  let onTrue ← Emit.createLabel
  let onFalse ← Emit.createLabel
  let done ← Emit.createLabel
  branch onTrue onFalse
  Emit.defineLabel onTrue
  Emit.jump done
  Emit.defineLabel onFalse
  Emit.jump done
  Emit.defineLabel done
  Emit.merge [(.const 1, onTrue), (.const 0, onFalse)] .i1

/-! ### Initializers -/

/-- The address of element or member number `index` of the object at `address`. -/
def partAddress (t : TypeTable) (ty : TypeId) (address : Value) (index : Nat) (element : Ir.Ty) :
    EmitM Value :=
  if t.isArray ty then Emit.elementAddress address (.const (Int64.ofNat index)) element
  else if t.isStruct ty then Emit.memberAddress address index element
  else return address

/-- Initialize the elements of the object of type `ty` at `address`, from number `index` on. -/
def initElements (t : TypeTable) (ty : TypeId) (address : Value) (index : Nat) :
    List (Value → TypeId → EmitM Unit) → EmitM Unit
  | [] => return
  | init :: rest => do
    let element ← t.elementType ty index
    let part ← partAddress t ty address index (← t.layout element)
    init part element
    initElements t ty address (index + 1) rest

/-- Initialize an object by elements in braces; those that are left out are zero. -/
def initAggregate (t : TypeTable) (elements : List (Value → TypeId → EmitM Unit))
    (address : Value) (ty : TypeId) : EmitM Unit := do
  let ir ← t.layout ty
  if elements.length < t.elementCount ty then
    Emit.store (Emit.zero ir) address ir
  initElements t ty address 0 elements

/-- Initialize an object by a value. -/
def initValue (t : TypeTable) (value : EmitM Value) (address : Value) (ty : TypeId) :
    EmitM Unit := do
  let ir ← t.layout ty
  Emit.store (← value) address ir

/-! ### From the code of the operands -/

/-- The code for an expression from what its kind of node does. A known value is not computed. -/
def Code.ofNode (t : TypeTable) (e : Expr) (value address : EmitM Value)
    (branch : LabelId → LabelId → EmitM Unit)
    (elements : Option (List (Value → TypeId → EmitM Unit))) : Code :=
  match e.constant? t with
  | some c =>
    let value : EmitM Value := constantValue t e.ty c
    { value, address, elements
      branch := fun onTrue onFalse => Emit.jump (if c.isTrue then onTrue else onFalse)
      init := initValue t value }
  | none =>
    { value, address, branch, elements
      init := match elements with
        | some elements => initAggregate t elements
        | none => initValue t value }

/-- The code for an expression that is no place in storage. -/
def Code.ofValue (t : TypeTable) (e : Expr) (value : EmitM Value) : Code :=
  Code.ofNode t e value (throw (.notAddressable (e.text t))) (branchOnValue t e.ty value) none

/-- The code for an expression that is a condition. -/
def Code.ofBranch (t : TypeTable) (e : Expr) (branch : LabelId → LabelId → EmitM Unit) : Code :=
  Code.ofNode t e (materialize branch) (throw (.notAddressable (e.text t))) branch none

/-- The code for a place in storage. -/
def Code.ofPlace (t : TypeTable) (e : Expr) (address : EmitM Value) : Code :=
  let value : EmitM Value := do
    let address ← address
    Emit.load address (← t.layout e.ty)
  Code.ofNode t e value address (branchOnValue t e.ty value) none

/-- The address of a struct or array; one without a place is first put into a temporary. -/
def objectAddress (t : TypeTable) (e : Expr) (code : Code) : EmitM Value := do
  if e.hasAddress then
    code.address
  else
    let ir ← t.layout e.ty
    let value ← code.value
    let slot ← Emit.temporary ir
    Emit.store value slot ir
    return slot

/-! ### Unary operations -/

/-- The operand converted to type `ty`. -/
def castValue (t : TypeTable) (child : Expr) (code : Code) (ty : TypeId) : EmitM Value := do
  if t.isBool ty && !t.isBool child.ty then
    truth t (← code.value) child.ty
  else if t.isArray child.ty && t.isPointer ty then
    objectAddress t child code
  else if t.isFunction child.ty then
    code.value
  else
    let value ← code.value
    match ← t.castOp child.ty ty with
    | some op => Emit.unary op value (← t.layout ty)
    | none => return value

def minusValue (t : TypeTable) (code : Code) (ty : TypeId) : EmitM Value := do
  let value ← code.value
  let ir ← t.layout ty
  Emit.unary (if ir.isFloat then .fneg else .neg) value ir

/-- The negation of a number keeps its type. -/
def notValue (t : TypeTable) (child : Expr) (code : Code) (ty : TypeId) : EmitM Value := do
  let value ← code.value
  let ir ← t.layout child.ty
  let isZero ← Emit.compare .eq value (Emit.zero ir)
  let out ← t.layout ty
  if out = .i1 then return isZero else Emit.unary .zext isZero out

/-- Increment or decrement in place. Written after the operand it has the old value. -/
def stepValue (t : TypeTable) (op : UnaryOp) (child : Expr) (code : Code) : EmitM Value := do
  let address ← code.address
  let ir ← t.layout child.ty
  let old ← Emit.load address ir
  let new ←
    if t.isPointer child.ty then
      let element ← t.targetLayout child.ty
      Emit.elementAddress old (.const (if op.isIncrement then 1 else -1)) element
    else
      Emit.arith (if op.isIncrement then .add else .sub) old (.const 1) ir
  Emit.store new address ir
  return if op.isPostfix then old else new

/-- What a pointer points to; a function is the same as its address. -/
def dereferenceCode (t : TypeTable) (e : Expr) (code : Code) : Code :=
  let value : EmitM Value := do
    let address ← code.value
    if t.isFunction e.ty then return address else Emit.load address (← t.layout e.ty)
  Code.ofNode t e value code.value (branchOnValue t e.ty value) none

/-- An inserted conversion to bool is decided as its operand is, and one between aggregates keeps
the elements in braces. -/
def castCode (t : TypeTable) (e child : Expr) (code : Code) : Code :=
  let value := castValue t child code e.ty
  let branch :=
    if t.isBool e.ty && (t.isInteger child.ty || t.isPointer child.ty) then code.branch
    else branchOnValue t e.ty value
  let elements := if t.isScalar child.ty then none else code.elements
  Code.ofNode t e value (throw (.notAddressable (e.text t))) branch elements

def notCode (t : TypeTable) (e child : Expr) (code : Code) : Code :=
  let branch := fun onTrue onFalse => code.branch onFalse onTrue
  let value := if t.isBool e.ty then materialize branch else notValue t child code e.ty
  Code.ofNode t e value (throw (.notAddressable (e.text t))) branch none

def unaryCode (t : TypeTable) (e : Expr) (op : UnaryOp) (child : Expr) (code : Code) : Code :=
  match op with
  | .cast => castCode t e child code
  | .explicitCast => Code.ofValue t e (castValue t child code e.ty)
  | .minus => Code.ofValue t e (minusValue t code e.ty)
  | .logicalNot => notCode t e child code
  | .dereference => dereferenceCode t e code
  | .addressOf => Code.ofValue t e code.address
  | .preIncrement | .postIncrement | .preDecrement | .postDecrement =>
    Code.ofValue t e (stepValue t op child code)

/-! ### Binary operations -/

/-- Arithmetic; offsets and differences of pointers count elements. -/
def arithmeticValue (t : TypeTable) (op : BinaryOp) (leftTy : TypeId) (l : Value)
    (rightTy : TypeId) (r : Value) (ty : TypeId) : EmitM Value := do
  if t.isPointer leftTy then
    let element ← t.targetLayout leftTy
    if t.isPointer rightTy then
      Emit.addressDifference l r element
    else
      let index ← if op = .sub then Emit.unary .neg r (← t.layout rightTy) else pure r
      Emit.elementAddress l index element
  else
    let ir ← t.layout ty
    Emit.arith (← t.arithmeticOp op ty) l r ir

def comparisonValue (t : TypeTable) (op : BinaryOp) (ty : TypeId) (l r : Value) :
    EmitM Value := do
  let _ ← t.layout ty
  match t.comparisonOp? op ty with
  | some irOp => Emit.compare irOp l r
  | none => throw (.unsupportedCast op.text (t.name ty))

def assignValue (t : TypeTable) (left right : Code) (ty : TypeId) : EmitM Value := do
  let address ← left.address
  let value ← right.value
  Emit.store value address (← t.layout ty)
  return value

/-- The destination of a compound assignment is evaluated once. -/
def compoundValue (t : TypeTable) (base : BinaryOp) (left : Expr) (leftCode : Code) (right : Expr)
    (rightCode : Code) : EmitM Value := do
  let address ← leftCode.address
  let ir ← t.layout left.ty
  let old ← Emit.load address ir
  let value ← rightCode.value
  let new ← arithmeticValue t base left.ty old right.ty value left.ty
  Emit.store new address ir
  return new

/-- The address of an element. The address of an array is that of its first element. -/
def indexAddress (t : TypeTable) (left : Expr) (leftCode rightCode : Code) (ty : TypeId) :
    EmitM Value := do
  let base ← if t.isArray left.ty then objectAddress t left leftCode else leftCode.value
  let index ← rightCode.value
  Emit.elementAddress base index (← t.layout ty)

/-- The right operand is reached only if the left one is true. -/
def andBranch (left right : Code) (onTrue onFalse : LabelId) : EmitM Unit := do
  let checkRight ← Emit.createLabel
  left.branch checkRight onFalse
  Emit.defineLabel checkRight
  right.branch onTrue onFalse

/-- The right operand is reached only if the left one is false. -/
def orBranch (left right : Code) (onTrue onFalse : LabelId) : EmitM Unit := do
  let checkRight ← Emit.createLabel
  left.branch onTrue checkRight
  Emit.defineLabel checkRight
  right.branch onTrue onFalse

def binaryCode (t : TypeTable) (e : Expr) (op : BinaryOp) (left : Expr) (leftCode : Code)
    (right : Expr) (rightCode : Code) : Code :=
  match op with
  | .assign => Code.ofValue t e (assignValue t leftCode rightCode e.ty)
  | .addAssign => Code.ofValue t e (compoundValue t .add left leftCode right rightCode)
  | .subAssign => Code.ofValue t e (compoundValue t .sub left leftCode right rightCode)
  | .mulAssign => Code.ofValue t e (compoundValue t .mul left leftCode right rightCode)
  | .divAssign => Code.ofValue t e (compoundValue t .div left leftCode right rightCode)
  | .modAssign => Code.ofValue t e (compoundValue t .mod left leftCode right rightCode)
  | .add | .sub | .mul | .div | .mod =>
    Code.ofValue t e do
      let l ← leftCode.value
      let r ← rightCode.value
      arithmeticValue t op left.ty l right.ty r e.ty
  | .equal | .notEqual | .less | .greater | .lessEqual | .greaterEqual =>
    Code.ofValue t e do
      let l ← leftCode.value
      let r ← rightCode.value
      comparisonValue t op left.ty l r
  | .logicalAnd => Code.ofBranch t e (andBranch leftCode rightCode)
  | .logicalOr => Code.ofBranch t e (orBranch leftCode rightCode)
  | .index => Code.ofPlace t e (indexAddress t left leftCode rightCode e.ty)

/-! ### Other nodes -/

/-- The label of the block that code goes to. -/
def currentLabel : EmitM LabelId := do
  match (← get).currentLabel? with
  | some label => return label
  | none => throw .noFunction

/-- A choice: each way leaves its value to the block where they meet. -/
def conditionalValue (t : TypeTable) (cond thenCode elseCode : Code) (ty : TypeId) :
    EmitM Value := do
  let onTrue ← Emit.createLabel
  let onFalse ← Emit.createLabel
  let done ← Emit.createLabel
  cond.branch onTrue onFalse
  Emit.defineLabel onTrue
  let a ← thenCode.value
  let fromThen ← currentLabel
  Emit.jump done
  Emit.defineLabel onFalse
  let b ← elseCode.value
  let fromElse ← currentLabel
  Emit.jump done
  Emit.defineLabel done
  if t.isVoid ty then
    return .undef
  else
    Emit.merge [(a, fromThen), (b, fromElse)] (← t.layout ty)

def valuesOf : List Code → EmitM (List Value)
  | [] => return []
  | code :: rest => do
    let value ← code.value
    return value :: (← valuesOf rest)

def callValue (t : TypeTable) (callee : Code) (args : List Code) (ty : TypeId) : EmitM Value := do
  let target ← callee.value
  let args ← valuesOf args
  return (← Emit.call target args (← t.layout ty)).getD .undef

def memberAddress (t : TypeTable) (object : Expr) (code : Code) (index : Nat) (ty : TypeId) :
    EmitM Value := do
  let base ← objectAddress t object code
  let _ ← t.layout object.ty
  Emit.memberAddress base index (← t.layout ty)

/-- Elements in braces are put into a temporary. -/
def aggregateValue (t : TypeTable) (elements : List Code) (ty : TypeId) : EmitM Value := do
  let ir ← t.layout ty
  let slot ← Emit.temporary ir
  initAggregate t (elements.map (·.init)) slot ty
  Emit.load slot ir

def literalCode (t : TypeTable) (e : Expr) : Literal → Code
  | .string text => Code.ofPlace t e (Emit.stringLiteral text)
  | _ => Code.ofValue t e (loadConstant t e)

def identifierCode (t : TypeTable) (e : Expr) (name : String) (symbol : SymbolId)
    (storage : Storage) : Code :=
  let address := Emit.symbolAddress symbol name storage
  if storage = .function then
    Code.ofNode t e address address (branchOnValue t e.ty address) none
  else
    Code.ofPlace t e address

def proxyCode (t : TypeTable) (e : Expr) (target : Code) : Code :=
  Code.ofNode t e target.value target.address target.branch target.elements

def aggregateCode (t : TypeTable) (e : Expr) (elements : List Code) : Code :=
  let value := aggregateValue t elements e.ty
  Code.ofNode t e value (throw (.notAddressable (e.text t))) (branchOnValue t e.ty value)
    (some (elements.map (·.init)))

/-! ### Expressions -/

mutual

def lower (t : TypeTable) : Expr → Code
  | .literal value note => literalCode t (.literal value note) value
  | .identifier name symbol storage bound note =>
    identifierCode t (.identifier name symbol storage bound note) name symbol storage
  | .proxy target note => proxyCode t (.proxy target note) (lower t target)
  | .unary op child note => unaryCode t (.unary op child note) op child (lower t child)
  | .binary op left right note =>
    binaryCode t (.binary op left right note) op left (lower t left) right (lower t right)
  | .conditional cond thenExpr elseExpr note =>
    Code.ofValue t (.conditional cond thenExpr elseExpr note)
      (conditionalValue t (lower t cond) (lower t thenExpr) (lower t elseExpr) note.ty)
  | .call callee args note =>
    Code.ofValue t (.call callee args note) (callValue t (lower t callee) (lowerAll t args) note.ty)
  | .member object name index note =>
    Code.ofPlace t (.member object name index note)
      (memberAddress t object (lower t object) index note.ty)
  | .aggregate elements note => aggregateCode t (.aggregate elements note) (lowerAll t elements)

def lowerAll (t : TypeTable) : List Expr → List Code
  | [] => []
  | e :: rest => lower t e :: lowerAll t rest

end

def loadValue (t : TypeTable) (e : Expr) : EmitM Value := (lower t e).value

def loadAddress (t : TypeTable) (e : Expr) : EmitM Value := (lower t e).address

def branchOn (t : TypeTable) (e : Expr) (onTrue onFalse : LabelId) : EmitM Unit :=
  (lower t e).branch onTrue onFalse

def storeInitializer (t : TypeTable) (address : Value) (e : Expr) (ty : TypeId) : EmitM Unit :=
  (lower t e).init address ty

end TypedCore.Lowering
