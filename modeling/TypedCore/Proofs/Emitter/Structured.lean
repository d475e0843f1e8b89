import TypedCore.Proofs.Emitter.Faults
import TypedCore.Proofs.Emitter.Growth

/-!
# The code of expressions is structured

`Emits k x` lists the patterns that the code of expressions is made of: single instructions, the
logical operators, and the two places where control splits and meets again. A computation with exit
`.falls` leaves control where its code ends, one with exit `.goes onTrue onFalse` leaves by a jump to
one of the two labels. Every code of an expression is of this form (`lower_structured`), so a property
of generated code is proved once for each pattern.
-/

namespace TypedCore

open Ir Lowering

/-- Instructions that stand in the middle of a block. -/
def Ir.Instr.isPlain : Instr → Bool
  | .phi .. => false
  | i => !i.isTerminator

/-- How control leaves a piece of code. -/
inductive Exit where
  | falls
  | goes (onTrue onFalse : LabelId)

inductive Emits : Exit → {α : Type} → EmitM α → Prop
  | pure {α : Type} (a : α) : Emits .falls (pure a)
  | throw {α : Type} (k : Exit) (f : Fault) (hf : f.isOfProgram = true) : Emits k (throw f : EmitM α)
  | lift {α : Type} (y : Except Fault α) (hy : BlamesType y) : Emits .falls (liftM y)
  | bind {α β : Type} {k : Exit} {x : EmitM α} {f : α → EmitM β} (hx : Emits .falls x)
      (hf : ∀ a, Emits k (f a)) : Emits k (x >>= f)
  | instr (i : Instr) (hi : i.isPlain = true) :
      Emits .falls (Emit.openBlock >>= fun _ => Emit.build (.emit i))
  | temp (i : TempId → Instr) (hi : ∀ r, (i r).isPlain = true) :
      Emits .falls (Emit.openBlock >>= fun _ => Emit.build (.emitTemp i))
  | slot (ty : Ty) : Emits .falls (Emit.temporary ty)
  | symbol (id : SymbolId) (name : String) (storage : Storage) :
      Emits .falls (Emit.symbolAddress id name storage)
  | text (text : String) : Emits .falls (Emit.stringLiteral text)
  /-- The two ways of a condition meet in a block that merges a one and a zero. -/
  | materialize {branch : LabelId → LabelId → EmitM Unit}
      (hb : ∀ onTrue onFalse, Emits (.goes onTrue onFalse) (branch onTrue onFalse)) :
      Emits .falls (materialize branch)
  /-- The two ways of a choice meet in a block that merges their values. -/
  | choice {t : TypeTable} {cond a b : Code} {ty : TypeId}
      (hc : ∀ onTrue onFalse, Emits (.goes onTrue onFalse) (cond.branch onTrue onFalse))
      (ha : Emits .falls a.value) (hb : Emits .falls b.value) :
      Emits .falls (conditionalValue t cond a b ty)
  | jump {target onTrue onFalse : LabelId} (h : target = onTrue ∨ target = onFalse) :
      Emits (.goes onTrue onFalse) (Emit.jump target)
  | condJump (v : Value) (onTrue onFalse : LabelId) :
      Emits (.goes onTrue onFalse) (Emit.condJump v onTrue onFalse)
  | swap {α : Type} {onTrue onFalse : LabelId} {x : EmitM α} (h : Emits (.goes onTrue onFalse) x) :
      Emits (.goes onFalse onTrue) x
  | both {left right : Code} (onTrue onFalse : LabelId)
      (hl : ∀ onTrue onFalse, Emits (.goes onTrue onFalse) (left.branch onTrue onFalse))
      (hr : ∀ onTrue onFalse, Emits (.goes onTrue onFalse) (right.branch onTrue onFalse)) :
      Emits (.goes onTrue onFalse) (andBranch left right onTrue onFalse)
  | either {left right : Code} (onTrue onFalse : LabelId)
      (hl : ∀ onTrue onFalse, Emits (.goes onTrue onFalse) (left.branch onTrue onFalse))
      (hr : ∀ onTrue onFalse, Emits (.goes onTrue onFalse) (right.branch onTrue onFalse)) :
      Emits (.goes onTrue onFalse) (orBranch left right onTrue onFalse)

theorem grows_currentLabel : Emit.Grows currentLabel := by
  refine .get_bind fun s => ?_
  split
  · exact .pure _
  · exact .throw _

theorem currentLabel_ends {s s' : Emitter} {l : LabelId} (h : Ends currentLabel s (.ok l) s') :
    s' = s ∧ s.builder.current = some l := by
  rw [currentLabel, Ends.get_bind_iff] at h
  split at h
  · rename_i l' hl
    obtain ⟨hl', rfl⟩ := Ends.pure_iff.1 h
    cases hl'
    exact ⟨rfl, hl⟩
  · cases (Ends.throw_iff.1 h).1

theorem defineLabel_current {s s' : Emitter} {l : LabelId}
    (h : Ends (Emit.defineLabel l) s (.ok ()) s') : s'.builder.current = some l := by
  obtain ⟨-, -, -, -, rfl⟩ | ⟨-, -, -, -, rfl⟩ | ⟨e, h, -⟩ := Emit.defineLabel_ends h
  · rfl
  · rfl
  · cases h

namespace Emits

variable {α β : Type}

/-! ### Single instructions -/

theorem temp_bind {i : TempId → Instr} {f : TempId → EmitM β} (hi : ∀ r, (i r).isPlain = true)
    (hf : ∀ r, Emits .falls (f r)) :
    Emits .falls (Emit.openBlock >>= fun _ => Emit.build (.emitTemp i) >>= f) := by
  rw [← bind_assoc]
  exact .bind (.temp i hi) hf

theorem load (address : Value) (ty : Ty) : Emits .falls (Emit.load address ty) :=
  temp_bind (fun _ => rfl) fun _ => .pure _

theorem store (value address : Value) (ty : Ty) : Emits .falls (Emit.store value address ty) :=
  .instr _ rfl

theorem arith (op : BinOp) (a b : Value) (ty : Ty) : Emits .falls (Emit.arith op a b ty) :=
  temp_bind (fun _ => rfl) fun _ => .pure _

theorem compare (op : BinOp) (a b : Value) : Emits .falls (Emit.compare op a b) :=
  temp_bind (fun _ => rfl) fun _ => .pure _

theorem unary (op : UnOp) (a : Value) (ty : Ty) : Emits .falls (Emit.unary op a ty) :=
  temp_bind (fun _ => rfl) fun _ => .pure _

theorem elementAddress (base index : Value) (element : Ty) :
    Emits .falls (Emit.elementAddress base index element) := by
  simp only [Emit.elementAddress, Emit.build_offset_eq]
  exact temp_bind (fun _ => rfl) fun _ => .pure _

theorem memberAddress (base : Value) (index : Nat) (member : Ty) :
    Emits .falls (Emit.memberAddress base index member) := by
  simp only [Emit.memberAddress, Emit.build_offset_eq]
  exact temp_bind (fun _ => rfl) fun _ => .pure _

theorem call (callee : Value) (args : List Value) (ty : Ty) :
    Emits .falls (Emit.call callee args ty) := by
  unfold Emit.call BuilderM.call
  split
  · simp only [Emit.build_bind, bind_assoc]
    rw [← bind_assoc]
    exact .bind (.instr _ rfl) fun _ => .pure _
  · simp only [Emit.build_map, bind_assoc, pure_bind]
    exact temp_bind (fun _ => rfl) fun _ => .pure _

theorem addressDifference (a b : Value) (element : Ty) :
    Emits .falls (Emit.addressDifference a b element) := by
  unfold Emit.addressDifference
  split
  · exact .throw _ _ rfl
  · refine .bind (unary _ _ _) fun a => .bind (unary _ _ _) fun b => .bind (arith _ _ _ _) fun c => ?_
    split
    · exact .pure _
    · exact arith _ _ _ _

/-! ### From the code of the operands -/

theorem layout (t : TypeTable) (ty : TypeId) : Emits .falls (liftM (t.layout ty)) := .lift _ (t.layout_blames ty)

theorem truth (t : TypeTable) (v : Value) (ty : TypeId) : Emits .falls (truth t v ty) := by
  unfold Lowering.truth
  split
  · exact .pure _
  · exact .bind (.layout _ _) fun _ => compare _ _ _

theorem branchOnValue (t : TypeTable) (ty : TypeId) {x : EmitM Value} (hx : Emits .falls x)
    (onTrue onFalse : LabelId) : Emits (.goes onTrue onFalse) (branchOnValue t ty x onTrue onFalse) :=
  .bind hx fun v => .bind (truth t v ty) fun _ => .condJump _ _ _

theorem partAddress (t : TypeTable) (ty : TypeId) (address : Value) (index : Nat) (element : Ty) :
    Emits .falls (partAddress t ty address index element) := by
  unfold Lowering.partAddress
  split
  · exact elementAddress _ _ _
  · split
    · exact memberAddress _ _ _
    · exact .pure _

theorem initElements (t : TypeTable) (ty : TypeId) (address : Value) (index : Nat)
    {inits : List (Value → TypeId → EmitM Unit)} (h : ∀ i ∈ inits, ∀ v ty, Emits .falls (i v ty)) :
    Emits .falls (initElements t ty address index inits) := by
  induction inits generalizing index with
  | nil => exact .pure _
  | cons init rest ih =>
    unfold Lowering.initElements
    refine .bind (.lift _ (TypeTable.elementType_blames _ _)) fun element => .bind (.layout _ _) fun ir =>
      .bind (partAddress ..) fun part => ?_
    exact .bind (h init (by simp) _ _) fun _ => ih _ fun i hi => h i (by simp [hi])

theorem initAggregate (t : TypeTable) {inits : List (Value → TypeId → EmitM Unit)}
    (h : ∀ i ∈ inits, ∀ v ty, Emits .falls (i v ty)) (address : Value) (ty : TypeId) :
    Emits .falls (initAggregate t inits address ty) := by
  unfold Lowering.initAggregate
  refine .bind (.layout _ _) fun ir => ?_
  split
  · exact .bind (store _ _ _) fun _ => initElements _ _ _ _ h
  · exact initElements _ _ _ _ h

theorem initValue (t : TypeTable) {x : EmitM Value} (hx : Emits .falls x) (address : Value)
    (ty : TypeId) : Emits .falls (initValue t x address ty) :=
  .bind (.layout _ _) fun _ => .bind hx fun _ => store _ _ _

open Emit (Grows)

/-- Structured code only lets the function grow. -/
theorem grows {k : Exit} {x : EmitM α} (h : Emits k x) : Grows x := by
  induction h with
  | pure a => exact .pure a
  | throw k f => exact .throw f
  | lift y => exact .lift y
  | bind _ _ ihx ihf => exact .bind ihx ihf
  | instr i _ => exact .bind .openBlock fun _ => .emit i
  | temp i _ => exact .bind .openBlock fun _ => .emitTemp i
  | slot ty => exact .temporary ty
  | symbol id name storage => exact .symbolAddress id name storage
  | text text => exact .stringLiteral text
  | materialize _ ih =>
    exact .bind .createLabel fun _ => .bind .createLabel fun _ => .bind .createLabel fun _ =>
      .bind (ih _ _) fun _ => .bind (.defineLabel _) fun _ => .bind (.jump _) fun _ =>
      .bind (.defineLabel _) fun _ => .bind (.jump _) fun _ => .bind (.defineLabel _) fun _ =>
      .merge _ _
  | choice _ _ _ ihc iha ihb =>
    refine .bind .createLabel fun _ => .bind .createLabel fun _ => .bind .createLabel fun _ =>
      .bind (ihc _ _) fun _ => .bind (.defineLabel _) fun _ => .bind iha fun _ =>
      .bind grows_currentLabel fun _ => .bind (.jump _) fun _ =>
      .bind (.defineLabel _) fun _ => .bind ihb fun _ => .bind grows_currentLabel fun _ =>
      .bind (.jump _) fun _ => .bind (.defineLabel _) fun _ => ?_
    split
    · exact .pure _
    · exact .bind (.lift _) fun _ => .merge _ _
  | jump _ => exact .jump _
  | condJump v onTrue onFalse => exact .condJump v onTrue onFalse
  | swap _ ih => exact ih
  | both onTrue onFalse _ _ ihl ihr =>
    exact .bind .createLabel fun _ => .bind (ihl _ _) fun _ => .bind (.defineLabel _) fun _ => ihr _ _
  | either onTrue onFalse _ _ ihl ihr =>
    exact .bind .createLabel fun _ => .bind (ihl _ _) fun _ => .bind (.defineLabel _) fun _ => ihr _ _

end Emits

/-- All code of an expression is structured. -/
structure Lowering.Code.Structured (c : Code) : Prop where
  value : Emits .falls c.value
  address : Emits .falls c.address
  branch : ∀ onTrue onFalse, Emits (.goes onTrue onFalse) (c.branch onTrue onFalse)
  init : ∀ v ty, Emits .falls (c.init v ty)
  elements : ∀ es, c.elements = some es → ∀ i ∈ es, ∀ v ty, Emits .falls (i v ty)

namespace Lowering

variable {t : TypeTable} {e child : Expr} {code : Code}

theorem Code.Structured.ofNode {value address : EmitM Value}
    {branch : LabelId → LabelId → EmitM Unit}
    {elements : Option (List (Value → TypeId → EmitM Unit))}
    (hv : Emits .falls value) (ha : Emits .falls address)
    (hb : ∀ onTrue onFalse, Emits (.goes onTrue onFalse) (branch onTrue onFalse))
    (he : ∀ es, elements = some es → ∀ i ∈ es, ∀ v ty, Emits .falls (i v ty)) :
    (Code.ofNode t e value address branch elements).Structured := by
  unfold Code.ofNode
  split
  · rename_i c _
    have hc : Emits .falls (liftM (constantValue t e.ty c)) := .lift _ (constantValue_blames _ _)
    refine ⟨hc, ha, fun onTrue onFalse => .jump ?_, fun v ty => .initValue t hc v ty, he⟩
    split
    · exact .inl rfl
    · exact .inr rfl
  · refine ⟨hv, ha, hb, fun v ty => ?_, he⟩
    cases elements with
    | some es => exact .initAggregate t (he es rfl) v ty
    | none => exact .initValue t hv v ty

theorem Code.Structured.ofValue {value : EmitM Value} (hv : Emits .falls value) :
    (Code.ofValue t e value).Structured :=
  .ofNode hv (.throw _ _ rfl) (fun _ _ => .branchOnValue t _ hv _ _) (by simp)

theorem Code.Structured.ofBranch {branch : LabelId → LabelId → EmitM Unit}
    (hb : ∀ onTrue onFalse, Emits (.goes onTrue onFalse) (branch onTrue onFalse)) :
    (Code.ofBranch t e branch).Structured :=
  .ofNode (.materialize hb) (.throw _ _ rfl) hb (by simp)

theorem Code.Structured.ofPlace {address : EmitM Value} (ha : Emits .falls address) :
    (Code.ofPlace t e address).Structured := by
  have hv : Emits .falls (do let address ← address; Emit.load address (← t.layout e.ty)) :=
    .bind ha fun _ => .bind (.layout _ _) fun _ => .load _ _
  exact .ofNode hv ha (fun _ _ => .branchOnValue t _ hv _ _) (by simp)

theorem objectAddress_emits (h : code.Structured) : Emits .falls (objectAddress t e code) := by
  unfold objectAddress
  split
  · exact h.address
  · exact .bind (.layout _ _) fun _ => .bind h.value fun _ => .bind (.slot _) fun _ =>
      .bind (.store _ _ _) fun _ => .pure _

/-! ### Unary operations -/

theorem castValue_emits (h : code.Structured) (ty : TypeId) :
    Emits .falls (castValue t child code ty) := by
  unfold castValue
  split
  · exact .bind h.value fun _ => .truth _ _ _
  split
  · exact objectAddress_emits h
  split
  · exact h.value
  refine .bind h.value fun v => .bind (.lift _ (TypeTable.castOp_blames _ _)) fun op => ?_
  split
  · exact .bind (.layout _ _) fun _ => .unary _ _ _
  · exact .pure _

theorem stepValue_emits (op : UnaryOp) (h : code.Structured) :
    Emits .falls (stepValue t op child code) := by
  unfold stepValue
  refine .bind h.address fun address => .bind (.layout _ _) fun ir => .bind (.load _ _) fun old => ?_
  have hend : ∀ new, Emits .falls (do Emit.store new address ir; return if op.isPostfix then old else new) :=
    fun _ => .bind (.store _ _ _) fun _ => .pure _
  by_cases hp : t.isPointer child.ty = true
  · simp only [hp, ↓reduceIte]
    exact .bind (.lift _ (TypeTable.targetLayout_blames _)) fun _ => .bind (.elementAddress _ _ _) hend
  · simp only [hp]
    exact .bind (.arith _ _ _ _) hend

theorem castCode_structured (h : code.Structured) : (castCode t e child code).Structured := by
  refine .ofNode (castValue_emits h _) (.throw _ _ rfl) (fun onTrue onFalse => ?_) ?_
  · split
    · exact h.branch _ _
    · exact .branchOnValue t _ (castValue_emits h _) _ _
  · intro es hes
    split at hes
    · cases hes
    · exact h.elements es hes

theorem notCode_structured (h : code.Structured) : (notCode t e child code).Structured := by
  refine .ofNode ?_ (.throw _ _ rfl) (fun _ _ => .swap (h.branch _ _)) (by simp)
  split
  · exact .materialize fun _ _ => .swap (h.branch _ _)
  · unfold notValue
    refine .bind h.value fun v => .bind (.layout _ _) fun _ => .bind (.compare _ _ _) fun _ =>
      .bind (.layout _ _) fun out => ?_
    split
    · exact .pure _
    · exact .unary _ _ _

theorem dereferenceCode_structured (h : code.Structured) : (dereferenceCode t e code).Structured := by
  have hv : Emits .falls (do
      let address ← code.value
      if t.isFunction e.ty then return address else Emit.load address (← t.layout e.ty)) := by
    refine .bind h.value fun address => ?_
    split
    · exact .pure _
    · exact .bind (.layout _ _) fun _ => .load _ _
  exact .ofNode hv h.value (fun _ _ => .branchOnValue t _ hv _ _) (by simp)

theorem unaryCode_structured (op : UnaryOp) (h : code.Structured) :
    (unaryCode t e op child code).Structured := by
  cases op with
  | cast => exact castCode_structured h
  | explicitCast => exact .ofValue (castValue_emits h _)
  | minus => exact .ofValue (.bind h.value fun _ => .bind (.layout _ _) fun _ => .unary _ _ _)
  | logicalNot => exact notCode_structured h
  | dereference => exact dereferenceCode_structured h
  | addressOf => exact .ofValue h.address
  | preIncrement | postIncrement | preDecrement | postDecrement => exact .ofValue (stepValue_emits _ h)

/-! ### Binary operations -/

variable {left right : Expr} {leftCode rightCode : Code}

theorem arithmeticValue_emits (op : BinaryOp) (leftTy : TypeId) (l : Value) (rightTy : TypeId)
    (r : Value) (ty : TypeId) : Emits .falls (arithmeticValue t op leftTy l rightTy r ty) := by
  unfold arithmeticValue
  split
  · refine .bind (.lift _ (TypeTable.targetLayout_blames _)) fun element => ?_
    split
    · exact .addressDifference _ _ _
    split
    · exact .bind (.layout _ _) fun _ => .bind (.unary _ _ _) fun _ => .elementAddress _ _ _
    · exact .bind (.pure _) fun _ => .elementAddress _ _ _
  · exact .bind (.layout _ _) fun _ => .bind (.lift _ (TypeTable.arithmeticOp_blames _ _)) fun _ => .arith _ _ _ _

theorem comparisonValue_emits (op : BinaryOp) (ty : TypeId) (l r : Value) :
    Emits .falls (comparisonValue t op ty l r) := by
  unfold comparisonValue
  refine .bind (.layout _ _) fun _ => ?_
  split
  · exact .compare _ _ _
  · exact .throw _ _ rfl

theorem compoundValue_emits (base : BinaryOp) (hl : leftCode.Structured)
    (hr : rightCode.Structured) :
    Emits .falls (compoundValue t base left leftCode right rightCode) :=
  .bind hl.address fun _ => .bind (.layout _ _) fun _ => .bind (.load _ _) fun _ =>
    .bind hr.value fun _ => .bind (arithmeticValue_emits _ _ _ _ _ _) fun _ =>
      .bind (.store _ _ _) fun _ => .pure _

theorem indexAddress_emits (hl : leftCode.Structured) (hr : rightCode.Structured) (ty : TypeId) :
    Emits .falls (indexAddress t left leftCode rightCode ty) := by
  unfold indexAddress
  have hend : ∀ base, Emits .falls (do
      let index ← rightCode.value
      Emit.elementAddress base index (← t.layout ty)) :=
    fun _ => .bind hr.value fun _ => .bind (.layout _ _) fun _ => .elementAddress _ _ _
  split
  · exact .bind (objectAddress_emits hl) hend
  · exact .bind hl.value hend

theorem binaryCode_structured (op : BinaryOp) (hl : leftCode.Structured)
    (hr : rightCode.Structured) : (binaryCode t e op left leftCode right rightCode).Structured := by
  cases op with
  | assign =>
    exact .ofValue (.bind hl.address fun _ => .bind hr.value fun _ => .bind (.layout _ _) fun _ =>
      .bind (.store _ _ _) fun _ => .pure _)
  | addAssign | subAssign | mulAssign | divAssign | modAssign =>
    exact .ofValue (compoundValue_emits _ hl hr)
  | add | sub | mul | div | mod =>
    exact .ofValue (.bind hl.value fun _ => .bind hr.value fun _ => arithmeticValue_emits _ _ _ _ _ _)
  | equal | notEqual | less | greater | lessEqual | greaterEqual =>
    exact .ofValue (.bind hl.value fun _ => .bind hr.value fun _ => comparisonValue_emits _ _ _ _)
  | logicalAnd => exact .ofBranch fun _ _ => .both _ _ hl.branch hr.branch
  | logicalOr => exact .ofBranch fun _ _ => .either _ _ hl.branch hr.branch
  | index => exact .ofPlace (indexAddress_emits hl hr _)

/-! ### Other nodes -/

theorem valuesOf_emits {codes : List Code} (h : ∀ c ∈ codes, c.Structured) :
    Emits .falls (valuesOf codes) := by
  induction codes with
  | nil => exact .pure _
  | cons c codes ih =>
    exact .bind (h c (by simp)).value fun _ => .bind (ih fun c hc => h c (by simp [hc])) fun _ => .pure _

theorem callValue_emits {args : List Code} (h : code.Structured) (hargs : ∀ c ∈ args, c.Structured)
    (ty : TypeId) : Emits .falls (callValue t code args ty) :=
  .bind h.value fun _ => .bind (valuesOf_emits hargs) fun _ => .bind (.layout _ _) fun _ =>
    .bind (.call _ _ _) fun _ => .pure _

theorem memberAddress_emits (h : code.Structured) (index : Nat) (ty : TypeId) :
    Emits .falls (memberAddress t child code index ty) :=
  .bind (objectAddress_emits h) fun _ => .bind (.layout _ _) fun _ => .bind (.layout _ _) fun _ =>
    .memberAddress _ _ _

theorem inits_emit {codes : List Code} (h : ∀ c ∈ codes, c.Structured) :
    ∀ i ∈ codes.map (·.init), ∀ v ty, Emits .falls (i v ty) := by
  intro i hi
  obtain ⟨c, hc, rfl⟩ := List.mem_map.1 hi
  exact (h c hc).init

theorem aggregateCode_structured {codes : List Code} (h : ∀ c ∈ codes, c.Structured) :
    (aggregateCode t e codes).Structured := by
  have hv : Emits .falls (aggregateValue t codes e.ty) :=
    .bind (.layout _ _) fun _ => .bind (.slot _) fun _ =>
      .bind (.initAggregate t (inits_emit h) _ _) fun _ => .load _ _
  refine .ofNode hv (.throw _ _ rfl) (fun _ _ => .branchOnValue t _ hv _ _) fun es hes => ?_
  cases hes
  exact inits_emit h

theorem loadConstant_emits (t : TypeTable) (e : Expr) : Emits .falls (loadConstant t e) := by
  unfold loadConstant
  split
  · exact .lift _ (constantValue_blames _ _)
  · exact .throw _ _ rfl

theorem literalCode_structured (value : Literal) : (literalCode t e value).Structured := by
  cases value with
  | string text => exact .ofPlace (.text text)
  | integer | float | bool | nullptr => exact .ofValue (loadConstant_emits t e)

theorem identifierCode_structured (name : String) (symbol : SymbolId) (storage : Storage) :
    (identifierCode t e name symbol storage).Structured := by
  have ha : Emits .falls (Emit.symbolAddress symbol name storage) := .symbol _ _ _
  unfold identifierCode
  split
  · exact .ofNode ha ha (fun _ _ => .branchOnValue t _ ha _ _) (by simp)
  · exact .ofPlace ha

mutual

/-- Every code that an expression is lowered to is structured. -/
theorem lower_structured (t : TypeTable) : ∀ e : Expr, (lower t e).Structured
  | .literal value _ => literalCode_structured value
  | .identifier name symbol storage _ _ => identifierCode_structured name symbol storage
  | .proxy target _ =>
    have h := lower_structured t target
    .ofNode h.value h.address h.branch h.elements
  | .unary op child _ => unaryCode_structured op (lower_structured t child)
  | .binary op left right _ =>
    binaryCode_structured op (lower_structured t left) (lower_structured t right)
  | .conditional cond thenExpr elseExpr _ =>
    .ofValue (.choice (lower_structured t cond).branch (lower_structured t thenExpr).value
      (lower_structured t elseExpr).value)
  | .call callee args _ =>
    .ofValue (callValue_emits (lower_structured t callee) (lowerAll_structured t args) _)
  | .member object _ _ _ => .ofPlace (memberAddress_emits (lower_structured t object) _ _)
  | .aggregate elements _ => aggregateCode_structured (lowerAll_structured t elements)

theorem lowerAll_structured (t : TypeTable) : ∀ es : List Expr, ∀ c ∈ lowerAll t es, c.Structured
  | [], _, h => by cases h
  | e :: rest, c, h => by
    rcases List.mem_cons.1 h with rfl | h
    · exact lower_structured t e
    · exact lowerAll_structured t rest c h

end

end Lowering

end TypedCore
