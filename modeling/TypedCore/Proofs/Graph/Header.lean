import TypedCore.Proofs.Emitter.Storage
import TypedCore.Proofs.Graph.Construction

/-!
# What the header of a module defines

Through all requests that succeed, the header of a module defines the structs that are stored somewhere, in a global,
a variable or a temporary, each by its layout, and no others (`header_defines_storage`). So a struct that is only
loaded through a pointer, or returned by a call, is not defined.
-/

namespace TypedCore

open Ir Lowering Emit Emitter

/-- `T` knows all structs within the layouts of `t`. -/
def TypeTable.Covers (T t : TypeTable) : Prop := ∀ ty ir, t.layout ty = .ok ir → T.Describes ir

theorem TypeTable.Reaches.covers {sizeBits : Nat} {t T : TypeTable} (h : TypeTable.Reaches (.empty sizeBits) t)
    (hT : TypeTable.Reaches t T) : T.Covers t := by
  intro ty ir hir
  have hclosed : t.Closed := (closed_empty sizeBits).steps h.steps
  have hissued := h.canonical.issued
  exact (layout_describes hclosed hissued hir).of_le hclosed hissued hT.steps.le

/-! ### Code for expressions -/

namespace Emit.Registers

variable {t T : TypeTable}

theorem truth (v : Value) (ty : TypeId) : Registers T (truth t v ty) :=
  ite (pure _) ((lift _).bind fun _ => compare _ _ _)

theorem branchOnValue (ty : TypeId) {x : EmitM Value} (hx : Registers T x) (onTrue onFalse : LabelId) :
    Registers T (branchOnValue t ty x onTrue onFalse) :=
  hx.bind fun v => (truth v ty).bind fun _ => condJump _ _ _

theorem materialize {branch : LabelId → LabelId → EmitM Unit}
    (hb : ∀ onTrue onFalse, Registers T (branch onTrue onFalse)) : Registers T (materialize branch) :=
  createLabel.bind fun _ => createLabel.bind fun _ => createLabel.bind fun _ => (hb _ _).bind fun _ =>
    (defineLabel _).bind fun _ => (jump _).bind fun _ => (defineLabel _).bind fun _ => (jump _).bind fun _ =>
    (defineLabel _).bind fun _ => merge _ _

theorem initElements (ty : TypeId) (address : Value) (index : Nat) {inits : List (Value → TypeId → EmitM Unit)}
    (h : ∀ i ∈ inits, ∀ v ty, Registers T (i v ty)) : Registers T (initElements t ty address index inits) := by
  induction inits generalizing index with
  | nil => exact pure _
  | cons init rest ih =>
    refine (lift _).bind fun element => (lift _).bind fun ir => ?_
    have hpart : Registers T (partAddress t ty address index ir) :=
      ite (elementAddress _ _ _) (ite (memberAddress _ _ _) (pure _))
    exact hpart.bind fun _ => (h init (by simp) _ _).bind fun _ => ih _ fun i hi => h i (by simp [hi])

theorem initAggregate {inits : List (Value → TypeId → EmitM Unit)} (h : ∀ i ∈ inits, ∀ v ty, Registers T (i v ty))
    (address : Value) (ty : TypeId) : Registers T (initAggregate t inits address ty) :=
  (lift _).bind fun _ => ite ((store _ _ _).bind fun _ => initElements _ _ _ h) (initElements _ _ _ h)

theorem initValue {x : EmitM Value} (hx : Registers T x) (address : Value) (ty : TypeId) :
    Registers T (initValue t x address ty) :=
  (lift _).bind fun _ => hx.bind fun _ => store _ _ _

theorem loadConstant (e : Expr) : Registers T (loadConstant t e) := by
  unfold Lowering.loadConstant
  split
  · exact lift _
  · exact throw _

end Emit.Registers

/-- All code of an expression keeps the header. -/
structure Lowering.Code.Registered (T : TypeTable) (c : Code) : Prop where
  value : Registers T c.value
  address : Registers T c.address
  branch : ∀ onTrue onFalse, Registers T (c.branch onTrue onFalse)
  init : ∀ v ty, Registers T (c.init v ty)
  elements : ∀ es, c.elements = some es → ∀ i ∈ es, ∀ v ty, Registers T (i v ty)

namespace Lowering

variable {t T : TypeTable} {e child left right : Expr} {code leftCode rightCode : Code}

namespace Code.Registered

theorem ofNode {value address : EmitM Value} {branch : LabelId → LabelId → EmitM Unit}
    {elements : Option (List (Value → TypeId → EmitM Unit))} (hv : Registers T value) (ha : Registers T address)
    (hb : ∀ onTrue onFalse, Registers T (branch onTrue onFalse))
    (he : ∀ es, elements = some es → ∀ i ∈ es, ∀ v ty, Registers T (i v ty)) :
    (Code.ofNode t e value address branch elements).Registered T := by
  unfold Code.ofNode
  split
  · exact ⟨.lift _, ha, fun _ _ => .jump _, fun v ty => .initValue (.lift _) v ty, he⟩
  · refine ⟨hv, ha, hb, fun v ty => ?_, he⟩
    cases elements with
    | some es => exact .initAggregate (he es rfl) v ty
    | none => exact .initValue hv v ty

theorem ofValue {value : EmitM Value} (hv : Registers T value) : (Code.ofValue t e value).Registered T :=
  ofNode hv (.throw _) (fun _ _ => .branchOnValue _ hv _ _) (by simp)

theorem ofBranch {branch : LabelId → LabelId → EmitM Unit}
    (hb : ∀ onTrue onFalse, Registers T (branch onTrue onFalse)) : (Code.ofBranch t e branch).Registered T :=
  ofNode (.materialize hb) (.throw _) hb (by simp)

theorem ofPlace {address : EmitM Value} (ha : Registers T address) : (Code.ofPlace t e address).Registered T := by
  have hv : Registers T (do let address ← address; Emit.load address (← t.layout e.ty)) :=
    ha.bind fun _ => (Registers.lift _).bind fun _ => .load _ _
  exact ofNode hv ha (fun _ _ => .branchOnValue _ hv _ _) (by simp)

end Code.Registered

/-- What is put into a temporary has a layout. -/
theorem objectAddress_registers (hT : T.Covers t) (h : code.Registered T) : Registers T (objectAddress t e code) := by
  refine .ite h.address (.lift_bind fun ir hir => h.value.bind fun _ => ?_)
  exact (Registers.temporary (hT _ ir hir)).bind fun _ => (Registers.store _ _ _).bind fun _ => .pure _

/-! ### Unary operations -/

theorem castValue_registers (hT : T.Covers t) (h : code.Registered T) (ty : TypeId) :
    Registers T (castValue t child code ty) := by
  refine .ite (h.value.bind fun _ => .truth _ _) (.ite (objectAddress_registers hT h) (.ite h.value ?_))
  refine h.value.bind fun v => (Registers.lift _).bind fun op => ?_
  split
  · exact (Registers.lift _).bind fun _ => .unary _ _ _
  · exact .pure _

theorem stepValue_registers (op : UnaryOp) (h : code.Registered T) : Registers T (stepValue t op child code) := by
  refine h.address.bind fun address => (Registers.lift _).bind fun ir => (Registers.load _ _).bind fun old => ?_
  have hend : ∀ new, Registers T (do Emit.store new address ir; return if op.isPostfix then old else new) :=
    fun _ => (Registers.store _ _ _).bind fun _ => .pure _
  exact .ite ((Registers.lift _).bind fun _ => (Registers.elementAddress _ _ _).bind hend)
    ((Registers.arith _ _ _ _).bind hend)

theorem notValue_registers (h : code.Registered T) (ty : TypeId) : Registers T (notValue t child code ty) :=
  h.value.bind fun _ => (Registers.lift _).bind fun _ => (Registers.compare _ _ _).bind fun _ =>
    (Registers.lift _).bind fun _ => .ite (.pure _) (.unary _ _ _)

theorem castCode_registered (hT : T.Covers t) (h : code.Registered T) : (castCode t e child code).Registered T := by
  refine .ofNode (castValue_registers hT h _) (.throw _) (fun onTrue onFalse => ?_) fun es hes => ?_
  · split
    · exact h.branch _ _
    · exact .branchOnValue _ (castValue_registers hT h _) _ _
  · split at hes
    · cases hes
    · exact h.elements es hes

theorem notCode_registered (h : code.Registered T) : (notCode t e child code).Registered T := by
  refine .ofNode ?_ (.throw _) (fun _ _ => h.branch _ _) (by simp)
  exact .ite (.materialize fun _ _ => h.branch _ _) (notValue_registers h _)

theorem dereferenceCode_registered (h : code.Registered T) : (dereferenceCode t e code).Registered T := by
  have hv : Registers T (do
      let address ← code.value
      if t.isFunction e.ty then return address else Emit.load address (← t.layout e.ty)) :=
    h.value.bind fun _ => .ite (.pure _) ((Registers.lift _).bind fun _ => .load _ _)
  exact .ofNode hv h.value (fun _ _ => .branchOnValue _ hv _ _) (by simp)

theorem unaryCode_registered (hT : T.Covers t) (op : UnaryOp) (h : code.Registered T) :
    (unaryCode t e op child code).Registered T := by
  cases op with
  | cast => exact castCode_registered hT h
  | explicitCast => exact .ofValue (castValue_registers hT h _)
  | minus => exact .ofValue (h.value.bind fun _ => (Registers.lift _).bind fun _ => .unary _ _ _)
  | logicalNot => exact notCode_registered h
  | dereference => exact dereferenceCode_registered h
  | addressOf => exact .ofValue h.address
  | preIncrement | postIncrement | preDecrement | postDecrement => exact .ofValue (stepValue_registers _ h)

/-! ### Binary operations -/

theorem arithmeticValue_registers (op : BinaryOp) (leftTy : TypeId) (l : Value) (rightTy : TypeId) (r : Value)
    (ty : TypeId) : Registers T (arithmeticValue t op leftTy l rightTy r ty) := by
  refine .ite ((Registers.lift _).bind fun element => .ite (.addressDifference _ _ _) (.ite ?_ ?_)) ?_
  · exact (Registers.lift _).bind fun _ => (Registers.unary _ _ _).bind fun _ => .elementAddress _ _ _
  · exact (Registers.pure _).bind fun _ => .elementAddress _ _ _
  · exact (Registers.lift _).bind fun _ => (Registers.lift _).bind fun _ => .arith _ _ _ _

theorem comparisonValue_registers (op : BinaryOp) (ty : TypeId) (l r : Value) :
    Registers T (comparisonValue t op ty l r) := by
  refine (Registers.lift _).bind fun _ => ?_
  split
  · exact .compare _ _ _
  · exact .throw _

theorem compoundValue_registers (base : BinaryOp) (hl : leftCode.Registered T) (hr : rightCode.Registered T) :
    Registers T (compoundValue t base left leftCode right rightCode) :=
  hl.address.bind fun _ => (Registers.lift _).bind fun _ => (Registers.load _ _).bind fun _ =>
    hr.value.bind fun _ => (arithmeticValue_registers _ _ _ _ _ _).bind fun _ =>
    (Registers.store _ _ _).bind fun _ => .pure _

theorem indexAddress_registers (hT : T.Covers t) (hl : leftCode.Registered T) (hr : rightCode.Registered T)
    (ty : TypeId) : Registers T (indexAddress t left leftCode rightCode ty) := by
  have hend : ∀ base, Registers T (do
      let index ← rightCode.value
      Emit.elementAddress base index (← t.layout ty)) :=
    fun _ => hr.value.bind fun _ => (Registers.lift _).bind fun _ => .elementAddress _ _ _
  unfold indexAddress
  split
  · exact (objectAddress_registers hT hl).bind hend
  · exact hl.value.bind hend

theorem binaryCode_registered (hT : T.Covers t) (op : BinaryOp) (hl : leftCode.Registered T)
    (hr : rightCode.Registered T) : (binaryCode t e op left leftCode right rightCode).Registered T := by
  cases op with
  | assign =>
    exact .ofValue (hl.address.bind fun _ => hr.value.bind fun _ => (Registers.lift _).bind fun _ =>
      (Registers.store _ _ _).bind fun _ => .pure _)
  | addAssign | subAssign | mulAssign | divAssign | modAssign => exact .ofValue (compoundValue_registers _ hl hr)
  | add | sub | mul | div | mod =>
    exact .ofValue (hl.value.bind fun _ => hr.value.bind fun _ => arithmeticValue_registers _ _ _ _ _ _)
  | equal | notEqual | less | greater | lessEqual | greaterEqual =>
    exact .ofValue (hl.value.bind fun _ => hr.value.bind fun _ => comparisonValue_registers _ _ _ _)
  | logicalAnd | logicalOr =>
    exact .ofBranch fun _ _ => Registers.createLabel.bind fun _ => (hl.branch _ _).bind fun _ =>
      (Registers.defineLabel _).bind fun _ => hr.branch _ _
  | index => exact .ofPlace (indexAddress_registers hT hl hr _)

/-! ### Other nodes -/

theorem conditionalValue_registers {cond thenCode elseCode : Code} (hc : cond.Registered T)
    (hthen : thenCode.Registered T) (helse : elseCode.Registered T) (ty : TypeId) :
    Registers T (conditionalValue t cond thenCode elseCode ty) := by
  refine Registers.createLabel.bind fun _ => Registers.createLabel.bind fun _ => Registers.createLabel.bind fun _ =>
    (hc.branch _ _).bind fun _ => (Registers.defineLabel _).bind fun _ => hthen.value.bind fun _ =>
    Registers.currentLabel.bind fun _ => (Registers.jump _).bind fun _ => (Registers.defineLabel _).bind fun _ =>
    helse.value.bind fun _ => Registers.currentLabel.bind fun _ => (Registers.jump _).bind fun _ =>
    (Registers.defineLabel _).bind fun _ => ?_
  exact .ite (.pure _) ((Registers.lift _).bind fun _ => .merge _ _)

theorem valuesOf_registers {codes : List Code} (h : ∀ c ∈ codes, c.Registered T) : Registers T (valuesOf codes) := by
  induction codes with
  | nil => exact .pure _
  | cons c codes ih =>
    exact (h c (by simp)).value.bind fun _ => (ih fun c hc => h c (by simp [hc])).bind fun _ => .pure _

theorem callValue_registers {args : List Code} (h : code.Registered T) (hargs : ∀ c ∈ args, c.Registered T)
    (ty : TypeId) : Registers T (callValue t code args ty) :=
  h.value.bind fun _ => (valuesOf_registers hargs).bind fun _ => (Registers.lift _).bind fun _ =>
    (Registers.call _ _ _).bind fun _ => .pure _

theorem memberAddress_registers (hT : T.Covers t) (h : code.Registered T) (index : Nat) (ty : TypeId) :
    Registers T (memberAddress t child code index ty) :=
  (objectAddress_registers hT h).bind fun _ => (Registers.lift _).bind fun _ => (Registers.lift _).bind fun _ =>
    .memberAddress _ _ _

theorem inits_register {codes : List Code} (h : ∀ c ∈ codes, c.Registered T) :
    ∀ i ∈ codes.map (·.init), ∀ v ty, Registers T (i v ty) := by
  intro i hi
  obtain ⟨c, hc, rfl⟩ := List.mem_map.1 hi
  exact (h c hc).init

theorem aggregateCode_registered (hT : T.Covers t) {codes : List Code} (h : ∀ c ∈ codes, c.Registered T) :
    (aggregateCode t e codes).Registered T := by
  have hv : Registers T (aggregateValue t codes e.ty) :=
    .lift_bind fun ir hir => (Registers.temporary (hT _ ir hir)).bind fun _ =>
      (Registers.initAggregate (inits_register h) _ _).bind fun _ => .load _ _
  refine .ofNode hv (.throw _) (fun _ _ => .branchOnValue _ hv _ _) fun es hes => ?_
  cases hes
  exact inits_register h

theorem literalCode_registered (value : Literal) : (literalCode t e value).Registered T := by
  cases value with
  | string text => exact .ofPlace (.stringLiteral text)
  | integer | float | bool | nullptr => exact .ofValue (.loadConstant e)

theorem identifierCode_registered (name : String) (symbol : SymbolId) (storage : Storage) :
    (identifierCode t e name symbol storage).Registered T := by
  have ha : Registers T (Emit.symbolAddress symbol name storage) := .symbolAddress _ _ _
  unfold identifierCode
  split
  · exact .ofNode ha ha (fun _ _ => .branchOnValue _ ha _ _) (by simp)
  · exact .ofPlace ha

mutual

/-- Every code that an expression is lowered to keeps the header. -/
theorem lower_registers (hT : T.Covers t) : ∀ e : Expr, (lower t e).Registered T
  | .literal value _ => literalCode_registered value
  | .identifier name symbol storage _ _ => identifierCode_registered name symbol storage
  | .proxy target _ =>
    have h := lower_registers hT target
    .ofNode h.value h.address h.branch h.elements
  | .unary op child _ => unaryCode_registered hT op (lower_registers hT child)
  | .binary op left right _ => binaryCode_registered hT op (lower_registers hT left) (lower_registers hT right)
  | .conditional cond thenExpr elseExpr _ =>
    .ofValue (conditionalValue_registers (lower_registers hT cond) (lower_registers hT thenExpr)
      (lower_registers hT elseExpr) _)
  | .call callee args _ => .ofValue (callValue_registers (lower_registers hT callee) (lowerAll_registers hT args) _)
  | .member object _ _ _ => .ofPlace (memberAddress_registers hT (lower_registers hT object) _ _)
  | .aggregate elements _ => aggregateCode_registered hT (lowerAll_registers hT elements)

theorem lowerAll_registers (hT : T.Covers t) : ∀ es : List Expr, ∀ c ∈ lowerAll t es, c.Registered T
  | [], _, h => by cases h
  | e :: rest, c, h => by
    rcases List.mem_cons.1 h with rfl | h
    · exact lower_registers hT e
    · exact lowerAll_registers hT rest c h

end

/-! ### Declarations and statements -/

theorem localDeclaration_registers (hT : T.Covers t) (d : Declaration) : Registers T (localDeclaration t d) := by
  refine .lift_bind fun ir hir => (Registers.localVariable (hT _ ir hir) _ _).bind fun address => ?_
  split
  · exact (lower_registers hT _).init _ _
  · exact .pure _

theorem globalDeclaration_registers (hT : T.Covers t) (d : Declaration) : Registers T (globalDeclaration t d) := by
  refine .lift_bind fun ir hir => ?_
  have hend : ∀ init, Registers T (do let _ ← declareGlobal d.name ir init) := fun init =>
    (Registers.declareGlobal (hT _ ir hir) d.name init).bind fun _ => .pure _
  split
  · refine Registers.bind ?_ hend
    rw [map_eq_pure_bind]
    exact (Registers.loadConstant _).bind fun _ => .pure _
  · exact (Registers.pure _).bind hend

theorem returnStatement_registers (hT : T.Covers t) (value : Option Expr) :
    Registers T (returnStatement t value) := by
  unfold returnStatement
  split
  · rw [map_eq_pure_bind]
    exact ((lower_registers hT _).value.bind fun _ => .pure _).bind fun _ => .ret _
  · exact (Registers.pure _).bind fun _ => .ret _

theorem branchOn_registers (hT : T.Covers t) (cond : Expr) (onTrue onFalse : LabelId) :
    Registers T (branchOn t cond onTrue onFalse) :=
  (lower_registers hT cond).branch onTrue onFalse

theorem ifHead_registers (hT : T.Covers t) (cond : Expr) : Registers T (ifHead t cond) :=
  Registers.createLabel.bind fun _ => Registers.createLabel.bind fun _ => (branchOn_registers hT _ _ _).bind fun _ =>
    (Registers.defineLabel _).bind fun _ => .pure _

theorem ifElseHead_registers (hT : T.Covers t) (cond : Expr) : Registers T (ifElseHead t cond) :=
  Registers.createLabel.bind fun _ => Registers.createLabel.bind fun _ => Registers.createLabel.bind fun _ =>
    (branchOn_registers hT _ _ _).bind fun _ => (Registers.defineLabel _).bind fun _ => .pure _

theorem elseHead_registers (onFalse done : LabelId) : Registers T (elseHead onFalse done) :=
  (Registers.jumpIfOpen _).bind fun _ => .defineLabel _

theorem loopHead_registers (hT : T.Covers t) (cond : Expr) : Registers T (loopHead t cond) :=
  Registers.createLabel.bind fun _ => Registers.createLabel.bind fun _ => Registers.createLabel.bind fun _ =>
    (Registers.defineLabel _).bind fun _ => (branchOn_registers hT _ _ _).bind fun _ =>
    (Registers.defineLabel _).bind fun _ => .pure _

/-! ### Functions -/

theorem parameters_describe (hT : T.Covers t) {params : List (SymbolId × String)} {tys : List TypeId}
    {ps : List Parameter} (h : parameters t params tys = .ok ps) : ∀ p ∈ ps, T.Describes p.ty := by
  fun_induction parameters t params tys generalizing ps with
  | case1 symbol name params ty tys ih =>
    obtain ⟨ir, hir, h⟩ := except_bind_ok.1 h
    obtain ⟨rest, hrest, h⟩ := except_bind_ok.1 h
    cases h
    exact List.forall_mem_cons.2 ⟨hT ty ir hir, ih hrest⟩
  | case2 =>
    cases h
    exact List.forall_mem_nil _

theorem spill_registers {ps : List Parameter} (h : ∀ p ∈ ps, T.Describes p.ty) (index : Nat) :
    Registers T (spill index ps) := by
  induction ps generalizing index with
  | nil => exact .pure _
  | cons p ps ih =>
    exact (Registers.localVariable (h p (by simp)) _ _).bind fun _ => (Registers.emit rfl).bind fun _ =>
      ih (fun p hp => h p (by simp [hp])) _

end Lowering

namespace Emitter

variable {t T : TypeTable} {s s' : Emitter}

theorem Steady.blocks_eq_nil (hs : s.Steady) (hc : s.current = none) : s.blocks = [] := by
  cases hs with
  | idle _ hf _ => simp [blocks, hf]
  | building hd _ => simpa [hc] using hd.head

theorem Finishes.mem_slotTypes_iff {bs : List Block} (h : s.Finishes bs) (ty : Ty) :
    ty ∈ slotTypes bs ↔ ty ∈ slotTypes s.blocks := by
  cases h with
  | closed _ => exact Iff.rfl
  | dropped _ hb _ hempty _ => simp [slotTypes, hb, hempty]
  | returned ho _ => simp [mem_slotTypes_push ho, Instr.slot?]

theorem slotTypes_linkPredecessors {f : Function} (h : (f.blocks.map (·.id)).Nodup) :
    slotTypes f.linkPredecessors.blocks = slotTypes f.blocks := by
  rw [linkPredecessors_blocks h]
  simp [slotTypes, withPredecessors, List.flatMap_map]

namespace Headed

/-- A function that is begun has room for its parameters only. -/
theorem functionBegin (hT : T.Covers t) (hst : s.Steady) (hs : s.Headed T) {name : String} {ty : TypeId}
    {params : List (SymbolId × String)} (h : Ends (functionBegin t name ty params) s (.ok ()) s') : s'.Headed T := by
  obtain ⟨-, ⟨_, hf, -⟩, -⟩ | ⟨-, ⟨_, -, hf, -⟩ | ⟨hc, -⟩⟩ := functionBegin_moves h
  · cases hf
  · cases hf
  obtain ⟨ret, tys, variadic, ir, ps, -, -, -, hps, hspill⟩ := functionBegin_ok h
  have henter : (s.enter name ir ps variadic).Headed T := by
    refine hs.of_same (fun ty => ?_) rfl
    simp only [storage, hst.blocks_eq_nil hc, blocks_enter]
    exact Iff.rfl
  exact spill_registers (parameters_describe hT hps) 0 henter hspill

/-- What a function stores stays stored when it is closed. -/
theorem endFunction (hst : s.Steady) (hs : s.Headed T) (h : Ends endFunction s (.ok ()) s') : s'.Headed T := by
  obtain ⟨-, hr, -⟩ | ⟨hsome, -, hnone, hmoves⟩ := endFunction_moves hst h
  · cases hr
  have hd := hst.drafting hsome
  obtain ⟨f, hf⟩ := Option.isSome_iff_exists.1 hd.function_isSome
  obtain ⟨bs, hfin, hmod⟩ := endFunction_ok hd hf h
  have hlink : slotTypes (Function.linkPredecessors { f with blocks := bs }).blocks = slotTypes bs :=
    slotTypes_linkPredecessors (f := { f with blocks := bs }) (hfin.ended hd).2.1
  have hblocks := hmoves.steady.blocks_eq_nil hnone
  refine hs.of_same (fun ty => ?_) (by rw [hmod]; rfl)
  simp only [storage, hmod, Module.addFunction, hblocks, List.flatMap_append, List.flatMap_cons, List.flatMap_nil,
    List.mem_append, hlink, hfin.mem_slotTypes_iff]
  simp [slotTypes, or_assoc]

end Headed

end Emitter

/-! ### Requests -/

/-- The types that are known when the request is made. -/
def Request.table? : Request → Option TypeTable
  | .start t _ _ _ | .value t _ | .address t _ | .constant t _ | .branch t _ _ _ | .init t _ _ _ | .expr t _
  | .ret t _ | .declare t _ | .declareLocal t _ | .declareGlobal t _ | .ifThen t _ _ | .ifElse t _ _ _
  | .loop t _ _ => some t
  | .finish => none

/-- The request succeeds, in a state where all is well. -/
structure Request.Clean (T : TypeTable) (c : Request) (s : Emitter) : Prop where
  steady : s.Steady
  covers : ∀ t, c.table? = some t → T.Covers t
  succeeds : ∃ s', Ends c.code s (.ok ()) s'

mutual

theorem Request.registers {T : TypeTable} (c : Request) {s s' : Emitter}
    (hall : ∀ d u, c.Makes s d u → d.Clean T u) (hs : s.Headed T) (h : Ends c.code s (.ok ()) s') : s'.Headed T := by
  have hself := hall c s (.self c s)
  cases c with
  | start t name ty params => exact hs.functionBegin (hself.covers t rfl) hself.steady h
  | finish => exact hs.endFunction hself.steady h
  | value t e | expr t e =>
    exact ((lower_registers (hself.covers t rfl) e).value.bind fun _ => .pure _) hs h
  | address t e => exact ((lower_registers (hself.covers t rfl) e).address.bind fun _ => .pure _) hs h
  | constant t e => exact ((Registers.loadConstant e).bind fun _ => .pure _) hs h
  | branch t e onTrue onFalse => exact branchOn_registers (hself.covers t rfl) e onTrue onFalse hs h
  | init t address e ty => exact (lower_registers (hself.covers t rfl) e).init address ty hs h
  | ret t value => exact returnStatement_registers (hself.covers t rfl) value hs h
  | declare t d =>
    unfold Request.code declaration at h
    split at h
    · exact globalDeclaration_registers (hself.covers t rfl) d hs h
    · exact localDeclaration_registers (hself.covers t rfl) d hs h
    · exact Registers.pure _ hs h
  | declareLocal t d => exact localDeclaration_registers (hself.covers t rfl) d hs h
  | declareGlobal t d => exact globalDeclaration_registers (hself.covers t rfl) d hs h
  | ifThen t cond body =>
    unfold Request.code at h
    rw [ifStatement_eq] at h
    obtain ⟨done, s₁, h₁, h⟩ := Ends.bind_ok_iff.1 h
    obtain ⟨_, s₂, h₂, h₃⟩ := Ends.bind_ok_iff.1 h
    have hs₁ := ifHead_registers (hself.covers t rfl) cond hs h₁
    have hs₂ := body.registers (fun d u hm => hall d u (.ifThen h₁ hm)) hs₁ h₂
    exact Registers.defineLabel done hs₂ h₃
  | ifElse t cond thenBody elseBody =>
    unfold Request.code at h
    rw [ifElseStatement_eq] at h
    obtain ⟨labels, s₁, h₁, h⟩ := Ends.bind_ok_iff.1 h
    obtain ⟨_, s₂, h₂, h⟩ := Ends.bind_ok_iff.1 h
    obtain ⟨_, s₃, h₃, h⟩ := Ends.bind_ok_iff.1 h
    obtain ⟨_, s₄, h₄, h₅⟩ := Ends.bind_ok_iff.1 h
    have hs₁ := ifElseHead_registers (hself.covers t rfl) cond hs h₁
    have hs₂ := thenBody.registers (fun d u hm => hall d u (.ifElse h₁ hm)) hs₁ h₂
    have hs₃ := elseHead_registers labels.1 labels.2 hs₂ h₃
    have hs₄ := elseBody.registers (fun d u hm => hall d u (.orElse h₁ h₂ h₃ hm)) hs₃ h₄
    exact Registers.defineLabel labels.2 hs₄ h₅
  | loop t cond body =>
    unfold Request.code at h
    rw [whileStatement_eq] at h
    obtain ⟨labels, s₁, h₁, h⟩ := Ends.bind_ok_iff.1 h
    obtain ⟨_, s₂, h₂, h₃⟩ := Ends.bind_ok_iff.1 h
    have hs₁ := loopHead_registers (hself.covers t rfl) cond hs h₁
    have hs₂ := body.registers (fun d u hm => hall d u (.loop h₁ hm)) hs₁ h₂
    exact ((Registers.jumpIfOpen labels.1).bind fun _ => .defineLabel labels.2) hs₂ h₃

theorem Script.registers {T : TypeTable} (c : Script) {s s' : Emitter} {r : Except Fault Unit}
    (hall : ∀ d u, c.Makes s d u → d.Clean T u) (hs : s.Headed T) (h : Ends c.code s r s') : s'.Headed T := by
  cases c with
  | nil =>
    obtain ⟨-, rfl⟩ := Ends.pure_iff.1 h
    exact hs
  | insist c rest =>
    obtain ⟨s₁, h₁⟩ := (hall c s (.insisted (.self c s))).succeeds
    have hs₁ := c.registers (fun d u hm => hall d u (.insisted hm)) hs h₁
    obtain ⟨_, _, h₁', h⟩ | ⟨_, -, h₁'⟩ := Ends.bind_iff.1 h
    · obtain ⟨-, rfl⟩ := h₁.unique h₁'
      exact rest.registers (fun d u hm => hall d u (.insist h₁ hm)) hs₁ h
    · cases (h₁.unique h₁').1
  | attempt c rest =>
    obtain ⟨s₁, h₁⟩ := (hall c s (.attempted (.self c s))).succeeds
    have hs₁ := c.registers (fun d u hm => hall d u (.attempted hm)) hs h₁
    obtain ⟨_, _, h₁', h⟩ | ⟨_, -, h₁'⟩ := Ends.bind_iff.1 h
    · obtain ⟨-, _, h₁'⟩ := tryCatch_iff.1 h₁'
      obtain ⟨-, rfl⟩ := h₁.unique h₁'
      exact rest.registers (fun d u hm => hall d u (.attempt h₁ hm)) hs₁ h
    · cases (tryCatch_iff.1 h₁').1

end

/-- If all requests in the course of a script succeed, with types that the table `T` has kept, then the header of the
module defines the structs in its storage, and nothing else. Each is defined by its layout, under the name that all
struct types of this one struct have, and no others. -/
theorem header_defines_storage {sizeBits : Nat} {T : TypeTable} {name : String} {script : Script} {s : Emitter}
    {r : Except Fault Unit} (h : Ends script.code (Emitter.new name) r s)
    (hall : ∀ c u, script.Makes (Emitter.new name) c u → (∃ u', Ends c.code u (.ok ()) u') ∧
      ∀ t, c.table? = some t → TypeTable.Reaches (.empty sizeBits) t ∧ TypeTable.Reaches t T) :
    (∀ n x, s.module.typeDefs.find? n = some x ↔ x.IsRecord n ∧ ∃ ty ∈ s.storage, x.Within ty) ∧
    (∀ n x, s.module.typeDefs.find? n = some x →
      (∃ ty, T.isStruct ty = true ∧ T.layoutName? ty = some n) ∧
      ∀ ty, T.isStruct ty = true → T.layoutName? ty = some n → T.layout ty = .ok x) ∧
    ∀ a b, T.isStruct a = true → T.isStruct b = true →
      (T.layoutName? a = T.layoutName? b ↔ T.structId? a = T.structId? b) := by
  have hclean : ∀ c u, script.Makes (Emitter.new name) c u → c.Clean T u := by
    intro c u hm
    obtain ⟨hok, htable⟩ := hall c u hm
    exact ⟨hm.steady (new_steady name), fun t ht => (htable t ht).1.covers (htable t ht).2, hok⟩
  have hs : s.Headed T := script.registers hclean (Headed.new T name) h
  refine ⟨hs.find?_iff, fun n x hx => ?_, fun a b => TypeTable.layoutName?_inj⟩
  obtain ⟨⟨field, fields, rfl⟩, ty, hty, hw⟩ := (hs.find?_iff n x).1 hx
  obtain ⟨a, ha, hlayout⟩ := hs.described ty hty _ _ hw
  have hname := TypeTable.layoutName?_of_layout ha hlayout
  exact ⟨⟨a, ha, hname⟩, fun b hb hb' => TypeTable.layout_eq_of_name ha hb (hname.trans hb'.symm) hlayout⟩

/-- A request without bodies. -/
def Request.isFlat : Request → Bool
  | .ifThen .. | .ifElse .. | .loop .. => false
  | _ => true

theorem Request.Makes.eq_of_isFlat {c d : Request} {s u : Emitter} (h : c.Makes s d u) (hflat : c.isFlat = true) :
    d = c ∧ u = s := by
  cases h with
  | self => exact ⟨rfl, rfl⟩
  | ifThen | ifElse | orElse | loop => cases hflat

namespace Unstored

open Session

/-- A line is an array of two points, and there is a pointer to a struct of its own. -/
def ops : List TypeTable.Op :=
  [.integer 32 true, .incompleteStruct "Point", .completeStruct ⟨1⟩ ["x"] [⟨0⟩], .array ⟨1⟩ 2,
    .incompleteStruct "Line", .completeStruct ⟨3⟩ ["ends"] [⟨2⟩], .incompleteStruct "Lone",
    .completeStruct ⟨4⟩ ["x"] [⟨0⟩], .pointer ⟨4⟩, .void, .function ⟨6⟩ [⟨5⟩] false]

def table : TypeTable := ops.foldl TypeTable.Op.apply (.empty 64)

theorem reaches : TypeTable.Reaches (.empty 64) table := TypeTable.Op.reaches_foldl (by decide +kernel)

/-- The line is declared first, so that the symbol of `p` is 1. -/
def history : History := .run
  [.types ops, .declareVariable "line" ⟨3⟩ none, .openScope, .declareParameter "p" ⟨5⟩, .identifier "p",
    .unary .dereference 0]

/-- `*p` -/
def e : Expr := history.expr 1

def line (t : TypeTable) : Request := .declareGlobal t ⟨0, "line", ⟨3⟩, .global, none⟩

def begins (t : TypeTable) : Request := .start t "f" ⟨7⟩ [(1, "p")]

/-- `Line line; void f(Lone *p) { *p; }` -/
def script (t : TypeTable) : Script :=
  .insist (line t) (.insist (begins t) (.insist (.expr t e) (.insist .finish .nil)))

def final (t : TypeTable) : Emitter := ((script t).code.run.run (Emitter.new "m")).2

/-- A request for code, made with the types of the table, that succeeds. -/
def Granted (c : Request) (s : Emitter) : Prop :=
  (∃ s', Ends c.code s (.ok ()) s') ∧
    ∀ t, c.table? = some t → TypeTable.Reaches (.empty 64) t ∧ TypeTable.Reaches t table

open Interrupted in
theorem granted_insist {c : Request} {rest : Script} {s : Emitter} (hflat : c.isFlat = true)
    (hok : (c.code.run.run s).1 = .ok ()) (ht : c.table? = some table ∨ c.table? = none)
    (hrest : ∀ d u, rest.Makes (next c s) d u → Granted d u) :
    ∀ d u, (Script.insist c rest).Makes s d u → Granted d u := by
  intro d u hm
  cases hm with
  | insisted hm =>
    obtain ⟨rfl, rfl⟩ := hm.eq_of_isFlat hflat
    refine ⟨⟨_, ends_next hok⟩, fun t h => ?_⟩
    rcases ht with ht | ht
    · cases h.symm.trans ht
      exact ⟨reaches, .refl⟩
    · cases h.symm.trans ht
  | insist h hm =>
    obtain ⟨-, rfl⟩ := (ends_next hok).unique h
    exact hrest d u hm

theorem script_granted : ∀ c s, (script table).Makes (Emitter.new "m") c s → Granted c s :=
  granted_insist rfl (by decide +kernel) (.inl rfl) <| granted_insist rfl (by decide +kernel) (.inl rfl) <|
    granted_insist rfl (by decide +kernel) (.inl rfl) <| granted_insist rfl (by decide +kernel) (.inr rfl) nofun

def point : Ty := .struct (some "Point.0") [.i32]

def lone : Ty := .struct (some "Lone.2") [.i32]

end Unstored

open Unstored in
theorem line_header_defines_storage :
    TypeTable.Reaches (.empty 64) table ∧ Ends (script table).code (Emitter.new "m") (.ok ()) (final table) ∧
    (∀ c s, (script table).Makes (Emitter.new "m") c s → Granted c s) ∧
    (∃ ty ∈ (final table).storage, point.Within ty) ∧ (¬ ∃ ty ∈ (final table).storage, lone.Within ty) ∧
    (final table).module.typeDefs.find? "Point.0" = some point ∧ table.layout ⟨1⟩ = .ok point := by
  have hends : Ends (script table).code (Emitter.new "m") (.ok ()) (final table) := Prod.ext (by decide +kernel) rfl
  have hpoint : (final table).module.typeDefs.find? "Point.0" = some point := by decide +kernel
  have hlone : (final table).module.typeDefs.find? "Lone.2" = none := by decide +kernel
  obtain ⟨hiff, hlayout, -⟩ := header_defines_storage hends script_granted
  refine ⟨reaches, hends, script_granted, ((hiff _ _).1 hpoint).2, fun hstored => ?_, hpoint, ?_⟩
  · rw [(hiff "Lone.2" lone).2 ⟨⟨.i32, [], rfl⟩, hstored⟩] at hlone
    cases hlone
  · exact (hlayout _ _ hpoint).2 ⟨1⟩ (by decide +kernel) (by decide +kernel)

/-- The type of the value that an instruction loads, stores or gets from a call. -/
def Ir.Instr.moved? : Instr → Option Ty
  | .load _ _ ty | .store _ _ ty | .call _ _ _ ty => some ty
  | _ => none

open Unstored in
/-- A struct that is only loaded through a pointer is used in the module and not defined there. -/
theorem loaded_struct_undefined :
    history.session.Reachable history.exprs ∧ e ∈ history.exprs ∧
    Ends (script history.session.types).code (Emitter.new "m") (.ok ()) (final history.session.types) ∧
    history.session.types.layout ⟨4⟩ = .ok lone ∧ lone.IsRecord "Lone.2" ∧
    (∃ f ∈ (final history.session.types).module.functions, ∃ b ∈ f.blocks, ∃ i ∈ b.instrs, i.moved? = some lone) ∧
    (final history.session.types).module.typeDefs.find? "Lone.2" = none :=
  ⟨Session.History.run_reachable _, Session.History.expr_mem (by decide +kernel), Prod.ext (by decide +kernel) rfl,
    by decide +kernel, ⟨.i32, [], rfl⟩, by decide +kernel, by decide +kernel⟩

end TypedCore
