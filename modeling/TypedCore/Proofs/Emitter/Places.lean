import TypedCore.Proofs.Emitter.Faults
import TypedCore.Proofs.Outcome
import TypedCore.Proofs.Typing.Coherent

/-!
# Code finds the places that it needs

`Finds x`: code `x` may fail, but never because an expression has no address. The code of an expression insists
on the addresses of operands of `&`, of steps and on the left of assignments only; elsewhere an object without a
place is put into a temporary. So all of it finds its places if these operands have addresses (`lower_finds`).
-/

namespace TypedCore

open Ir Lowering

variable {α β : Type}

/-- An outcome that does not say that an expression has no address. -/
def Located (r : Except Fault α) : Prop := ∀ text, r ≠ .error (.notAddressable text)

namespace Located

theorem ok (a : α) : Located (.ok a) := nofun

theorem error {f : Fault} (h : ∀ text, f ≠ .notAddressable text) : Located (.error f : Except Fault α) :=
  fun text hf => h text (Except.error.inj hf)

end Located

theorem BlamesType.located {r : Except Fault α} (h : BlamesType r) : Located r :=
  fun _ hr => Bool.noConfusion (h _ hr)

/-! ### Code -/

/-- Code that never fails for want of an address. -/
def Finds (x : EmitM α) : Prop := ∀ ⦃s r s'⦄, Ends x s r s' → Located r

namespace Finds

theorem pure (a : α) : Finds (pure a) := by
  intro s r s' h
  obtain ⟨rfl, -⟩ := Ends.pure_iff.1 h
  exact .ok a

theorem throw {f : Fault} (hf : ∀ text, f ≠ .notAddressable text) : Finds (throw f : EmitM α) := by
  intro s r s' h
  obtain ⟨rfl, -⟩ := Ends.throw_iff.1 h
  exact .error hf

theorem lift {y : Except Fault α} (hy : BlamesType y) : Finds (liftM y : EmitM α) := by
  intro s r s' h
  obtain ⟨rfl, -⟩ := Ends.lift_iff.1 h
  exact hy.located

theorem bind {x : EmitM α} {f : α → EmitM β} (hx : Finds x) (hf : ∀ a, Finds (f a)) : Finds (x >>= f) := by
  intro s r s' h
  obtain ⟨a, s₁, -, h₂⟩ | ⟨e, rfl, h₁⟩ := Ends.bind_iff.1 h
  · exact hf a h₂
  · exact .error fun text he => hx h₁ text (he ▸ rfl)

theorem get_bind {f : Emitter → EmitM β} (hf : ∀ s, Finds (f s)) : Finds (get >>= f) :=
  fun s _ _ h => hf s (Ends.get_bind_iff.1 h)

theorem set (s : Emitter) : Finds (set s : EmitM PUnit) := by
  intro _ r s' h
  obtain ⟨rfl, -⟩ := Ends.set_iff.1 h
  exact .ok _

theorem modify (g : Emitter → Emitter) : Finds (modify g : EmitM PUnit) := by
  intro s r s' h
  obtain ⟨rfl, -⟩ := Ends.modify_iff.1 h
  exact .ok _

theorem ite {p : Prop} [Decidable p] {x y : EmitM α} (hx : p → Finds x) (hy : ¬ p → Finds y) :
    Finds (if p then x else y) := by
  split
  · exact hx ‹p›
  · exact hy ‹¬ p›

/-! ### Operations of an emitter -/

/-- The builder has failures of its own. -/
theorem build (x : BuilderM α) : Finds (Emit.build x) := by
  intro s r s' h
  unfold Emit.build Ends at h
  simp only [ExceptT.run_mk, StateT.run] at h
  split at h
  · cases h
    exact .ok _
  · cases h
    exact .error nofun

theorem requireFunction : Finds Emit.requireFunction := by
  refine get_bind fun s => ?_
  split
  · exact pure _
  · exact throw nofun

theorem openBlock : Finds Emit.openBlock :=
  requireFunction.bind fun _ => get_bind fun _ => ite (fun _ => build _) fun _ => pure _

theorem defineLabel (label : LabelId) : Finds (Emit.defineLabel label) :=
  requireFunction.bind fun _ => get_bind fun _ =>
    ite (fun _ => (build _).bind fun _ => build _) fun _ => build _

theorem jump (target : LabelId) : Finds (Emit.jump target) := openBlock.bind fun _ => build _

theorem condJump (v : Value) (onTrue onFalse : LabelId) : Finds (Emit.condJump v onTrue onFalse) :=
  openBlock.bind fun _ => build _

theorem load (address : Value) (ty : Ty) : Finds (Emit.load address ty) :=
  openBlock.bind fun _ => (build _).bind fun _ => pure _

theorem store (value address : Value) (ty : Ty) : Finds (Emit.store value address ty) :=
  openBlock.bind fun _ => build _

theorem temporary (ty : Ty) : Finds (Emit.temporary ty) :=
  openBlock.bind fun _ => (modify _).bind fun _ => build _

theorem symbolAddress (symbol : SymbolId) (name : String) (storage : Storage) :
    Finds (Emit.symbolAddress symbol name storage) := by
  cases storage with
  | automatic =>
    refine get_bind fun s => ?_
    split
    · exact pure _
    · exact throw nofun
  | _ => exact pure _

theorem stringLiteral (text : String) : Finds (Emit.stringLiteral text) :=
  get_bind fun _ => (set _).bind fun _ => pure _

theorem arith (op : BinOp) (a b : Value) (ty : Ty) : Finds (Emit.arith op a b ty) :=
  openBlock.bind fun _ => (build _).bind fun _ => pure _

theorem compare (op : BinOp) (a b : Value) : Finds (Emit.compare op a b) :=
  openBlock.bind fun _ => (build _).bind fun _ => pure _

theorem unary (op : UnOp) (a : Value) (ty : Ty) : Finds (Emit.unary op a ty) :=
  openBlock.bind fun _ => (build _).bind fun _ => pure _

theorem merge (incoming : List (Value × LabelId)) (ty : Ty) : Finds (Emit.merge incoming ty) :=
  openBlock.bind fun _ => (build _).bind fun _ => pure _

theorem call (callee : Value) (args : List Value) (ty : Ty) : Finds (Emit.call callee args ty) :=
  openBlock.bind fun _ => (build _).bind fun _ => pure _

theorem elementAddress (base index : Value) (element : Ty) : Finds (Emit.elementAddress base index element) :=
  openBlock.bind fun _ => build _

theorem memberAddress (base : Value) (index : Nat) (member : Ty) : Finds (Emit.memberAddress base index member) :=
  openBlock.bind fun _ => build _

theorem addressDifference (a b : Value) (element : Ty) : Finds (Emit.addressDifference a b element) := by
  unfold Emit.addressDifference
  split
  · exact throw nofun
  · exact (unary _ _ _).bind fun _ => (unary _ _ _).bind fun _ => (arith _ _ _ _).bind fun _ =>
      ite (fun _ => pure _) fun _ => arith _ _ _ _

theorem layout {t : TypeTable} (ty : TypeId) : Finds (liftM (t.layout ty) : EmitM Ty) :=
  lift (TypeTable.layout_blames ty)

/-! ### From the code of the operands -/

theorem truth (t : TypeTable) (v : Value) (ty : TypeId) : Finds (truth t v ty) :=
  ite (fun _ => pure _) fun _ => (layout _).bind fun _ => compare _ _ _

theorem branchOnValue (t : TypeTable) (ty : TypeId) {x : EmitM Value} (hx : Finds x) (onTrue onFalse : LabelId) :
    Finds (branchOnValue t ty x onTrue onFalse) :=
  hx.bind fun v => (truth t v ty).bind fun _ => condJump _ _ _

theorem currentLabel : Finds currentLabel := by
  refine get_bind fun s => ?_
  split
  · exact pure _
  · exact throw nofun

theorem materialize {branch : LabelId → LabelId → EmitM Unit}
    (hb : ∀ onTrue onFalse, Finds (branch onTrue onFalse)) : Finds (materialize branch) :=
  (build _).bind fun _ => (build _).bind fun _ => (build _).bind fun _ => (hb _ _).bind fun _ =>
    (defineLabel _).bind fun _ => (jump _).bind fun _ => (defineLabel _).bind fun _ => (jump _).bind fun _ =>
    (defineLabel _).bind fun _ => merge _ _

theorem initElements (t : TypeTable) (ty : TypeId) (address : Value) (index : Nat)
    {inits : List (Value → TypeId → EmitM Unit)} (h : ∀ i ∈ inits, ∀ v ty, Finds (i v ty)) :
    Finds (initElements t ty address index inits) := by
  induction inits generalizing index with
  | nil => exact pure _
  | cons init rest ih =>
    refine (lift (TypeTable.elementType_blames _ _)).bind fun element => (layout _).bind fun ir => ?_
    have hpart : Finds (partAddress t ty address index ir) :=
      ite (fun _ => elementAddress _ _ _) fun _ => ite (fun _ => memberAddress _ _ _) fun _ => pure _
    exact hpart.bind fun _ => (h init (by simp) _ _).bind fun _ => ih _ fun i hi => h i (by simp [hi])

theorem initAggregate (t : TypeTable) {inits : List (Value → TypeId → EmitM Unit)}
    (h : ∀ i ∈ inits, ∀ v ty, Finds (i v ty)) (address : Value) (ty : TypeId) :
    Finds (initAggregate t inits address ty) :=
  (layout _).bind fun _ => ite (fun _ => (store _ _ _).bind fun _ => initElements _ _ _ _ h)
    fun _ => initElements _ _ _ _ h

theorem initValue (t : TypeTable) {x : EmitM Value} (hx : Finds x) (address : Value) (ty : TypeId) :
    Finds (initValue t x address ty) :=
  (layout _).bind fun _ => hx.bind fun _ => store _ _ _

end Finds

/-! ### Expressions -/

/-- The code of an expression finds its places; if the expression is a `place` itself, its address too. -/
structure Lowering.Code.Finds (place : Bool) (c : Code) : Prop where
  value : TypedCore.Finds c.value
  address : place = true → TypedCore.Finds c.address
  branch : ∀ onTrue onFalse, TypedCore.Finds (c.branch onTrue onFalse)
  init : ∀ v ty, TypedCore.Finds (c.init v ty)
  elements : ∀ es, c.elements = some es → ∀ i ∈ es, ∀ v ty, TypedCore.Finds (i v ty)

namespace Lowering

variable {t : TypeTable} {e child : Expr} {code : Code} {place : Bool}

namespace Code.Finds

theorem ofNode {value address : EmitM Value} {branch : LabelId → LabelId → EmitM Unit}
    {elements : Option (List (Value → TypeId → EmitM Unit))} (hv : TypedCore.Finds value)
    (ha : place = true → TypedCore.Finds address) (hb : ∀ onTrue onFalse, TypedCore.Finds (branch onTrue onFalse))
    (he : ∀ es, elements = some es → ∀ i ∈ es, ∀ v ty, TypedCore.Finds (i v ty)) :
    Code.Finds place (Code.ofNode t e value address branch elements) := by
  unfold Code.ofNode
  split
  · rename_i c _
    have hc : TypedCore.Finds (liftM (constantValue t e.ty c) : EmitM Value) := .lift (constantValue_blames e.ty c)
    exact ⟨hc, ha, fun _ _ => .jump _, fun v ty => .initValue t hc v ty, he⟩
  · refine ⟨hv, ha, hb, fun v ty => ?_, he⟩
    cases elements with
    | some es => exact .initAggregate t (he es rfl) v ty
    | none => exact .initValue t hv v ty

theorem ofValue {value : EmitM Value} (hv : TypedCore.Finds value) : Code.Finds false (Code.ofValue t e value) :=
  ofNode hv nofun (fun _ _ => .branchOnValue t _ hv _ _) nofun

theorem ofBranch {branch : LabelId → LabelId → EmitM Unit}
    (hb : ∀ onTrue onFalse, TypedCore.Finds (branch onTrue onFalse)) : Code.Finds false (Code.ofBranch t e branch) :=
  ofNode (.materialize hb) nofun hb nofun

theorem ofPlace {address : EmitM Value} (ha : TypedCore.Finds address) :
    Code.Finds place (Code.ofPlace t e address) := by
  have hv : TypedCore.Finds (do let address ← address; Emit.load address (← t.layout e.ty)) :=
    ha.bind fun _ => (TypedCore.Finds.layout _).bind fun _ => .load _ _
  exact ofNode hv (fun _ => ha) (fun _ _ => .branchOnValue t _ hv _ _) nofun

end Code.Finds

theorem objectAddress_finds (h : code.Finds e.hasAddress) : Finds (objectAddress t e code) :=
  .ite h.address fun _ => (Finds.layout _).bind fun _ => h.value.bind fun _ => (Finds.temporary _).bind fun _ =>
    (Finds.store _ _ _).bind fun _ => .pure _

theorem castValue_finds (h : code.Finds child.hasAddress) (ty : TypeId) : Finds (castValue t child code ty) := by
  refine .ite (fun _ => h.value.bind fun _ => .truth _ _ _) fun _ => .ite (fun _ => objectAddress_finds h) fun _ =>
    .ite (fun _ => h.value) fun _ => h.value.bind fun v => (Finds.lift (TypeTable.castOp_blames _ _)).bind fun op => ?_
  cases op with
  | some op => exact (Finds.layout _).bind fun _ => .unary _ _ _
  | none => exact .pure _

theorem stepValue_finds (op : UnaryOp) (h : code.Finds true) : Finds (stepValue t op child code) := by
  refine (h.address rfl).bind fun address => (Finds.layout _).bind fun ir => (Finds.load _ _).bind fun old => ?_
  have hend (new : Value) : Finds (do Emit.store new address ir; return if op.isPostfix then old else new) :=
    (Finds.store _ _ _).bind fun _ => .pure _
  exact .ite (fun _ => (Finds.lift (TypeTable.targetLayout_blames _)).bind fun _ =>
    (Finds.elementAddress _ _ _).bind hend) fun _ => (Finds.arith _ _ _ _).bind hend

theorem castCode_finds (h : code.Finds child.hasAddress) : Code.Finds false (castCode t e child code) := by
  refine .ofNode (castValue_finds h _) nofun (fun onTrue onFalse => ?_) fun es hes => ?_
  · split
    · exact h.branch _ _
    · exact .branchOnValue t _ (castValue_finds h _) _ _
  · split at hes
    · cases hes
    · exact h.elements es hes

theorem notCode_finds (h : code.Finds place) : Code.Finds false (notCode t e child code) := by
  refine .ofNode ?_ nofun (fun _ _ => h.branch _ _) nofun
  exact .ite (fun _ => .materialize fun _ _ => h.branch _ _) fun _ =>
    h.value.bind fun _ => (Finds.layout _).bind fun _ =>
    (Finds.compare _ _ _).bind fun _ => (Finds.layout _).bind fun _ => .ite (fun _ => .pure _) fun _ => .unary _ _ _

theorem dereferenceCode_finds (h : code.Finds place) : Code.Finds true (dereferenceCode t e code) := by
  have hv : Finds (do
      let address ← code.value
      if t.isFunction e.ty then return address else Emit.load address (← t.layout e.ty)) :=
    h.value.bind fun _ => .ite (fun _ => .pure _) fun _ => (Finds.layout _).bind fun _ => .load _ _
  exact .ofNode hv (fun _ => h.value) (fun _ _ => .branchOnValue t _ hv _ _) nofun

/-! ### Binary operations -/

variable {left right : Expr} {leftCode rightCode : Code}

theorem arithmeticValue_finds (op : BinaryOp) (leftTy : TypeId) (l : Value) (rightTy : TypeId) (r : Value)
    (ty : TypeId) : Finds (arithmeticValue t op leftTy l rightTy r ty) := by
  refine .ite (fun _ => (Finds.lift (TypeTable.targetLayout_blames _)).bind fun element => ?_) fun _ =>
    (Finds.layout _).bind fun _ => (Finds.lift (TypeTable.arithmeticOp_blames _ _)).bind fun _ => .arith _ _ _ _
  exact .ite (fun _ => .addressDifference _ _ _) fun _ => .ite (fun _ => (Finds.layout _).bind fun _ =>
    (Finds.unary _ _ _).bind fun _ => .elementAddress _ _ _) fun _ => (Finds.pure _).bind fun _ => .elementAddress _ _ _

theorem comparisonValue_finds (op : BinaryOp) (ty : TypeId) (l r : Value) : Finds (comparisonValue t op ty l r) := by
  refine (Finds.layout _).bind fun _ => ?_
  split
  · exact .compare _ _ _
  · exact .throw nofun

theorem compoundValue_finds (base : BinaryOp) (hl : leftCode.Finds true) (hr : rightCode.Finds place) :
    Finds (compoundValue t base left leftCode right rightCode) :=
  (hl.address rfl).bind fun _ => (Finds.layout _).bind fun _ => (Finds.load _ _).bind fun _ => hr.value.bind fun _ =>
    (arithmeticValue_finds _ _ _ _ _ _).bind fun _ => (Finds.store _ _ _).bind fun _ => .pure _

theorem indexAddress_finds (hl : leftCode.Finds left.hasAddress) (hr : rightCode.Finds place) (ty : TypeId) :
    Finds (indexAddress t left leftCode rightCode ty) := by
  have hend (base : Value) : Finds (do
      let index ← rightCode.value
      Emit.elementAddress base index (← t.layout ty)) :=
    hr.value.bind fun _ => (Finds.layout _).bind fun _ => .elementAddress _ _ _
  exact .ite (fun _ => (objectAddress_finds hl).bind hend) fun _ => hl.value.bind hend

theorem andBranch_finds {place' : Bool} (hl : leftCode.Finds place) (hr : rightCode.Finds place')
    (onTrue onFalse : LabelId) : Finds (andBranch leftCode rightCode onTrue onFalse) :=
  (Finds.build _).bind fun _ => (hl.branch _ _).bind fun _ => (Finds.defineLabel _).bind fun _ => hr.branch _ _

theorem orBranch_finds {place' : Bool} (hl : leftCode.Finds place) (hr : rightCode.Finds place')
    (onTrue onFalse : LabelId) : Finds (orBranch leftCode rightCode onTrue onFalse) :=
  (Finds.build _).bind fun _ => (hl.branch _ _).bind fun _ => (Finds.defineLabel _).bind fun _ => hr.branch _ _

end Lowering

namespace Expr

/-- What has to have an address has one. -/
def Destined : Expr → Prop
  | unary op child _ =>
    match op with
    | .addressOf | .preIncrement | .postIncrement | .preDecrement | .postDecrement => child.hasAddress = true
    | _ => True
  | binary op left _ _ => op.isAssignment = true → left.hasAddress = true
  | _ => True

end Expr

namespace Lowering

open Expr

variable {t : TypeTable} {e child left right : Expr} {code leftCode rightCode : Code} {note : Note}

theorem unaryCode_finds {op : UnaryOp} (hd : Destined (.unary op child note)) (h : code.Finds child.hasAddress) :
    Code.Finds (op == .dereference) (unaryCode t e op child code) := by
  cases op with
  | cast => exact castCode_finds h
  | explicitCast => exact .ofValue (castValue_finds h _)
  | minus => exact .ofValue (h.value.bind fun _ => (Finds.layout _).bind fun _ => .unary _ _ _)
  | logicalNot => exact notCode_finds h
  | dereference => exact dereferenceCode_finds h
  | addressOf => exact .ofValue (h.address hd)
  | preIncrement | postIncrement | preDecrement | postDecrement =>
    replace hd : child.hasAddress = true := hd
    rw [hd] at h
    exact .ofValue (stepValue_finds _ h)

theorem binaryCode_finds {op : BinaryOp} (hd : Destined (.binary op left right note))
    (hl : leftCode.Finds left.hasAddress) (hr : rightCode.Finds right.hasAddress) :
    Code.Finds (op == .index) (binaryCode t e op left leftCode right rightCode) := by
  cases op with
  | assign =>
    exact .ofValue ((hl.address (hd rfl)).bind fun _ => hr.value.bind fun _ => (Finds.layout _).bind fun _ =>
      (Finds.store _ _ _).bind fun _ => .pure _)
  | addAssign | subAssign | mulAssign | divAssign | modAssign =>
    rw [hd rfl] at hl
    exact .ofValue (compoundValue_finds _ hl hr)
  | add | sub | mul | div | mod =>
    exact .ofValue (hl.value.bind fun _ => hr.value.bind fun _ => arithmeticValue_finds _ _ _ _ _ _)
  | equal | notEqual | less | greater | lessEqual | greaterEqual =>
    exact .ofValue (hl.value.bind fun _ => hr.value.bind fun _ => comparisonValue_finds _ _ _ _)
  | logicalAnd => exact .ofBranch (andBranch_finds hl hr)
  | logicalOr => exact .ofBranch (orBranch_finds hl hr)
  | index => exact .ofPlace (indexAddress_finds hl hr _)

/-! ### Other nodes -/

/-- The codes of several expressions find their places. -/
def AllFind (codes : List Code) : Prop := ∀ c ∈ codes, ∃ place, c.Finds place

theorem valuesOf_finds {codes : List Code} (h : AllFind codes) : Finds (valuesOf codes) := by
  induction codes with
  | nil => exact .pure _
  | cons c codes ih =>
    obtain ⟨place, hc⟩ := h c (List.mem_cons_self ..)
    exact hc.value.bind fun _ => (ih fun c hc => h c (List.mem_cons_of_mem _ hc)).bind fun _ => .pure _

theorem inits_find {codes : List Code} (h : AllFind codes) :
    ∀ i ∈ codes.map (·.init), ∀ v ty, Finds (i v ty) := by
  intro i hi
  obtain ⟨c, hc, rfl⟩ := List.mem_map.1 hi
  obtain ⟨place, hc⟩ := h c hc
  exact hc.init

theorem conditionalValue_finds {a b : Code} {x y z : Bool} {ty : TypeId} (hc : code.Finds x) (ha : a.Finds y)
    (hb : b.Finds z) : Finds (conditionalValue t code a b ty) :=
  (Finds.build _).bind fun _ => (Finds.build _).bind fun _ => (Finds.build _).bind fun _ =>
    (hc.branch _ _).bind fun _ => (Finds.defineLabel _).bind fun _ => ha.value.bind fun _ =>
    Finds.currentLabel.bind fun _ => (Finds.jump _).bind fun _ => (Finds.defineLabel _).bind fun _ =>
    hb.value.bind fun _ => Finds.currentLabel.bind fun _ => (Finds.jump _).bind fun _ =>
    (Finds.defineLabel _).bind fun _ => .ite (fun _ => .pure _) fun _ => (Finds.layout _).bind fun _ => .merge _ _

theorem callValue_finds {args : List Code} {place : Bool} {ty : TypeId} (h : code.Finds place)
    (hargs : AllFind args) : Finds (callValue t code args ty) :=
  h.value.bind fun _ => (valuesOf_finds hargs).bind fun _ => (Finds.layout _).bind fun _ =>
    (Finds.call _ _ _).bind fun _ => .pure _

theorem memberAddress_finds {index : Nat} {ty : TypeId} (h : code.Finds child.hasAddress) :
    Finds (memberAddress t child code index ty) :=
  (objectAddress_finds h).bind fun _ => (Finds.layout _).bind fun _ => (Finds.layout _).bind fun _ =>
    .memberAddress _ _ _

theorem aggregateCode_finds {codes : List Code} (h : AllFind codes) : Code.Finds false (aggregateCode t e codes) := by
  have hv : Finds (aggregateValue t codes e.ty) :=
    (Finds.layout _).bind fun _ => (Finds.temporary _).bind fun _ =>
      (Finds.initAggregate t (inits_find h) _ _).bind fun _ => .load _ _
  refine .ofNode hv nofun (fun _ _ => .branchOnValue t _ hv _ _) fun es hes => ?_
  cases hes
  exact inits_find h

theorem literalCode_finds (value : Literal) :
    Code.Finds (hasAddress (.literal value note)) (literalCode t e value) := by
  have hc : Finds (loadConstant t e) := by
    unfold loadConstant
    split
    · exact .lift (constantValue_blames _ _)
    · exact .throw nofun
  cases value with
  | string text => exact .ofPlace (.stringLiteral text)
  | integer | float | bool | nullptr => exact .ofValue hc

theorem identifierCode_finds (name : String) (symbol : SymbolId) (storage : Storage) :
    Code.Finds true (identifierCode t e name symbol storage) := by
  have ha : Finds (Emit.symbolAddress symbol name storage) := .symbolAddress _ _ _
  unfold identifierCode
  split
  · exact .ofNode ha (fun _ => ha) (fun _ _ => .branchOnValue t _ ha _ _) nofun
  · exact .ofPlace ha

mutual

/-- Code finds its places if what has to have an address has one. -/
theorem lower_finds (t : TypeTable) : ∀ {e : Expr}, e.All Destined → (lower t e).Finds e.hasAddress
  | .literal value _, _ => literalCode_finds value
  | .identifier name symbol storage _ _, _ => identifierCode_finds name symbol storage
  | .proxy .., h =>
    have hc := lower_finds t h.2
    .ofNode hc.value hc.address hc.branch hc.elements
  | .unary .., h => unaryCode_finds h.1 (lower_finds t h.2)
  | .binary .., h => binaryCode_finds h.1 (lower_finds t h.2.1) (lower_finds t h.2.2)
  | .conditional .., h =>
    .ofValue (conditionalValue_finds (lower_finds t h.2.1) (lower_finds t h.2.2.1) (lower_finds t h.2.2.2))
  | .call .., h => .ofValue (callValue_finds (lower_finds t h.2.1) (lowerAll_find t h.2.2))
  | .member .., h => .ofPlace (memberAddress_finds (lower_finds t h.2))
  | .aggregate .., h => aggregateCode_finds (lowerAll_find t h.2)

theorem lowerAll_find (t : TypeTable) : ∀ {es : List Expr}, AllOf Destined es → AllFind (lowerAll t es)
  | [], _, _, hc => by cases hc
  | e :: rest, h, c, hc => by
    rcases List.mem_cons.1 hc with rfl | hc
    · exact ⟨_, lower_finds t h.1⟩
    · exact lowerAll_find t h.2 c hc

end

end Lowering

end TypedCore
