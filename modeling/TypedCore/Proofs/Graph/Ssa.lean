import Mathlib.Data.List.Nodup
import TypedCore.Proofs.Graph.Grounded
import TypedCore.Proofs.Graph.Phis

/-!
# Generated functions are in SSA form

The code of an expression uses the values of its operands after the code that computes them, and whatever control does
in between, it comes back to where these values are held. Statements hold no values across blocks but the slots of
variables. So in a finished function every temporary has one definition, and control gets to a use only through it.
-/

namespace TypedCore

open Ir Lowering Emit Emitter

/-! ### Constants -/

namespace Lowering

theorem temps_zero (ty : Ty) : (zero ty).temps = [] := by
  unfold zero
  split <;> rfl

mutual

theorem temps_constantValue {t : TypeTable} : ∀ {ty : TypeId} {c : Constant} {v : Value},
    constantValue t ty c = .ok v → v.temps = []
  | _, .integer _, _, h => by
    obtain ⟨_, -, h⟩ := except_bind_ok.1 h
    cases h
    rfl
  | _, .float _, _, h => by
    obtain ⟨_, -, h⟩ := except_bind_ok.1 h
    cases h
    rfl
  | _, .null, _, h => by
    obtain ⟨ir, -, h⟩ := except_bind_ok.1 h
    cases h
    exact temps_zero ir
  | _, .aggregate _, _, h => by
    obtain ⟨_, hvs, h⟩ := except_bind_ok.1 h
    cases h
    exact temps_constantValues hvs

theorem temps_constantValues {t : TypeTable} : ∀ {ty : TypeId} {index : Nat} {cs : List Constant} {vs : List Value},
    constantValues t ty index cs = .ok vs → Value.allTemps vs = []
  | _, _, [], _, h => by
    cases h
    rfl
  | _, _, c :: cs, _, h => by
    obtain ⟨_, -, h⟩ := except_bind_ok.1 h
    obtain ⟨_, hv, h⟩ := except_bind_ok.1 h
    obtain ⟨_, hvs, h⟩ := except_bind_ok.1 h
    cases h
    rw [Value.allTemps, temps_constantValue hv, temps_constantValues hvs]
    rfl

end

end Lowering

/-! ### Expressions -/

variable {J : List LabelId} {s : Emitter}

/-- Whatever control does in the code of `x`, its value can be used after it. -/
def Evaluates (x : EmitM Value) : Prop := ∀ J s, Develops [] J s x (Held J)

def Decides (branch : LabelId → LabelId → EmitM Unit) : Prop :=
  ∀ ⦃J⦄ s ⦃onTrue onFalse⦄, onTrue ∈ J → onFalse ∈ J → Advances [] J s (branch onTrue onFalse)

def Initializes (init : Value → TypeId → EmitM Unit) : Prop :=
  ∀ ⦃J s v⦄ ty, Held J v s → Advances [] J s (init v ty)

/-- All code of an expression uses values where they are held only. -/
structure Lowering.Code.Grounded (c : Code) : Prop where
  value : Evaluates c.value
  address : Evaluates c.address
  branch : Decides c.branch
  init : Initializes c.init
  elements : ∀ es, c.elements = some es → ∀ i ∈ es, Initializes i

theorem evaluates_throw (f : Fault) : Evaluates (throw f) := fun _ _ => .throw f

theorem held_const (n : Int64) : Held J (.const n) s := held_of_temps_nil rfl

namespace Lowering

variable {t : TypeTable} {e child : Expr} {code : Code}

theorem addressDifference_held {a b : Value} (ha : Held J a s) (hb : Held J b s) (element : Ty) :
    Develops [] J s (addressDifference a b element) (Held J) := by
  unfold addressDifference
  split
  · exact .throw _
  refine (Develops.unary _ ha _).bind fun a s₁ h₁ ha => (Develops.unary _ (hb.later h₁) _).bind fun b s₂ h₂ hb => ?_
  refine (Develops.arith _ (ha.later h₂) hb _).bind fun c s₃ _ hc => ?_
  split
  · exact .pure hc
  · exact .arith _ hc (held_const _) _

theorem elementAddress_held {base index : Value} (hb : Held J base s) (hi : Held J index s) (element : Ty) :
    Develops [] J s (elementAddress base index element) (Held J) :=
  .offset hb (by simpa using hi) _

theorem emit_memberAddress_held {base : Value} (hb : Held J base s) (index : Nat) (member : Ty) :
    Develops [] J s (Emit.memberAddress base index member) (Held J) :=
  .offset hb (by simp [held_const]) _

theorem truth_held {v : Value} (hv : Held J v s) (ty : TypeId) : Develops [] J s (truth t v ty) (Held J) := by
  unfold truth
  split
  · exact .pure hv
  · exact .lift_bind fun ir => .compare _ hv (held_of_temps_nil (temps_zero ir))

theorem branchOnValue_decides (ty : TypeId) {x : EmitM Value} (hx : Evaluates x) : Decides (branchOnValue t ty x) :=
  fun J s _ _ ht hf => (hx J s).bind fun _ _ _ hv => (truth_held hv ty).bind fun _ _ _ hc => .condJump hc ht hf

/-! ### Initializers -/

theorem partAddress_held {address : Value} (h : Held J address s) (ty : TypeId) (index : Nat) (element : Ty) :
    Develops [] J s (partAddress t ty address index element) (Held J) := by
  unfold partAddress
  split
  · exact elementAddress_held h (held_const _) _
  · split
    · exact emit_memberAddress_held h _ _
    · exact .pure h

theorem initElements_advances {inits : List (Value → TypeId → EmitM Unit)} (h : ∀ i ∈ inits, Initializes i)
    {address : Value} (ha : Held J address s) (ty : TypeId) (index : Nat) :
    Advances [] J s (initElements t ty address index inits) := by
  induction inits generalizing index s with
  | nil => exact .pure trivial
  | cons init rest ih =>
    unfold initElements
    refine .lift_bind fun element => .lift_bind fun ir => ?_
    refine (partAddress_held ha ty index ir).bind fun part s₁ h₁ hp => ?_
    refine (h init (by simp) element hp).bind fun _ s₂ h₂ _ => ?_
    exact ih (fun i hi => h i (by simp [hi])) ((ha.later h₁).later h₂) _

theorem initAggregate_initializes {inits : List (Value → TypeId → EmitM Unit)} (h : ∀ i ∈ inits, Initializes i) :
    Initializes (initAggregate t inits) := by
  intro J s v ty hv
  unfold initAggregate
  refine .lift_bind fun ir => ?_
  split
  · refine (Develops.store (held_of_temps_nil (temps_zero ir)) hv ir).bind fun _ s₁ h₁ _ => ?_
    exact initElements_advances h (hv.later h₁) ty 0
  · exact initElements_advances h hv ty 0

theorem initValue_initializes {x : EmitM Value} (hx : Evaluates x) : Initializes (initValue t x) :=
  fun J s _ _ hv => .lift_bind fun ir => (hx J s).bind fun _ _ h₁ hw => .store hw (hv.later h₁) ir

/-! ### Where ways meet -/

theorem materialize_evaluates {branch : LabelId → LabelId → EmitM Unit} (hb : Decides branch) :
    Evaluates (materialize branch) := by
  intro J s
  refine .createLabel_value fun onTrue _ => .createLabel_value fun onFalse _ => .createLabel_value fun done s₁ => ?_
  refine (hb s₁ (by simp) (by simp)).weaken.bind fun _ _ _ _ => ?_
  refine (Develops.defineLabel (by simp) (by simp)).bind fun _ _ _ _ => ?_
  refine (Develops.jump (by simp)).weaken.bind fun _ _ _ _ => ?_
  refine (Develops.defineLabel (by simp) (by simp)).bind fun _ _ _ _ => ?_
  refine (Develops.jump (by simp)).weaken.bind fun _ _ _ _ => ?_
  refine (Develops.defineLabel (by simp) (by simp)).bind fun _ _ _ _ => ?_
  exact (Develops.merge _ (by simp [Value.temps])).weaken

/-- Each way hands its value over at its end, from where control goes to the block that merges them. -/
theorem conditionalValue_evaluates {cond a b : Code} (ty : TypeId) (hc : Decides cond.branch) (ha : Evaluates a.value)
    (hb : Evaluates b.value) : Evaluates (conditionalValue t cond a b ty) := by
  intro J s
  refine .createLabel_value fun onTrue _ => .createLabel_value fun onFalse _ => .createLabel_value fun done s₁ => ?_
  refine (hc s₁ (by simp) (by simp)).weaken.bind fun _ _ _ _ => ?_
  refine (Develops.defineLabel (by simp) (by simp)).bind fun _ s₂ _ _ => ?_
  refine (ha _ s₂).weaken.bind fun v s₃ h₃ hv => .currentLabel_bind fun fromThen hthen => ?_
  have hthen : ∀ t ∈ v.temps, s₃.Feeds _ t fromThen := fun t ht => (hv t ht).feeds h₃.after.toLabelled hthen
  refine (Develops.jump (by simp)).weaken.bind fun _ s₄ h₄ _ => ?_
  refine (Develops.defineLabel (by simp) (by simp)).bind fun _ s₅ h₅ _ => ?_
  refine (hb _ s₅).weaken.bind fun w s₆ h₆ hw => .currentLabel_bind fun fromElse helse => ?_
  have helse : ∀ t ∈ w.temps, s₆.Feeds _ t fromElse := fun t ht => (hw t ht).feeds h₆.after.toLabelled helse
  refine (Develops.jump (by simp)).weaken.bind fun _ s₇ h₇ _ => ?_
  refine (Develops.defineLabel (by simp) (by simp)).bind fun _ s₈ h₈ _ => ?_
  split
  · exact .pure (held_of_temps_nil rfl)
  · refine .lift_bind fun ir => (Develops.merge ir fun p hp t ht => ?_).weaken
    rcases List.mem_cons.1 hp with rfl | hp
    · exact (hthen t ht).onward (((h₄.trans h₅).trans (h₆.trans h₇)).trans h₈)
    · cases List.mem_singleton.1 hp
      exact (helse t ht).onward (h₇.trans h₈)

theorem andBranch_decides {left right : Code} (hl : Decides left.branch) (hr : Decides right.branch) :
    Decides (andBranch left right) := by
  intro J s onTrue onFalse ht hf
  refine .createLabel_advance fun check s₁ => ?_
  refine (hl s₁ (by simp) (by simp [hf])).weaken.bind fun _ _ _ _ => ?_
  exact (Develops.defineLabel (by simp) (by simp)).bind fun _ s₂ _ _ => (hr s₂ (by simp [ht]) (by simp [hf])).weaken

theorem orBranch_decides {left right : Code} (hl : Decides left.branch) (hr : Decides right.branch) :
    Decides (orBranch left right) := by
  intro J s onTrue onFalse ht hf
  refine .createLabel_advance fun check s₁ => ?_
  refine (hl s₁ (by simp [ht]) (by simp)).weaken.bind fun _ _ _ _ => ?_
  exact (Develops.defineLabel (by simp) (by simp)).bind fun _ s₂ _ _ => (hr s₂ (by simp [ht]) (by simp [hf])).weaken

/-! ### From the code of the operands -/

theorem constant_evaluates (ty : TypeId) (c : Constant) : Evaluates (liftM (constantValue t ty c)) :=
  fun _ _ => .lift fun _ hv => held_of_temps_nil (temps_constantValue hv)

namespace Code.Grounded

theorem ofNode {value address : EmitM Value} {branch : LabelId → LabelId → EmitM Unit}
    {elements : Option (List (Value → TypeId → EmitM Unit))} (hv : Evaluates value) (ha : Evaluates address)
    (hb : Decides branch) (he : ∀ es, elements = some es → ∀ i ∈ es, Initializes i) :
    (Code.ofNode t e value address branch elements).Grounded := by
  unfold Code.ofNode
  split
  · rename_i c _
    have hc := constant_evaluates (t := t) e.ty c
    refine ⟨hc, ha, fun J s onTrue onFalse ht hf => .jump ?_, initValue_initializes hc, he⟩
    split
    · exact ht
    · exact hf
  · refine ⟨hv, ha, hb, ?_, he⟩
    cases elements with
    | some es => exact initAggregate_initializes (he es rfl)
    | none => exact initValue_initializes hv

theorem ofValue {value : EmitM Value} (hv : Evaluates value) : (Code.ofValue t e value).Grounded :=
  .ofNode hv (evaluates_throw _) (branchOnValue_decides _ hv) (by simp)

theorem ofBranch {branch : LabelId → LabelId → EmitM Unit} (hb : Decides branch) :
    (Code.ofBranch t e branch).Grounded :=
  .ofNode (materialize_evaluates hb) (evaluates_throw _) hb (by simp)

theorem ofPlace {address : EmitM Value} (ha : Evaluates address) : (Code.ofPlace t e address).Grounded := by
  have hv : Evaluates (do let address ← address; Emit.load address (← t.layout e.ty)) :=
    fun J s => (ha J s).bind fun _ _ _ h => .lift_bind fun ir => .load h ir
  exact .ofNode hv ha (branchOnValue_decides _ hv) (by simp)

end Code.Grounded

theorem objectAddress_evaluates (h : code.Grounded) : Evaluates (objectAddress t e code) := by
  intro J s
  unfold objectAddress
  split
  · exact h.address J s
  refine .lift_bind fun ir => (h.value J s).bind fun v s₁ _ hv => ?_
  refine (Develops.temporary ir).bind fun slot s₂ h₂ hslot => ?_
  exact (Develops.store (hv.later h₂) hslot ir).bind fun _ _ h₃ _ => .pure (hslot.later h₃)

/-! ### Unary operations -/

theorem castValue_evaluates (h : code.Grounded) (ty : TypeId) : Evaluates (castValue t child code ty) := by
  intro J s
  unfold castValue
  split
  · exact (h.value J s).bind fun _ _ _ hv => truth_held hv _
  split
  · exact objectAddress_evaluates h J s
  split
  · exact h.value J s
  refine (h.value J s).bind fun v s₁ _ hv => .lift_bind fun op => ?_
  split
  · exact .lift_bind fun ir => .unary _ hv ir
  · exact .pure hv

theorem stepValue_evaluates (op : UnaryOp) (h : code.Grounded) : Evaluates (stepValue t op child code) := by
  intro J s
  unfold stepValue
  refine (h.address J s).bind fun address s₁ _ ha => .lift_bind fun ir => ?_
  refine (Develops.load ha ir).bind fun old s₂ h₂ hold => ?_
  have hend : ∀ new s₃, Onward [] J s₂ s₃ → Held J new s₃ →
      Develops [] J s₃ (do Emit.store new address ir; return if op.isPostfix then old else new) (Held J) := by
    intro new s₃ h₃ hnew
    refine (Develops.store hnew ((ha.later h₂).later h₃) ir).bind fun _ s₄ h₄ _ => .pure ?_
    split
    · exact (hold.later h₃).later h₄
    · exact hnew.later h₄
  by_cases hp : t.isPointer child.ty = true
  · simp only [hp, ↓reduceIte]
    exact .lift_bind fun element => (elementAddress_held hold (held_const _) element).bind hend
  · simp only [hp]
    exact (Develops.arith _ hold (held_const _) ir).bind hend

theorem castCode_grounded (h : code.Grounded) : (castCode t e child code).Grounded := by
  refine .ofNode (castValue_evaluates h _) (evaluates_throw _) ?_ fun es hes => ?_
  · split
    · exact h.branch
    · exact branchOnValue_decides _ (castValue_evaluates h _)
  · split at hes
    · cases hes
    · exact h.elements es hes

theorem notCode_grounded (h : code.Grounded) : (notCode t e child code).Grounded := by
  have hb : Decides fun onTrue onFalse => code.branch onFalse onTrue := fun J s _ _ ht hf => h.branch s hf ht
  refine .ofNode ?_ (evaluates_throw _) hb (by simp)
  split
  · exact materialize_evaluates hb
  · intro J s
    unfold notValue
    refine (h.value J s).bind fun v s₁ _ hv => .lift_bind fun ir => ?_
    refine (Develops.compare _ hv (held_of_temps_nil (temps_zero ir))).bind fun z s₂ _ hz => .lift_bind fun out => ?_
    split
    · exact .pure hz
    · exact .unary _ hz out

theorem dereferenceCode_grounded (h : code.Grounded) : (dereferenceCode t e code).Grounded := by
  have hv : Evaluates (do
      let address ← code.value
      if t.isFunction e.ty then return address else Emit.load address (← t.layout e.ty)) := by
    intro J s
    refine (h.value J s).bind fun address s₁ _ ha => ?_
    split
    · exact .pure ha
    · exact .lift_bind fun ir => .load ha ir
  exact .ofNode hv h.value (branchOnValue_decides _ hv) (by simp)

theorem minusValue_evaluates (h : code.Grounded) (ty : TypeId) : Evaluates (minusValue t code ty) :=
  fun J s => (h.value J s).bind fun _ _ _ hv => .lift_bind fun ir => .unary _ hv ir

theorem unaryCode_grounded (op : UnaryOp) (h : code.Grounded) : (unaryCode t e op child code).Grounded := by
  cases op with
  | cast => exact castCode_grounded h
  | explicitCast => exact .ofValue (castValue_evaluates h _)
  | minus => exact .ofValue (minusValue_evaluates h _)
  | logicalNot => exact notCode_grounded h
  | dereference => exact dereferenceCode_grounded h
  | addressOf => exact .ofValue h.address
  | preIncrement | postIncrement | preDecrement | postDecrement => exact .ofValue (stepValue_evaluates _ h)

/-! ### Binary operations -/

variable {left right : Expr} {leftCode rightCode : Code}

theorem arithmeticValue_held (op : BinaryOp) (leftTy : TypeId) {l : Value} (hl : Held J l s) (rightTy : TypeId)
    {r : Value} (hr : Held J r s) (ty : TypeId) :
    Develops [] J s (arithmeticValue t op leftTy l rightTy r ty) (Held J) := by
  unfold arithmeticValue
  split
  · refine .lift_bind fun element => ?_
    split
    · exact addressDifference_held hl hr element
    split
    · refine .lift_bind fun ir => (Develops.unary _ hr ir).bind fun index s₁ h₁ hi => ?_
      exact elementAddress_held (hl.later h₁) hi element
    · exact (Develops.pure hr).bind fun index s₁ h₁ hi => elementAddress_held (hl.later h₁) hi element
  · exact .lift_bind fun ir => .lift_bind fun irOp => .arith irOp hl hr ir

theorem comparisonValue_held (op : BinaryOp) (ty : TypeId) {l r : Value} (hl : Held J l s) (hr : Held J r s) :
    Develops [] J s (comparisonValue t op ty l r) (Held J) := by
  unfold comparisonValue
  refine .lift_bind fun _ => ?_
  split
  · exact .compare _ hl hr
  · exact .throw _

theorem assignValue_evaluates (hl : leftCode.Grounded) (hr : rightCode.Grounded) (ty : TypeId) :
    Evaluates (assignValue t leftCode rightCode ty) := by
  intro J s
  refine (hl.address J s).bind fun address s₁ _ ha => (hr.value J s₁).bind fun v s₂ h₂ hv => .lift_bind fun ir => ?_
  exact (Develops.store hv (ha.later h₂) ir).bind fun _ _ h₃ _ => .pure (hv.later h₃)

theorem compoundValue_evaluates (base : BinaryOp) (hl : leftCode.Grounded) (hr : rightCode.Grounded) :
    Evaluates (compoundValue t base left leftCode right rightCode) := by
  intro J s
  refine (hl.address J s).bind fun address s₁ _ ha => .lift_bind fun ir => ?_
  refine (Develops.load ha ir).bind fun old s₂ h₂ hold => (hr.value J s₂).bind fun v s₃ h₃ hv => ?_
  refine (arithmeticValue_held base _ (hold.later h₃) _ hv _).bind fun new s₄ h₄ hnew => ?_
  refine (Develops.store hnew (((ha.later h₂).later h₃).later h₄) ir).bind fun _ _ h₅ _ => ?_
  exact .pure (hnew.later h₅)

theorem indexAddress_evaluates (hl : leftCode.Grounded) (hr : rightCode.Grounded) (ty : TypeId) :
    Evaluates (indexAddress t left leftCode rightCode ty) := by
  intro J s
  unfold indexAddress
  have hend : ∀ base s₁, Onward [] J s s₁ → Held J base s₁ → Develops [] J s₁ (do
      let index ← rightCode.value
      Emit.elementAddress base index (← t.layout ty)) (Held J) :=
    fun base s₁ _ hbase => (hr.value J s₁).bind fun _ _ h₂ hi => .lift_bind fun ir =>
      elementAddress_held (hbase.later h₂) hi ir
  split
  · exact (objectAddress_evaluates hl J s).bind hend
  · exact (hl.value J s).bind hend

theorem binaryCode_grounded (op : BinaryOp) (hl : leftCode.Grounded) (hr : rightCode.Grounded) :
    (binaryCode t e op left leftCode right rightCode).Grounded := by
  cases op with
  | assign => exact .ofValue (assignValue_evaluates hl hr _)
  | addAssign | subAssign | mulAssign | divAssign | modAssign => exact .ofValue (compoundValue_evaluates _ hl hr)
  | add | sub | mul | div | mod =>
    exact .ofValue fun J s => (hl.value J s).bind fun _ s₁ _ ha => (hr.value J s₁).bind fun _ _ h₂ hb =>
      arithmeticValue_held _ _ (ha.later h₂) _ hb _
  | equal | notEqual | less | greater | lessEqual | greaterEqual =>
    exact .ofValue fun J s => (hl.value J s).bind fun _ s₁ _ ha => (hr.value J s₁).bind fun _ _ h₂ hb =>
      comparisonValue_held _ _ (ha.later h₂) hb
  | logicalAnd => exact .ofBranch (andBranch_decides hl.branch hr.branch)
  | logicalOr => exact .ofBranch (orBranch_decides hl.branch hr.branch)
  | index => exact .ofPlace (indexAddress_evaluates hl hr _)

/-! ### Other nodes -/

theorem valuesOf_held {codes : List Code} (h : ∀ c ∈ codes, c.Grounded) (s : Emitter) :
    Develops [] J s (valuesOf codes) fun vs s' => ∀ v ∈ vs, Held J v s' := by
  induction codes generalizing s with
  | nil => exact .pure (by simp)
  | cons c codes ih =>
    refine ((h c (by simp)).value J s).bind fun v s₁ _ hv => ?_
    refine (ih (fun c hc => h c (by simp [hc])) s₁).bind fun vs s₂ h₂ hvs => .pure ?_
    simpa using And.intro (hv.later h₂) hvs

theorem callValue_evaluates {args : List Code} (h : code.Grounded) (hargs : ∀ c ∈ args, c.Grounded) (ty : TypeId) :
    Evaluates (callValue t code args ty) := by
  intro J s
  refine (h.value J s).bind fun callee s₁ _ hcallee => (valuesOf_held hargs s₁).bind fun vs s₂ h₂ hvs => ?_
  exact .lift_bind fun ir => (Develops.call (hcallee.later h₂) hvs ir).bind fun _ _ _ hr => .pure hr

theorem memberAddress_evaluates (h : code.Grounded) (index : Nat) (ty : TypeId) :
    Evaluates (memberAddress t child code index ty) :=
  fun J s => (objectAddress_evaluates h J s).bind fun _ _ _ hb => .lift_bind fun _ => .lift_bind fun ir =>
    emit_memberAddress_held hb index ir

theorem inits_grounded {codes : List Code} (h : ∀ c ∈ codes, c.Grounded) : ∀ i ∈ codes.map (·.init), Initializes i := by
  intro i hi
  obtain ⟨c, hc, rfl⟩ := List.mem_map.1 hi
  exact (h c hc).init

theorem aggregateCode_grounded {codes : List Code} (h : ∀ c ∈ codes, c.Grounded) :
    (aggregateCode t e codes).Grounded := by
  have hv : Evaluates (aggregateValue t codes e.ty) := by
    intro J s
    refine .lift_bind fun ir => (Develops.temporary ir).bind fun slot s₁ _ hslot => ?_
    refine (initAggregate_initializes (inits_grounded h) e.ty hslot).bind fun _ _ h₂ _ => ?_
    exact .load (hslot.later h₂) ir
  refine .ofNode hv (evaluates_throw _) (branchOnValue_decides _ hv) fun es hes => ?_
  cases hes
  exact inits_grounded h

theorem stringLiteral_evaluates (text : String) : Evaluates (stringLiteral text) := by
  intro J s hs v s' h
  obtain ⟨g, n, rfl, hv, -⟩ := stringLiteral_ends h
  cases hv
  exact ⟨.note hs rfl rfl rfl (List.prefix_append _ _) (List.Subset.refl _) fun _ => .inl, held_of_temps_nil rfl⟩

theorem loadConstant_evaluates : Evaluates (loadConstant t e) := by
  unfold loadConstant
  split
  · exact constant_evaluates _ _
  · exact evaluates_throw _

theorem literalCode_grounded (value : Literal) : (literalCode t e value).Grounded := by
  cases value with
  | string text => exact .ofPlace (stringLiteral_evaluates text)
  | integer | float | bool | nullptr => exact .ofValue loadConstant_evaluates

/-- The slot of a variable may be used everywhere. -/
theorem symbolAddress_evaluates (symbol : SymbolId) (name : String) (storage : Storage) :
    Evaluates (symbolAddress symbol name storage) := by
  intro J s
  cases storage with
  | global => exact .pure (held_of_temps_nil rfl)
  | function => exact .pure (held_of_temps_nil rfl)
  | automatic =>
    refine .get_bind ?_
    split
    · rename_i slot hslot
      obtain ⟨older, newer, hlocals, -⟩ := List.lookup_eq_some_iff.1 hslot
      have hmem : (symbol, slot) ∈ s.locals := by simp [hlocals]
      exact .pure fun t ht => .inl (.inr (List.mem_flatMap.2 ⟨(symbol, slot), hmem, ht⟩))
    · exact .throw _

theorem identifierCode_grounded (name : String) (symbol : SymbolId) (storage : Storage) :
    (identifierCode t e name symbol storage).Grounded := by
  have ha := symbolAddress_evaluates symbol name storage
  unfold identifierCode
  split
  · exact .ofNode ha ha (branchOnValue_decides _ ha) (by simp)
  · exact .ofPlace ha

mutual

/-- Every code that an expression is lowered to uses values where they are held. -/
theorem lower_grounded (t : TypeTable) : ∀ e : Expr, (lower t e).Grounded
  | .literal value _ => literalCode_grounded value
  | .identifier name symbol storage _ _ => identifierCode_grounded name symbol storage
  | .proxy target _ =>
    have h := lower_grounded t target
    .ofNode h.value h.address h.branch h.elements
  | .unary op child _ => unaryCode_grounded op (lower_grounded t child)
  | .binary op left right _ => binaryCode_grounded op (lower_grounded t left) (lower_grounded t right)
  | .conditional cond thenExpr elseExpr _ =>
    .ofValue (conditionalValue_evaluates _ (lower_grounded t cond).branch (lower_grounded t thenExpr).value
      (lower_grounded t elseExpr).value)
  | .call callee args _ => .ofValue (callValue_evaluates (lower_grounded t callee) (lowerAll_grounded t args) _)
  | .member object _ _ _ => .ofPlace (memberAddress_evaluates (lower_grounded t object) _ _)
  | .aggregate elements _ => aggregateCode_grounded (lowerAll_grounded t elements)

theorem lowerAll_grounded (t : TypeTable) : ∀ es : List Expr, ∀ c ∈ lowerAll t es, c.Grounded
  | [], _, h => by cases h
  | e :: rest, c, h => by
    rcases List.mem_cons.1 h with rfl | h
    · exact lower_grounded t e
    · exact lowerAll_grounded t rest c h

end

/-! ### Statements -/

theorem branchOn_advances (t : TypeTable) (cond : Expr) {onTrue onFalse : LabelId} (ht : onTrue ∈ J) (hf : onFalse ∈ J)
    (s : Emitter) : Advances [] J s (branchOn t cond onTrue onFalse) :=
  (lower_grounded t cond).branch s ht hf

theorem declareGlobal_advances (name : String) (ty : Ty) (init : Option Value) :
    Advances [] J s (declareGlobal name ty init) := by
  refine (Develops.recordType ty).bind fun _ s₁ _ _ hs₁ v s₃ h => ?_
  obtain ⟨_, s₂, h₂, h₃⟩ := Ends.bind_ok_iff.1 h
  obtain ⟨-, rfl⟩ := Ends.modify_iff.1 h₂
  obtain ⟨-, rfl⟩ := Ends.pure_iff.1 h₃
  exact ⟨.note hs₁ rfl rfl rfl (List.prefix_append _ _) (List.Subset.refl _) fun _ => .inl, trivial⟩

theorem declaration_advances (t : TypeTable) (d : Declaration) : Advances [] J s (declaration t d) := by
  unfold declaration
  split
  · refine .lift_bind fun ir => ?_
    have hend (init : Option Value) (s₁ : Emitter) : Advances [] J s₁ (do let _ ← declareGlobal d.name ir init) :=
      (declareGlobal_advances d.name ir init).done
    split
    · rw [map_eq_pure_bind, bind_assoc]
      simp only [pure_bind]
      exact (loadConstant_evaluates J s).bind fun v s₁ _ _ => hend (some v) s₁
    · rw [pure_bind]
      exact hend none s
  · refine .lift_bind fun ir => (Develops.localVariable d.symbol d.name ir).bind fun address s₁ _ ha => ?_
    split
    · exact (lower_grounded t _).init d.ty ha
    · exact .pure trivial
  · exact .pure trivial

theorem returnStatement_advances (t : TypeTable) (value : Option Expr) : Advances [] J s (returnStatement t value) := by
  unfold returnStatement
  split
  · rename_i e
    rw [map_eq_pure_bind, bind_assoc]
    simp only [pure_bind]
    exact ((lower_grounded t e).value J s).bind fun _ _ _ hv => .ret (by simpa using hv)
  · rw [pure_bind]
    exact .ret (by simp)

theorem jumpIfOpen_advances {l : LabelId} (hl : l ∈ J) : Advances [] J s (jumpIfOpen l) := by
  refine .get_bind ?_
  split
  · exact .jump hl
  · exact .pure trivial

mutual

theorem statement_advances (t : TypeTable) : ∀ (st : Stmt) (J : List LabelId) (s : Emitter),
    Advances [] J s (statement t st)
  | .expr e, J, s => ((lower_grounded t e).value J s).done
  | .ret value, _, _ => returnStatement_advances t value
  | .decl d, _, _ => declaration_advances t d
  | .ifThen cond body, _, _ =>
    .createLabel_advance fun _ _ => .createLabel_advance fun _ s₁ =>
      (branchOn_advances t cond (by simp) (by simp) s₁).weaken.bind fun _ _ _ _ =>
      (Develops.defineLabel (by simp) (by simp)).bind fun _ s₂ _ _ =>
      (statements_advances t body _ s₂).weaken.bind fun _ _ _ _ => .defineLabel (by simp) (by simp)
  | .ifElse cond thenBody elseBody, _, _ =>
    .createLabel_advance fun _ _ => .createLabel_advance fun _ _ => .createLabel_advance fun _ s₁ =>
      (branchOn_advances t cond (by simp) (by simp) s₁).weaken.bind fun _ _ _ _ =>
      (Develops.defineLabel (by simp) (by simp)).bind fun _ s₂ _ _ =>
      (statements_advances t thenBody _ s₂).weaken.bind fun _ _ _ _ =>
      (jumpIfOpen_advances (by simp)).weaken.bind fun _ _ _ _ =>
      (Develops.defineLabel (by simp) (by simp)).bind fun _ s₃ _ _ =>
      (statements_advances t elseBody _ s₃).weaken.bind fun _ _ _ _ => .defineLabel (by simp) (by simp)
  | .loop cond body, _, _ =>
    .createLabel_advance fun _ _ => .createLabel_advance fun _ _ => .createLabel_advance fun _ _ =>
      (Develops.defineLabel (by simp) (by simp)).bind fun _ s₁ _ _ =>
      (branchOn_advances t cond (by simp) (by simp) s₁).weaken.bind fun _ _ _ _ =>
      (Develops.defineLabel (by simp) (by simp)).bind fun _ s₂ _ _ =>
      (statements_advances t body _ s₂).weaken.bind fun _ _ _ _ =>
      (jumpIfOpen_advances (by simp)).weaken.bind fun _ _ _ _ => .defineLabel (by simp) (by simp)
  | .block body, J, s => statements_advances t body J s

theorem statements_advances (t : TypeTable) : ∀ (body : List Stmt) (J : List LabelId) (s : Emitter),
    Advances [] J s (statements t body)
  | [], _, _ => .pure trivial
  | st :: rest, J, s => (statement_advances t st J s).bind fun _ s₁ _ _ => statements_advances t rest J s₁

end

end Lowering

/-! ### Whole functions -/

theorem enter_grounded (s : Emitter) (name : String) (ret : Ty) (params : List Parameter) (variadic : Bool) :
    (s.enter name ret params variadic).Grounded [] := by
  have hm := enter_merged s name ret params variadic
  have hcode : instrsOf (s.enter name ret params variadic).blocks = [] := rfl
  have harity : (s.enter name ret params variadic).arity = params.length := by simp [arity, enter, numbered]
  have htemps : (s.enter name ret params variadic).temps = params.length := rfl
  refine ⟨⟨⟨hm.toDrafting, hm.defined_lt, hm.leads_lt, hm.ahead⟩, by rintro _ ⟨⟩, fun b hb i hi => ?_⟩, ?_, ?_, ?_⟩
  · rw [blocks_enter, List.mem_singleton] at hb
    cases hb ▸ hi
  · exact Nat.le_of_eq (harity.trans htemps.symm)
  · have hrange : List.range' params.length (params.length - params.length) = [] := by simp
    rw [harity, htemps, hrange]
    exact congrArg resultsOf hcode
  · rw [hcode]
    intro pre i post heq
    cases pre <;> cases heq

/-- The parameters are stored in their slots. -/
theorem spill_advances (params : List Parameter) {index : Nat} {s : Emitter} (h : index + params.length ≤ s.arity) :
    Advances [] [] s (spill index params) := by
  induction params generalizing index s with
  | nil => exact .pure trivial
  | cons p params ih =>
    rw [List.length_cons] at h
    refine (Develops.localVariable p.symbol p.name p.ty).bind fun slot s₁ h₁ hslot => ?_
    have harity₁ : s₁.arity = s.arity := h₁.before.arity_steps h₁.steps
    have hparam : Held [] (.temp index) s₁ := by
      intro t ht
      rw [Value.temps, List.mem_singleton] at ht
      have hlt : index < s₁.arity := by omega
      exact .inl (.inl (ht ▸ hlt))
    refine (Develops.emit (i := .store (.temp index) slot p.ty) rfl rfl (by simp [Instr.successors])
      (by simp [Instr.operands, hparam, hslot])).bind fun _ s₂ h₂ _ => ih ?_
    have harity₂ : s₂.arity = s₁.arity := h₂.before.arity_steps h₂.steps
    omega

theorem body_advances (sts : List (TypeTable × Stmt)) (s : Emitter) : Advances [] [] s (body sts) := by
  induction sts generalizing s with
  | nil => exact .pure trivial
  | cons p sts ih => exact (statement_advances p.1 p.2 [] s).bind fun _ s₁ _ _ => ih s₁

/-! ### The finished function -/

/-- A definition in the same block comes before the use. -/
theorem mem_resultsOf_pre {bs : List Block} {b : Block} {pre post : List Instr} {i : Instr} {t : TempId}
    (hnodup : (resultsOf (instrsOf bs)).Nodup) (hb : b ∈ bs) (hinstrs : b.instrs = pre ++ i :: post)
    (hdef : t ∈ resultsOf b.instrs)
    (hordered : ∀ before after, instrsOf bs = before ++ i :: after → t ∈ resultsOf before) : t ∈ resultsOf pre := by
  obtain ⟨bs₁, bs₂, rfl⟩ := List.append_of_mem hb
  have hcode : instrsOf (bs₁ ++ b :: bs₂) = instrsOf bs₁ ++ (b.instrs ++ instrsOf bs₂) := by simp [instrsOf]
  have hmem := hordered (instrsOf bs₁ ++ pre) (post ++ instrsOf bs₂) (by simp [hcode, hinstrs])
  rw [resultsOf_append, List.mem_append] at hmem
  refine hmem.resolve_left fun hbefore => ?_
  rw [hcode, resultsOf_append, resultsOf_append] at hnodup
  exact (List.nodup_append.1 hnodup).2.2 t hbefore t (List.mem_append_left _ hdef) rfl

namespace Emitter

variable {f : Function} {bs extra : List Block} {ps : LabelId → List LabelId}

/-- A function whose blocks are those of the state `s`, but for empty ones at the end. -/
structure Closes (s : Emitter) (f : Function) (ps : LabelId → List LabelId) (bs extra : List Block) : Prop where
  params : f.params.map (·.1) = List.range s.arity
  blocks : f.blocks = withPredecessors ps bs
  split : s.blocks = bs ++ extra
  nonempty : bs ≠ []
  empty : ∀ b ∈ extra, b.instrs = []

namespace Closes

theorem mem_params (h : s.Closes f ps bs extra) {t : TempId} : t ∈ f.params.map (·.1) ↔ t < s.arity := by
  rw [h.params, List.mem_range]

theorem instrsOf_eq (h : s.Closes f ps bs extra) : instrsOf f.blocks = instrsOf s.blocks := by
  have hextra : extra.flatMap (·.instrs) = [] := List.flatMap_eq_nil_iff.2 h.empty
  rw [h.blocks, h.split, instrsOf, instrsOf, List.flatMap_append, hextra, List.append_nil, withPredecessors,
    List.flatMap_map]

/-- The blocks of the function are those of the state that contain something. -/
theorem exists_block (h : s.Closes f ps bs extra) {b : Block} (hb : b ∈ s.blocks) (hne : b.instrs ≠ []) :
    ∃ c ∈ f.blocks, c.id = b.id ∧ c.instrs = b.instrs := by
  rw [h.split, List.mem_append] at hb
  rcases hb with hb | hb
  · exact ⟨{ b with predecessors := ps b.id }, by rw [h.blocks]; exact List.mem_map_of_mem hb, rfl, rfl⟩
  · exact absurd (h.empty b hb) hne

theorem of_block (h : s.Closes f ps bs extra) {c : Block} (hc : c ∈ f.blocks) :
    ∃ b ∈ s.blocks, b.id = c.id ∧ b.instrs = c.instrs ∧ b.successors = c.successors := by
  rw [h.blocks] at hc
  obtain ⟨b, hb, rfl⟩ := List.mem_map.1 hc
  exact ⟨b, by rw [h.split]; exact List.mem_append_left _ hb, rfl, rfl, rfl⟩

theorem entry (h : s.Closes f ps bs extra) : f.entry?.map (·.id) = s.defined.head? := by
  obtain ⟨b, bs', hbs⟩ := List.exists_cons_of_ne_nil h.nonempty
  simp [Function.entry?, h.blocks, hbs, withPredecessors, defined, h.split]

theorem leads (h : s.Closes f ps bs extra) {a b : LabelId} (hab : (a, b) ∈ f.edges) : s.Leads a b := by
  obtain ⟨c, hc, hab⟩ := List.mem_flatMap.1 hab
  obtain ⟨m, hm, hab⟩ := List.mem_map.1 hab
  cases hab
  obtain ⟨d, hd, hid, -, hsucc⟩ := h.of_block hc
  exact ⟨d, hd, hid, hsucc ▸ hm⟩

theorem block_unique (h : s.Closes f ps bs extra) (hs : s.Drafting) {b c : Block} (hb : b ∈ f.blocks)
    (hc : c ∈ f.blocks) (hid : b.id = c.id) : b = c := by
  have hnodup : (f.blocks.map (·.id)).Nodup := by
    have hdefined := hs.nodup
    rw [defined, h.split, List.map_append] at hdefined
    rw [h.blocks, map_id_withPredecessors]
    exact (List.nodup_append.1 hdefined).1
  exact List.inj_on_of_nodup_map hnodup hb hc hid

/-- What is defined on all ways to a block is supplied there. -/
theorem supplies (h : s.Closes f ps bs extra) {t : TempId} {u : LabelId} {pre : List Instr} (hf : s.Feeds [] t u)
    (hslot : t ∉ s.variableSlots) (hhere : ∀ c ∈ f.blocks, c.id = u → t ∈ resultsOf c.instrs → t ∈ resultsOf pre) :
    f.Supplies t u pre := by
  rcases hf with (ht | ht) | ⟨l, ⟨d, hd, rfl, ht⟩, henc⟩
  · exact .inl (h.mem_params.2 ht)
  · exact absurd ht hslot
  · have hne : d.instrs ≠ [] := by
      intro hnil
      rw [hnil] at ht
      cases ht
    obtain ⟨c, hc, hid, hinstrs⟩ := h.exists_block hd hne
    rw [← hinstrs] at ht
    by_cases hcu : c.id = u
    · exact .inr (.inl (hhere c hc hcu ht))
    · exact .inr (.inr ⟨c, hc, hcu, ht, hid ▸ henc.dominates h.entry fun a b => h.leads⟩)

end Closes

theorem Grounded.inSsaForm (hs : s.Grounded []) (hm : s.Merged []) (h : s.Closes f ps bs extra) :
    f.InSsaForm s.variableSlots := by
  have hnodup : (resultsOf (instrsOf f.blocks)).Nodup := by
    rw [h.instrsOf_eq, hs.results]
    exact List.nodup_range'
  have hnew : ∀ t ∈ resultsOf (instrsOf f.blocks), ¬ t < s.arity := by
    rw [h.instrsOf_eq, hs.results]
    intro t ht
    exact Nat.not_lt.2 (List.mem_range'_1.1 ht).1
  refine ⟨fun t ht => ?_, ?_, hnodup, fun t ht hp => hnew t ht (h.mem_params.1 hp), ?_, ?_, ?_⟩
  · obtain ⟨p, hp, ht⟩ := List.mem_flatMap.1 ht
    obtain ⟨t', slot, ty, hp, hmem⟩ := hs.slot p hp
    rw [hp, Value.temps, List.mem_singleton] at ht
    exact ⟨slot, ty, by rw [h.instrsOf_eq, ht]; exact hmem⟩
  · have hlength := congrArg List.length h.params
    rw [List.length_map, List.length_range] at hlength
    rw [h.params, hlength]
  · intro b hb pre i post hinstrs hi t ht
    by_cases hslot : t ∈ s.variableSlots
    · exact .inl hslot
    obtain ⟨b₀, hb₀, hid, hinstrs₀, -⟩ := h.of_block hb
    have huse : (t, b.id) ∈ i.uses b₀.id := by
      rw [Instr.uses_of_not_phi hi, hid]
      exact List.mem_map.2 ⟨t, ht, rfl⟩
    refine .inr (h.supplies (hs.used b₀ hb₀ i (by simp [hinstrs₀, hinstrs]) _ huse) hslot fun c hc hcid hdef => ?_)
    rw [h.block_unique hs.toDrafting hc hb hcid] at hdef
    have hresult : t ∈ resultsOf (instrsOf f.blocks) := by
      obtain ⟨j, hj, hr⟩ := mem_resultsOf.1 hdef
      exact mem_resultsOf.2 ⟨j, List.mem_flatMap.2 ⟨b, hb, hj⟩, hr⟩
    refine mem_resultsOf_pre hnodup hb hinstrs hdef fun before after heq => ?_
    exact (hs.ordered before i after (h.instrsOf_eq ▸ heq) t ht).resolve_left (hnew t hresult)
  · intro b hb r incoming ty hphi p hp t ht
    by_cases hslot : t ∈ s.variableSlots
    · exact .inl hslot
    obtain ⟨b₀, hb₀, -, hinstrs₀, -⟩ := h.of_block hb
    rw [← hinstrs₀] at hphi
    -- control comes from the block of the value, so it is not empty
    obtain ⟨c₀, hc₀, hcid, hsucc⟩ := ((hm.matched b₀ hb₀).labels r incoming ty hphi p.2).1 (List.mem_map_of_mem hp)
    have hne : c₀.instrs ≠ [] := by
      intro hnil
      rw [(hm.tidy c₀ hc₀).successors, hnil] at hsucc
      cases hsucc
    obtain ⟨c, hc, hid, -⟩ := h.exists_block hc₀ hne
    have huse : (t, p.2) ∈ (Instr.phi r incoming ty).uses b₀.id :=
      List.mem_flatMap.2 ⟨p, hp, List.mem_map.2 ⟨t, ht, rfl⟩⟩
    have hcp : c.id = p.2 := hid.trans hcid
    refine .inr ⟨c, hc, hcp, ?_⟩
    rw [hcp]
    refine h.supplies (hs.used b₀ hb₀ _ hphi _ huse) hslot fun d hd hdid hdef => ?_
    rwa [h.block_unique hs.toDrafting hc hd (hcp.trans hdid.symm)]
  · intro pre i post heq t ht
    exact (hs.ordered pre i post (h.instrsOf_eq ▸ heq) t ht).imp_left h.mem_params.2

/-- The blocks that are left when a function is closed are those of a state in which all is well. -/
theorem Finishes.inSsaForm {f : Function} {bs : List Block} (h : s.Finishes bs) (hs : s.Grounded []) (hm : s.Merged [])
    (hf : f.blocks = bs) (hp : f.params.map (·.1) = List.range s.arity) :
    f.linkPredecessors.InSsaForm s.variableSlots := by
  obtain ⟨hne, hnd, -⟩ := h.ended hs.toDrafting
  rw [← hf] at hnd
  have hblocks := linkPredecessors_blocks hnd
  rw [hf] at hblocks
  cases h with
  | closed _ => exact hs.inSsaForm hm ⟨hp, hblocks, (List.append_nil _).symm, hne, by simp⟩
  | returned ho _ =>
    have hpush : Onward [] [] s (s.push (.ret none)) :=
      .push hs ho (by simp [Instr.successors]) (by simp [Instr.uses, Instr.temps, Instr.operands]) rfl
    have hm' : (s.push (.ret none)).Merged [] := hm.push ho rfl (by simp [Instr.successors])
    exact hpush.after.inSsaForm hm' ⟨by rw [arity_push]; exact hp, hblocks, (List.append_nil _).symm, hne, by simp⟩
  | dropped ho hb hpre hempty _ => exact hs.inSsaForm hm ⟨hp, hblocks, hb, hne, by simpa using hempty⟩

end Emitter

theorem map_fst_numbered (ps : List Parameter) : (numbered ps).map (·.1) = List.range ps.length := by
  rw [numbered, List.map_map, List.range_eq_range']
  exact List.zipIdx_map_snd 0 ps

theorem Lowering.parameters_length {t : TypeTable} {params : List (SymbolId × String)} {tys : List TypeId}
    {ps : List Parameter} (h : parameters t params tys = .ok ps) (hlength : tys.length = params.length) :
    ps.length = params.length := by
  induction params generalizing tys ps with
  | nil =>
    cases h
    rfl
  | cons p params ih =>
    obtain ⟨ty, tys, rfl⟩ := List.exists_cons_of_length_eq_add_one hlength
    obtain ⟨ir, -, h⟩ := except_bind_ok.1 h
    obtain ⟨rest, hrest, h⟩ := except_bind_ok.1 h
    cases h
    simpa using ih hrest (by simpa using hlength)

/-- A function that is begun, given any statements and closed is in SSA form. The slots are those of the variables that
are known when the last statement is done. -/
theorem finished_function_in_ssa_form {t : TypeTable} {name : String} {ty : TypeId}
    {params : List (SymbolId × String)} {sts : List (TypeTable × Stmt)} {s s' : Emitter}
    (h : Ends (function t name ty params sts) s (.ok ()) s') :
    ∃ s₁ s₂ f, Ends (functionBegin t name ty params) s (.ok ()) s₁ ∧ Ends (body sts) s₁ (.ok ()) s₂ ∧
      s'.module.functions = s.module.functions ++ [f] ∧ f.name = name ∧ f.params.length = params.length ∧
      f.InSsaForm s₂.variableSlots := by
  obtain ⟨_, s₁, hbegin, h⟩ := Ends.bind_ok_iff.1 h
  obtain ⟨_, s₂, hbody, hend⟩ := Ends.bind_ok_iff.1 h
  obtain ⟨_, tys, variadic, ir, ps, -, hlength, -, hparams, hspill⟩ := functionBegin_ok hbegin
  have henter := enter_grounded s name ir ps variadic
  have harity : (s.enter name ir ps variadic).arity = ps.length := by simp [arity, enter, numbered]
  have hspilled := (spill_advances ps (by omega) henter hspill).1
  have hbodied := (body_advances sts s₁ hspilled.after hbody).1
  have hsteps : Steps (s.enter name ir ps variadic) s₂ := hspilled.steps.trans hbodied.steps
  have hmerged : s₂.Merged [] :=
    (body_merges sts (spill_merges ps 0 (enter_merged s name ir ps variadic) hspill).1 hbody).1
  have harity₂ : s₂.arity = ps.length := (henter.arity_steps hsteps).trans harity
  obtain ⟨bs, hfin, hmod⟩ := endFunction_ok hmerged.toDrafting (hsteps.function rfl) hend
  have hssa : (finished name ir ps variadic bs).InSsaForm s₂.variableSlots :=
    hfin.inSsaForm hbodied.after hmerged rfl (harity₂ ▸ map_fst_numbered ps)
  refine ⟨s₁, s₂, _, hbegin, hbody, ?_, rfl, ?_, hssa⟩
  · rw [hmod, Module.addFunction, hsteps.functions.1]
    rfl
  · rw [← parameters_length hparams hlength]
    simp [finished, Function.linkPredecessors, numbered]

/-! ### A value held across a choice -/

namespace Crossing

open Procedure (table bool ty parameter)

/-- `p == (p ? p : p)`: the left operand is held while control goes one of two ways. -/
def crossing : Expr :=
  .binary .equal parameter (.conditional parameter parameter parameter ⟨bool, default⟩) ⟨bool, default⟩

/-- A loop with a declaration in it, and a statement that is not reached. -/
def statements : List (TypeTable × Stmt) :=
  [(table, .loop crossing
    [.decl { symbol := 1, name := "q", ty := bool, storage := .automatic, init := some crossing },
      .ret none, .expr crossing])]

def emitted : Emitter := ((function table "g" ty [(0, "p")] statements).run.run (Emitter.new "m")).2

theorem emits : Ends (function table "g" ty [(0, "p")] statements) (Emitter.new "m") (.ok ()) emitted := by
  obtain ⟨_, h⟩ := Ends.of_isOk (s := Emitter.new "m")
    (x := function table "g" ty [(0, "p")] statements) (by decide +kernel)
  exact h

end Crossing

theorem crossing_in_ssa_form :
    Ends (function Procedure.table "g" Procedure.ty [(0, "p")] Crossing.statements) (Emitter.new "m") (.ok ())
      Crossing.emitted ∧
    ∃ s₁ s₂ f, Ends (functionBegin Procedure.table "g" Procedure.ty [(0, "p")]) (Emitter.new "m") (.ok ()) s₁ ∧
      Ends (body Crossing.statements) s₁ (.ok ()) s₂ ∧ Crossing.emitted.module.functions = [f] ∧ f.name = "g" ∧
      f.params.length = 1 ∧ f.InSsaForm s₂.variableSlots :=
  ⟨Crossing.emits, finished_function_in_ssa_form Crossing.emits⟩

end TypedCore
