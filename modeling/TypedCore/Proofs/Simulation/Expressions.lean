import TypedCore.Proofs.Simulation.Branches

/-!
# The code of an expression does what the expression means

`Models T L σ code m` compares all that code can be asked for with all that an expression means. It
passes from the operands to each kind of node, so it holds of every expression
(`lower_models`).
-/

namespace TypedCore

open Ir Machine Lowering

variable {M : Machine} {T : M.Target} {L : List (SymbolId × Value)} {σ σ' : M.Stage}

/-- Code and evaluation that initialize an object. -/
def Inits (T : M.Target) (L : List (SymbolId × Value)) (σ : M.Stage)
    (code : Value → TypeId → EmitM Unit) (m : M.Word → TypeId → M.RunM Unit) : Prop :=
  ∀ σ', σ ≤ σ' → ∀ v w, Denotes σ' v w → ∀ ty, Realizes T L σ' (code v ty) (m w ty)

structure Models (T : M.Target) (L : List (SymbolId × Value)) (σ : M.Stage) (code : Code)
    (m : M.Meaning) : Prop where
  value : Realizes T L σ code.value m.value
  address : Realizes T L σ code.address m.address
  branch : ∀ l l', Branches T L σ (code.branch l l') m.truth l l'
  init : Inits T L σ code.init m.init
  elements : Option.Rel (List.Forall₂ (Inits T L σ)) code.elements m.elements

theorem optionRel_cases {α β : Type} {R : α → β → Prop} {x : Option α} {y : Option β}
    (h : Option.Rel R x y) : x = none ∧ y = none ∨ ∃ a b, x = some a ∧ y = some b ∧ R a b := by
  cases h with
  | none => exact .inl ⟨rfl, rfl⟩
  | some h => exact .inr ⟨_, _, rfl, rfl, h⟩

/-! ### Constants -/

theorem zero_below (ty : Ty) (n : Nat) : (Emit.zero ty).Below n := by
  cases ty <;> trivial

mutual

theorem constantValue_below (t : TypeTable) (ty : TypeId) :
    ∀ (c : Constant) {v : Value}, constantValue t ty c = .ok v → v.Below 0
  | .integer _, v, h => by
    obtain ⟨_, -, h⟩ := except_bind_ok.1 h
    cases h; trivial
  | .float _, v, h => by
    obtain ⟨_, -, h⟩ := except_bind_ok.1 h
    cases h; trivial
  | .null, v, h => by
    obtain ⟨ir, -, h⟩ := except_bind_ok.1 h
    cases h; exact zero_below ir 0
  | .aggregate items, v, h => by
    obtain ⟨vs, hvs, h⟩ := except_bind_ok.1 h
    cases h; exact constantValues_below t ty 0 items hvs

theorem constantValues_below (t : TypeTable) (ty : TypeId) :
    ∀ (index : Nat) (cs : List Constant) {vs : List Value},
      constantValues t ty index cs = .ok vs → Value.AllBelow 0 vs
  | _, [], vs, h => by cases h; trivial
  | index, c :: cs, vs, h => by
    obtain ⟨element, -, h⟩ := except_bind_ok.1 h
    obtain ⟨v, hv, h⟩ := except_bind_ok.1 h
    obtain ⟨rest, hrest, h⟩ := except_bind_ok.1 h
    cases h
    exact ⟨constantValue_below t element c hv, constantValues_below t ty (index + 1) cs hrest⟩

end

/-- A value without temporaries stands for the same word at every stage. -/
theorem denotes_literal {v : Value} (h : v.Below 0) : Denotes σ v (M.literal v) :=
  ⟨h.mono (Nat.zero_le _), word_congr (fun _ hi => (Nat.not_lt_zero _ hi).elim) h⟩

theorem Realizes.constant (t : TypeTable) (ty : TypeId) (c : Constant) :
    Realizes T L σ (liftM (constantValue t ty c))
      (do return M.literal (← .lift (constantValue t ty c))) := by
  intro s v s' hs hL hx
  obtain ⟨hv, rfl⟩ := Ends.lift_iff.1 hx
  refine ⟨.refl s', fun c' _ hat _ => ⟨M.literal v, c', ?_, ⟨.refl, hat, le_rfl⟩,
    denotes_literal (constantValue_below t ty c hv.symm)⟩⟩
  exact RunM.bind_eq_some (a := v) (by simp [RunM.lift, ← hv, Except.toOption])

/-! ### Truth and initializers -/

section Parts

variable (t : TypeTable) {v : Value} {w : M.Word}

theorem truth_realizes (hv : Denotes σ v w) (ty : TypeId) :
    Realizes T L σ (truth t v ty) (Eval.truth t w ty) := by
  unfold truth Eval.truth
  split
  · exact .pure hv
  · exact .lift_bind fun ir => .compare _ hv (denotes_literal (zero_below ir 0))

theorem branchOnValue_branches {x : EmitM Value} {m : M.RunM M.Word} (hx : Realizes T L σ x m)
    (ty : TypeId) (l l' : LabelId) :
    Branches T L σ (branchOnValue t ty x l l') (Eval.truthOfValue t ty m) l l' :=
  .bind hx fun _ _ _ _ hv => .bind (truth_realizes t hv ty) fun _ _ _ _ hb => .condJump hb l l'

theorem partAddress_realizes (hv : Denotes σ v w) (ty : TypeId) (index : Nat) (element : Ty) :
    Realizes T L σ (partAddress t ty v index element) (Eval.partAddress t ty w index element) := by
  unfold partAddress Eval.partAddress
  split
  · exact .elementAddress hv (.const σ _) element
  · split
    · exact .memberAddress hv index element
    · exact .pure hv

theorem initElements_realizes (ty : TypeId) {codes : List (Value → TypeId → EmitM Unit)}
    {ms : List (M.Word → TypeId → M.RunM Unit)} (h : List.Forall₂ (Inits T L σ) codes ms)
    (hσ : σ ≤ σ') (hv : Denotes σ' v w) (index : Nat) :
    Realizes T L σ' (initElements t ty v index codes) (Eval.initElements t ty w index ms) := by
  induction h generalizing σ' index with
  | nil => exact .pure rfl
  | cons hinit hrest ih =>
    refine .lift_bind fun element => .lift_bind fun ir => ?_
    refine .bind (partAddress_realizes t hv ty index ir) fun σ₁ h₁ part pw hp => ?_
    exact .bind (hinit σ₁ (hσ.trans h₁) part pw hp element) fun σ₂ h₂ _ _ _ =>
      ih ((hσ.trans h₁).trans h₂) (hv.mono (h₁.trans h₂)) (index + 1)

theorem initAggregate_inits {codes : List (Value → TypeId → EmitM Unit)}
    {ms : List (M.Word → TypeId → M.RunM Unit)} (h : List.Forall₂ (Inits T L σ) codes ms) :
    Inits T L σ (initAggregate t codes) (Eval.initAggregate t ms) := by
  intro σ' hσ v w hv ty
  unfold initAggregate Eval.initAggregate
  rw [h.length_eq]
  refine .lift_bind fun ir => ?_
  split
  · exact .bind (.store (denotes_literal (zero_below ir 0)) hv ir) fun σ₁ h₁ _ _ _ =>
      initElements_realizes t ty h (hσ.trans h₁) (hv.mono h₁) 0
  · exact initElements_realizes t ty h hσ hv 0

theorem initValue_inits {x : EmitM Value} {m : M.RunM M.Word} (hx : Realizes T L σ x m) :
    Inits T L σ (initValue t x) (Eval.initValue t m) := fun _ hσ _ _ hv _ =>
  .lift_bind fun ir => .bind (hx.mono hσ) fun _ h₁ _ _ hw => .store hw (hv.mono h₁) ir

end Parts

/-! ### Nodes -/

namespace Models

variable {t : TypeTable} {e child left right : Expr} {code leftCode rightCode : Code}
  {m lm rm : M.Meaning}

theorem node {value address : EmitM Value} {branch : LabelId → LabelId → EmitM Unit}
    {elements : Option (List (Value → TypeId → EmitM Unit))} {mvalue maddress : M.RunM M.Word}
    {truth : M.RunM Bool} {melements : Option (List (M.Word → TypeId → M.RunM Unit))}
    (hv : Realizes T L σ value mvalue) (ha : Realizes T L σ address maddress)
    (hb : ∀ l l', Branches T L σ (branch l l') truth l l')
    (he : Option.Rel (List.Forall₂ (Inits T L σ)) elements melements) :
    Models T L σ (Code.ofNode t e value address branch elements)
      (Eval.node t e mvalue maddress truth melements) := by
  unfold Code.ofNode Eval.node
  cases e.constant? t with
  | some c =>
    exact ⟨.constant t e.ty c, ha, fun l l' => .jump c.isTrue l l',
      initValue_inits t (.constant t e.ty c), he⟩
  | none =>
    refine ⟨hv, ha, hb, ?_, he⟩
    rcases optionRel_cases he with ⟨rfl, rfl⟩ | ⟨es, ms, rfl, rfl, hes⟩
    · exact initValue_inits t hv
    · exact initAggregate_inits t hes

theorem ofValue {value : EmitM Value} {mvalue : M.RunM M.Word} (hv : Realizes T L σ value mvalue) :
    Models T L σ (Code.ofValue t e value) (Eval.ofValue t e mvalue) :=
  .node hv (.throw _ _) (branchOnValue_branches t hv e.ty) .none

theorem ofTruth {branch : LabelId → LabelId → EmitM Unit} {truth : M.RunM Bool}
    (hb : ∀ l l', Branches T L σ (branch l l') truth l l') :
    Models T L σ (Code.ofBranch t e branch) (Eval.ofTruth t e truth) :=
  .node (.materialize hb) (.throw _ _) hb .none

theorem ofPlace {address : EmitM Value} {maddress : M.RunM M.Word}
    (ha : Realizes T L σ address maddress) :
    Models T L σ (Code.ofPlace t e address) (Eval.ofPlace t e maddress) := by
  have hv : Realizes T L σ (do let address ← address; Emit.load address (← t.layout e.ty))
      (do let address ← maddress; .load address (← .lift (t.layout e.ty))) :=
    .bind ha fun _ _ _ _ hw => .lift_bind fun _ => .load hw _
  exact .node hv ha (branchOnValue_branches t hv e.ty) .none

theorem objectAddress (h : Models T L σ code m) :
    Realizes T L σ (objectAddress t e code) (Eval.objectAddress t e m) := by
  unfold Lowering.objectAddress Eval.objectAddress
  split
  · exact h.address
  · refine .lift_bind fun ir => .bind h.value fun σ₁ h₁ v w hv => ?_
    refine .bind (.temporary ir) fun σ₂ h₂ slot sw hslot => ?_
    exact .bind (.store (hv.mono h₂) hslot ir) fun σ₃ h₃ _ _ _ => .pure (hslot.mono h₃)

/-! ### Unary operations -/

theorem cast (h : Models T L σ code m) (ty : TypeId) :
    Realizes T L σ (castValue t child code ty) (Eval.cast t child m ty) := by
  unfold castValue Eval.cast
  split
  · exact .bind h.value fun _ _ _ _ hv => truth_realizes t hv child.ty
  split
  · exact h.objectAddress
  split
  · exact h.value
  refine .bind h.value fun σ₁ h₁ v w hv => .lift_bind fun op => ?_
  cases op with
  | some op => exact .lift_bind fun _ => .unary op hv _
  | none => exact .pure hv

theorem logicalNot (h : Models T L σ code m) (ty : TypeId) :
    Realizes T L σ (notValue t child code ty) (Eval.logicalNot t child m ty) := by
  refine .bind h.value fun σ₁ h₁ v w hv => .lift_bind fun ir => ?_
  refine .bind (.compare .eq hv (denotes_literal (zero_below ir 0))) fun σ₂ h₂ z zw hz => ?_
  refine .lift_bind fun out => ?_
  split
  · exact .pure hz
  · exact .unary .zext hz out

theorem step (op : UnaryOp) (h : Models T L σ code m) :
    Realizes T L σ (stepValue t op child code) (Eval.step t op child m) := by
  unfold stepValue Eval.step
  refine .bind h.address fun σ₁ h₁ p pw hp => .lift_bind fun ir => ?_
  refine .bind (.load hp ir) fun σ₂ h₂ old ow hold => ?_
  have hend : ∀ σ₃, σ₂ ≤ σ₃ → ∀ new nw, Denotes σ₃ new nw →
      Realizes T L σ₃ (do Emit.store new p ir; return if op.isPostfix then old else new)
        (do .store nw pw ir; return if op.isPostfix then ow else nw) := by
    intro σ₃ h₃ new nw hnew
    refine .bind (.store hnew (hp.mono (h₂.trans h₃)) ir) fun σ₄ h₄ _ _ _ => .pure ?_
    split
    · exact hold.mono (h₃.trans h₄)
    · exact hnew.mono h₄
  by_cases hptr : t.isPointer child.ty = true
  · simp only [hptr, ↓reduceIte]
    exact .lift_bind fun element => .bind (.elementAddress hold (.const σ₂ _) element) hend
  · simp only [hptr]
    exact .bind (.arith _ hold (.const σ₂ 1) ir) hend

theorem inserted (h : Models T L σ code m) :
    Models T L σ (castCode t e child code) (Eval.inserted t e child m) := by
  refine .node (h.cast e.ty) (.throw _ _) (fun l l' => ?_) ?_
  · split
    · exact h.branch l l'
    · exact branchOnValue_branches t (h.cast e.ty) e.ty l l'
  · split
    · exact .none
    · exact h.elements

theorem negation (h : Models T L σ code m) :
    Models T L σ (notCode t e child code) (Eval.negation t e child m) := by
  refine .node ?_ (.throw _ _) (fun l l' => (h.branch l' l).not) .none
  split
  · exact .materialize fun l l' => (h.branch l' l).not
  · exact h.logicalNot e.ty

theorem dereference (h : Models T L σ code m) :
    Models T L σ (dereferenceCode t e code) (Eval.dereference t e m) := by
  have hv : Realizes T L σ
      (do
        let address ← code.value
        if t.isFunction e.ty then return address else Emit.load address (← t.layout e.ty))
      (do
        let address ← m.value
        if t.isFunction e.ty then return address else .load address (← .lift (t.layout e.ty))) := by
    refine .bind h.value fun σ₁ h₁ v w hv => ?_
    split
    · exact .pure hv
    · exact .lift_bind fun _ => .load hv _
  exact .node hv h.value (branchOnValue_branches t hv e.ty) .none

theorem unary (op : UnaryOp) (h : Models T L σ code m) :
    Models T L σ (unaryCode t e op child code) (Eval.unary t e op child m) := by
  cases op with
  | cast => exact h.inserted
  | explicitCast => exact .ofValue (h.cast e.ty)
  | minus =>
    exact .ofValue (.bind h.value fun _ _ _ _ hv => .lift_bind fun ir => .unary _ hv ir)
  | logicalNot => exact h.negation
  | dereference => exact h.dereference
  | addressOf => exact .ofValue h.address
  | preIncrement | postIncrement | preDecrement | postDecrement => exact .ofValue (h.step _)

end Models

/-! ### Binary operations -/

section Operators

variable {t : TypeTable} {v v' : Value} {w w' : M.Word}

theorem addressDifference_realizes (hv : Denotes σ v w) (hv' : Denotes σ v' w') (element : Ty) :
    Realizes T L σ (Emit.addressDifference v v' element) (Eval.difference w w' element) := by
  unfold Emit.addressDifference Eval.difference
  cases element.size? with
  | none => exact .throw _ _
  | some size =>
    refine .bind (.unary .ptrToInt hv .i64) fun σ₁ h₁ a aw ha => ?_
    refine .bind (.unary .ptrToInt (hv'.mono h₁) .i64) fun σ₂ h₂ b bw hb => ?_
    refine .bind (.arith .sub (ha.mono h₂) hb .i64) fun σ₃ h₃ bytes n hn => ?_
    split
    · exact .pure hn
    · exact .arith .sdiv hn (.const σ₃ _) .i64

theorem arithmetic_realizes (op : BinaryOp) (leftTy rightTy : TypeId) (hv : Denotes σ v w)
    (hv' : Denotes σ v' w') (ty : TypeId) :
    Realizes T L σ (arithmeticValue t op leftTy v rightTy v' ty)
      (Eval.arithmetic t op leftTy w rightTy w' ty) := by
  unfold arithmeticValue Eval.arithmetic
  split
  · refine .lift_bind fun element => ?_
    split
    · exact addressDifference_realizes hv hv' element
    split
    · exact .lift_bind fun _ => .bind (.unary .neg hv' _) fun _ h₁ _ _ hi =>
        .elementAddress (hv.mono h₁) hi element
    · exact .bind (.pure hv') fun _ h₁ _ _ hi => .elementAddress (hv.mono h₁) hi element
  · exact .lift_bind fun _ => .lift_bind fun op => .arith op hv hv' _

theorem comparison_realizes (op : BinaryOp) (ty : TypeId) (hv : Denotes σ v w)
    (hv' : Denotes σ v' w') :
    Realizes T L σ (comparisonValue t op ty v v') (Eval.comparison t op ty w w') := by
  unfold comparisonValue Eval.comparison
  refine .lift_bind fun _ => ?_
  cases t.comparisonOp? op ty with
  | some irOp => exact .compare irOp hv hv'
  | none => exact .throw _ _

end Operators

namespace Models

variable {t : TypeTable} {e left right object : Expr} {code leftCode rightCode : Code}
  {m lm rm : M.Meaning}

theorem assign (hl : Models T L σ leftCode lm) (hr : Models T L σ rightCode rm) (ty : TypeId) :
    Realizes T L σ (assignValue t leftCode rightCode ty) (Eval.assign t lm rm ty) := by
  refine .bind hl.address fun σ₁ h₁ p pw hp => .bind (hr.value.mono h₁) fun σ₂ h₂ v w hv => ?_
  exact .lift_bind fun ir => .bind (.store hv (hp.mono h₂) ir) fun _ h₃ _ _ _ => .pure (hv.mono h₃)

theorem compound (base : BinaryOp) (hl : Models T L σ leftCode lm) (hr : Models T L σ rightCode rm) :
    Realizes T L σ (compoundValue t base left leftCode right rightCode)
      (Eval.compound t base left lm right rm) := by
  refine .bind hl.address fun σ₁ h₁ p pw hp => .lift_bind fun ir => ?_
  refine .bind (.load hp ir) fun σ₂ h₂ old ow hold => ?_
  refine .bind (hr.value.mono (h₁.trans h₂)) fun σ₃ h₃ v w hv => ?_
  refine .bind (arithmetic_realizes base _ _ (hold.mono h₃) hv _) fun σ₄ h₄ new nw hnew => ?_
  refine .bind (.store hnew (hp.mono ((h₂.trans h₃).trans h₄)) ir) fun _ h₅ _ _ _ => ?_
  exact .pure (hnew.mono h₅)

theorem index (hl : Models T L σ leftCode lm) (hr : Models T L σ rightCode rm) (ty : TypeId) :
    Realizes T L σ (indexAddress t left leftCode rightCode ty) (Eval.index t left lm rm ty) := by
  unfold indexAddress Eval.index
  have hend : ∀ σ₁, σ ≤ σ₁ → ∀ base bw, Denotes σ₁ base bw →
      Realizes T L σ₁
        (do let index ← rightCode.value; Emit.elementAddress base index (← t.layout ty))
        (do let i ← rm.value; .element bw i (← .lift (t.layout ty))) := fun σ₁ h₁ base bw hbase =>
    .bind (hr.value.mono h₁) fun _ h₂ _ _ hi => .lift_bind fun ir =>
      .elementAddress (hbase.mono h₂) hi ir
  split
  · exact .bind hl.objectAddress hend
  · exact .bind hl.value hend

theorem binary (op : BinaryOp) (hl : Models T L σ leftCode lm) (hr : Models T L σ rightCode rm) :
    Models T L σ (binaryCode t e op left leftCode right rightCode)
      (Eval.binary t e op left lm right rm) := by
  cases op with
  | assign => exact .ofValue (hl.assign hr e.ty)
  | addAssign | subAssign | mulAssign | divAssign | modAssign => exact .ofValue (hl.compound _ hr)
  | add | sub | mul | div | mod =>
    exact .ofValue (.bind hl.value fun σ₁ h₁ _ _ hv => .bind (hr.value.mono h₁) fun _ h₂ _ _ hw =>
      arithmetic_realizes _ _ _ (hv.mono h₂) hw e.ty)
  | equal | notEqual | less | greater | lessEqual | greaterEqual =>
    exact .ofValue (.bind hl.value fun σ₁ h₁ _ _ hv => .bind (hr.value.mono h₁) fun _ h₂ _ _ hw =>
      comparison_realizes _ _ (hv.mono h₂) hw)
  | logicalAnd => exact .ofTruth (.both hl.branch hr.branch)
  | logicalOr => exact .ofTruth (.either hl.branch hr.branch)
  | index => exact .ofPlace (hl.index hr e.ty)

/-! ### Other nodes -/

theorem valuesOf {codes : List Code} {ms : List M.Meaning} (h : List.Forall₂ (Models T L σ) codes ms)
    (hσ : σ ≤ σ') : Realizes T L σ' (valuesOf codes) (Eval.valuesOf ms) := by
  induction h generalizing σ' with
  | nil => exact .pure (b := []) .nil
  | cons hc _ ih =>
    refine .bind (hc.value.mono hσ) fun σ₁ h₁ v w hv => ?_
    refine .bind (ih (hσ.trans h₁)) fun σ₂ h₂ vs ws hvs => ?_
    exact .pure (b := w :: ws) (.cons (hv.mono h₂) hvs)

theorem call {args : List Code} {ms : List M.Meaning} (h : Models T L σ code m)
    (hargs : List.Forall₂ (Models T L σ) args ms) (ty : TypeId) :
    Realizes T L σ (callValue t code args ty) (Eval.call t m ms ty) := by
  refine .bind h.value fun σ₁ h₁ f fw hf => .bind (valuesOf hargs h₁) fun σ₂ h₂ vs ws hvs => ?_
  refine .lift_bind fun ir => ?_
  rw [← bind_pure (RunM.call fw ws ir)]
  exact .bind (.call (hf.mono h₂) hvs ir) fun _ _ _ w hw => .pure (b := w) hw

theorem memberAddress (h : Models T L σ code m) (i : Nat) (ty : TypeId) :
    Realizes T L σ (memberAddress t object code i ty) (Eval.memberAddress t object m i ty) :=
  .bind h.objectAddress fun _ _ _ _ hb => .lift_bind fun _ => .lift_bind fun ir =>
    .memberAddress hb i ir

theorem inits {codes : List Code} {ms : List M.Meaning} (h : List.Forall₂ (Models T L σ) codes ms) :
    List.Forall₂ (Inits T L σ) (codes.map (·.init)) (ms.map (·.init)) := by
  induction h with
  | nil => exact .nil
  | cons hc _ ih => exact .cons hc.init ih

theorem aggregate {codes : List Code} {ms : List M.Meaning}
    (h : List.Forall₂ (Models T L σ) codes ms) :
    Models T L σ (aggregateCode t e codes) (Eval.ofAggregate t e ms) := by
  have hv : Realizes T L σ (aggregateValue t codes e.ty) (Eval.aggregate t ms e.ty) := by
    refine .lift_bind fun ir => .bind (.temporary ir) fun σ₁ h₁ slot sw hslot => ?_
    refine .bind (initAggregate_inits t (inits h) σ₁ h₁ slot sw hslot e.ty) fun σ₂ h₂ _ _ _ => ?_
    exact .load (hslot.mono h₂) ir
  exact .node hv (.throw _ _) (branchOnValue_branches t hv e.ty) (.some (inits h))

theorem literal (value : Literal) :
    Models T L σ (literalCode t e value) (Eval.ofLiteral t e value) := by
  have hc : Realizes T L σ (loadConstant t e) (Eval.known t e) := by
    unfold loadConstant Eval.known
    cases e.constant? t with
    | some c => exact .constant t e.ty c
    | none => exact .throw _ _
  cases value with
  | string text => exact .ofPlace (.stringLiteral text)
  | integer | float | bool | nullptr => exact .ofValue hc

theorem identifier {env : M.Env} (henv : Sees σ L env) (name : String) (symbol : SymbolId)
    (storage : Storage) :
    Models T L σ (identifierCode t e name symbol storage)
      (Eval.ofIdentifier t env e name symbol storage) := by
  have ha : Realizes T L σ (Emit.symbolAddress symbol name storage)
      (Eval.symbolAddress env symbol name storage) := .symbolAddress henv symbol name storage
  unfold identifierCode Eval.ofIdentifier
  split
  · exact .node ha ha (branchOnValue_branches t ha e.ty) .none
  · exact .ofPlace ha

end Models

/-! ### Expressions -/

mutual

/-- The code of every expression does what the expression means. -/
theorem lower_models (t : TypeTable) {env : M.Env} (henv : Sees σ L env) :
    ∀ e : Expr, Models T L σ (lower t e) (Eval.meaning t env e)
  | .literal value _ => .literal value
  | .identifier name symbol storage _ _ => .identifier henv name symbol storage
  | .proxy target _ =>
    have h := lower_models t henv target
    .node h.value h.address h.branch h.elements
  | .unary op child _ => (lower_models t henv child).unary op
  | .binary op left right _ => (lower_models t henv left).binary op (lower_models t henv right)
  | .conditional cond thenExpr elseExpr _ =>
    .ofValue (.choice (lower_models t henv cond).branch (lower_models t henv thenExpr).value
      (lower_models t henv elseExpr).value)
  | .call callee args _ => .ofValue ((lower_models t henv callee).call (lowerAll_models t henv args) _)
  | .member object _ index _ => .ofPlace ((lower_models t henv object).memberAddress index _)
  | .aggregate elements _ => .aggregate (lowerAll_models t henv elements)

theorem lowerAll_models (t : TypeTable) {env : M.Env} (henv : Sees σ L env) :
    ∀ es : List Expr, List.Forall₂ (Models T L σ) (lowerAll t es) (Eval.meanings t env es)
  | [] => .nil
  | e :: rest => .cons (lower_models t henv e) (lowerAll_models t henv rest)

end

end TypedCore
