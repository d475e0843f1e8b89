import TypedCore.Proofs.Types.Equality
import TypedCore.Proofs.Typing.Conversions

/-!
# Rules accept operands that fit

Each rule turns coherent operands into coherent operands whose types fit its operator. Rules that compare
types rely on a table in which equality is transitive, which a canonical one is.
-/

namespace TypedCore

namespace Typing

open Session Expr

variable {t t' : TypeTable}

/-! ### Operators with two operands -/

/-- Coherent operands of types that fit the operator. -/
structure Accepted (op : BinaryOp) (r : Operands) (t : TypeTable) : Prop where
  left : r.left.Coherent t
  right : r.right.Coherent t
  has : t.Has r.ty
  rule : BinaryRule t op r.left.ty r.right.ty r.ty

theorem Accepted.mono {op : BinaryOp} {r : Operands} (h : Accepted op r t) (ht : t ≤ t') :
    Accepted op r t' where
  left := h.left.mono ht
  right := h.right.mono ht
  has := h.has.mono ht
  rule := h.rule.mono h.left.has h.right.has h.has ht

theorem invalidOperands_yields {α : Type} {op : BinaryOp} {left right : Expr} {span : Span}
    {Q : α → TypeTable → Prop} : Yields t (invalidOperands op left right span) Q :=
  .currentTypes fun _ _ => .throw

theorem converts_keeps (t : TypeTable) (src dst : TypeId) : Session.Keeps t (converts src dst) :=
  .bind (.onTypes (TypeM.convert_keeps _ _ _ _)) (onTypes_grows (TypeM.convert_grows _ _ _)) fun _ _ _ _ =>
    .pure fun _ _ => trivial

/-- What is assigned is converted. Between arrays that is allowed for equal dimensions only, and a compound
assignment to a pointer is none of this kind. -/
theorem assigned_yields {op op' : BinaryOp} {left right : Expr} {span : Span} (hop : op.isAssignment = true)
    (hpointer : op = .assign ∨ t.isPointer left.ty = false)
    (hdim : t.dim? left.ty = some 0 → ∀ dim, t.dim? right.ty = some dim → dim = 0)
    (hw : t.isReadOnly left.ty = false) (hl : left.Coherent t) (hr : right.Coherent t) :
    Yields t (assigned op' left right span) (Accepted op) := by
  refine .currentTypes fun t₁ h₁ => .either (R := fun _ _ => True) (fun _ => .pure fun _ _ => trivial) (.pure _)
    (fun _ => converts_keeps _ _ _) (converts_grows _ _) fun _ t₂ h₂ _ =>
    .ite (fun _ => ?_) fun _ => invalidOperands_yields
  have hle := h₁.trans h₂
  have hl₂ := hl.mono hle
  refine .bind (implicitCast_yields (hr.mono hle) hl₂.has) (implicitCast_grows _ _)
    fun right t₃ h₃ hconv => .pure fun t₄ h₄ => Accepted.mono (t := t₃) ?_ h₄
  have hl₃ := hl₂.mono h₃
  have hequals : t₃.equals right.ty left.ty = true := by
    refine hconv.equals ?_
    rw [hl.has.dim?_eq (hle.trans h₃), hr.has.dim?_eq hle]
    exact hdim
  have hw₃ := (hl.has.isReadOnly_eq (hle.trans h₃)).trans hw
  refine ⟨hl₃, hconv.coherent, hl₃.has, ?_⟩
  cases op with
  | assign => exact ⟨hw₃, rfl, hequals⟩
  | addAssign | subAssign | mulAssign | divAssign | modAssign =>
    refine ⟨hw₃, rfl, fun _ => hequals, fun hp => ?_⟩
    rcases hpointer with hop | hpointer
    · cases hop
    · rw [hl.has.isPointer_eq (hle.trans h₃), hpointer] at hp
      cases hp
  | _ => cases hop

theorem bool_yields : TypeM.Yields t TypeM.bool fun ty t' => t'.Has ty ∧ t'.Plain .bool ty :=
  TypeM.intern_yields_plain nofun nofun

/-- Where a bool is wanted, there is one. -/
theorem Converted.bool {dim? : Option Nat} {ty : TypeId} {e : Expr} (h : Converted dim? ty e t)
    (hty : t.Plain .bool ty) : t.Plain .bool e.ty :=
  h.plain hty (TypeTable.isArithmetic_of_isIntegral (TypeTable.isIntegral_iff.2 (.inl hty.shape_eq)))

theorem logical_yields {op op' : BinaryOp} {left right : Expr} {span : Span} (hop : op.isLogical = true)
    (hl : left.Coherent t) (hr : right.Coherent t) : Yields t (logical op' left right span) (Accepted op) := by
  refine .bind (.onTypes bool_yields) (onTypes_grows bool_grows) fun bool t₁ h₁ hbool =>
    .bind (converts_keeps _ _ _) (converts_grows _ _) fun _ t₂ h₂ _ =>
      .either (R := fun _ _ => True) (fun _ => converts_keeps _ _ _) (converts_grows _ _)
      (fun _ => .pure fun _ _ => trivial) (.pure _) fun _ t₃ h₃ _ => .ite (fun _ => ?_) fun _ => invalidOperands_yields
  have hle := (h₁.trans h₂).trans h₃
  have hty := hbool.1.mono (h₂.trans h₃)
  refine .bind (implicitCast_yields (hl.mono hle) hty) (implicitCast_grows _ _) fun left t₄ h₄ hleft =>
    .bind (implicitCast_yields (hr.mono (hle.trans h₄)) (hty.mono h₄)) (implicitCast_grows _ _)
      fun right t₅ h₅ hright => .pure fun t₆ h₆ => Accepted.mono (t := t₅) ?_ h₆
  have hbool₅ := hbool.2.mono hbool.1 (((h₂.trans h₃).trans h₄).trans h₅)
  have hleft₅ := hleft.mono h₅
  refine ⟨hleft₅.coherent, hright.coherent, hright.has, ?_⟩
  cases op with
  | logicalAnd | logicalOr => exact ⟨hleft₅.bool hbool₅, hright.bool hbool₅, hbool₅⟩
  | _ => cases hop

theorem commonType_yields {op : BinaryOp} {left right : Expr} {span : Span} (hl : left.Coherent t)
    (hr : right.Coherent t) :
    Yields t (commonType op left right span) fun ty t' => t'.Common left.ty right.ty ty := by
  refine .bind (.onTypes (TypeM.withConst_yields hl.has)) (onTypes_grows (TypeM.withConst_grows _ _))
    fun a t₁ h₁ ha => .bind (.onTypes (TypeM.withConst_yields (hr.has.mono h₁)))
    (onTypes_grows (TypeM.withConst_grows _ _)) fun b t₂ h₂ hb => ?_
  replace ha := ha.mono (hl.has.mono h₁) h₂
  refine .bind (.onTypes (TypeM.common_yields ha.has hb.has)) (onTypes_grows (TypeM.common_grows _ _))
    fun common t₃ h₃ hcommon => ?_
  cases common with
  | none => exact invalidOperands_yields
  | some ty =>
    have hle := (h₁.trans h₂).trans h₃
    have ha₃ := (ha.mono (hl.has.mono (h₁.trans h₂)) h₃).spelling.1
    have hb₃ := (hb.mono (hr.has.mono (h₁.trans h₂)) h₃).spelling.1
    exact .pure fun t₄ h₄ => ((hcommon ty rfl).congr ha₃ hb₃).mono (hl.has.mono hle) (hr.has.mono hle) h₄

def isArithmeticOp : BinaryOp → Bool
  | .add | .sub | .mul | .div | .mod => true
  | _ => false

/-- The type that numbers are computed in. -/
structure Number (ty : TypeId) (t : TypeTable) : Prop where
  has : t.Has ty
  number : t.isInteger ty = true ∨ t.isFloat ty = true
  isConst_eq : t.isConst ty = false

namespace Number

variable {ty : TypeId}

theorem mono (h : Number ty t) (ht : t ≤ t') : Number ty t' where
  has := h.has.mono ht
  number := by
    rw [h.has.isInteger_eq ht, h.has.isFloat_eq ht]
    exact h.number
  isConst_eq := (h.has.isConst_eq ht).trans h.isConst_eq

theorem isArithmetic (h : Number ty t) : t.isArithmetic ty = true := by
  rcases h.number with hint | hfloat
  · rw [TypeTable.isArithmetic, TypeTable.isIntegral, hint, Bool.or_true, Bool.true_or]
  · exact TypeTable.isArithmetic_of_isFloat hfloat

theorem of_common {a b : TypeId} (h : t.Common a b ty) (ha : t.isArithmetic a = true)
    (hb : t.isArithmetic b = true) (hbool : t.isBool ty = false) : Number ty t := by
  refine ⟨h.has, ?_, h.isConst_eq⟩
  have harith := h.isArithmetic ha hb
  rw [TypeTable.isArithmetic, TypeTable.isIntegral, hbool, Bool.false_or, Bool.or_eq_true] at harith
  exact harith

end Number

section Numbers

variable {op op' : BinaryOp} {left right : Expr} {span : Span}

theorem arithmetic_yields (hop : isArithmeticOp op = true) (hl : left.Coherent t) (hr : right.Coherent t)
    (hla : t.isArithmetic left.ty = true) (hra : t.isArithmetic right.ty = true) :
    Yields t (arithmetic op' left right span) (Accepted op) := by
  refine .bind (commonType_yields hl hr) (commonType_grows _ _ _ _) fun common t₁ h₁ hcommon =>
    .currentTypes fun t₂ h₂ => .either (R := Number)
      (fun _ => .onTypes (.imp (TypeM.intern_yields_plain nofun nofun) fun ty t' ⟨hty, hplain⟩ => ?_))
      (onTypes_grows (TypeM.intern_grows _)) (fun hbool => .pure fun t₃ h₃ => Number.mono ?_ h₃) (.pure _)
      fun ty t₃ h₃ hty => ?_
  · exact ⟨hty, .inl (TypeTable.isInteger_iff.2 ⟨_, _, hplain.shape_eq⟩), hplain.isConst_eq⟩
  · have hle := h₁.trans h₂
    exact .of_common (hcommon.mono (hl.has.mono h₁) (hr.has.mono h₁) h₂)
      ((hl.has.isArithmetic_eq hle).trans hla) ((hr.has.isArithmetic_eq hle).trans hra) (Bool.eq_false_iff.2 hbool)
  · have hle := (h₁.trans h₂).trans h₃
    refine .bind (implicitCast_yields (hl.mono hle) hty.has) (implicitCast_grows _ _) fun left t₄ h₄ hleft =>
      .bind (implicitCast_yields (hr.mono (hle.trans h₄)) (hty.has.mono h₄)).and_canonical (implicitCast_grows _ _)
        fun right t₅ h₅ ⟨hright, hcan⟩ => .pure fun t₆ h₆ => Accepted.mono (t := t₅) ?_ h₆
    have hleft₅ := hleft.mono h₅
    have hty₅ := hty.mono (h₄.trans h₅)
    have heql := hleft₅.equals_of_isArithmetic hty₅.isArithmetic
    have heqr := hright.equals_of_isArithmetic hty₅.isArithmetic
    have hrule : NumberRule t₅ left.ty right.ty ty :=
      ⟨hcan.equals_of_equals hleft₅.coherent.has hright.coherent.has hty₅.has heql heqr,
        heql, heqr, hty₅.number, hty₅.isConst_eq⟩
    refine ⟨hleft₅.coherent, hright.coherent, hty₅.has, ?_⟩
    cases op with
    | add | sub =>
      refine ⟨fun _ => hrule, fun hp => absurd ?_ (TypeTable.not_isArithmetic_of_isPointer hp)⟩
      rw [TypeTable.isArithmetic_congr (TypeTable.shape_of_equals heql (.inr hty₅.isArithmetic))]
      exact hty₅.isArithmetic
    | mul | div | mod => exact hrule
    | _ => cases hop

theorem comparison_yields (hop : op.isComparison = true) (hl : left.Coherent t) (hr : right.Coherent t)
    (hla : t.isArithmetic left.ty = true) (hra : t.isArithmetic right.ty = true) :
    Yields t (comparison op' left right span) (Accepted op) := by
  refine .bind (commonType_yields hl hr) (commonType_grows _ _ _ _) fun ty t₁ h₁ hty =>
    .bind (implicitCast_yields (hl.mono h₁) hty.has) (implicitCast_grows _ _) fun left' t₂ h₂ hleft =>
    .bind (implicitCast_yields (hr.mono (h₁.trans h₂)) (hty.has.mono h₂)) (implicitCast_grows _ _)
      fun right' t₃ h₃ hright => .bind (Yields.onTypes bool_yields).and_canonical (onTypes_grows bool_grows)
      fun bool t₄ h₄ ⟨hbool, hcan⟩ => .pure fun t₅ h₅ => Accepted.mono (t := t₄) ?_ h₅
  have hleft₄ := hleft.mono (h₃.trans h₄)
  have hright₄ := hright.mono h₄
  have harith : t₄.isArithmetic ty = true := by
    rw [hty.has.isArithmetic_eq ((h₂.trans h₃).trans h₄)]
    exact hty.isArithmetic ((hl.has.isArithmetic_eq h₁).trans hla) ((hr.has.isArithmetic_eq h₁).trans hra)
  have hequals := hcan.equals_of_equals hleft₄.coherent.has
    hright₄.coherent.has hleft₄.has (hleft₄.equals_of_isArithmetic harith) (hright₄.equals_of_isArithmetic harith)
  refine ⟨hleft₄.coherent, hright₄.coherent, hbool.1, ?_⟩
  cases op with
  | equal | notEqual | less | greater | lessEqual | greaterEqual => exact ⟨hbool.2, fun _ => hequals⟩
  | _ => cases hop

theorem arithmeticRules_yields (hl : left.Coherent t) (hr : right.Coherent t)
    (hla : t.isArithmetic left.ty = true) (hra : t.isArithmetic right.ty = true)
    (hw : op.isAssignment = true → t.isReadOnly left.ty = false) :
    Yields t (arithmeticRules op left right span) (Accepted op) := by
  refine .currentTypes fun t₁ h₁ => ?_
  have hl₁ := hl.mono h₁
  have hr₁ := hr.mono h₁
  have hla₁ := (hl.has.isArithmetic_eq h₁).trans hla
  have hra₁ := (hr.has.isArithmetic_eq h₁).trans hra
  have hassigned (hop : op.isAssignment = true) : Yields t₁ (assigned op left right span) (Accepted op) := by
    refine assigned_yields hop (.inr ?_) (fun hdim => ?_) ((hl.has.isReadOnly_eq h₁).trans (hw hop)) hl₁ hr₁
    · exact TypeTable.isPointer_of_isArithmetic hla₁
    · rw [TypeTable.dim?_of_isArithmetic hla₁] at hdim
      cases hdim
  cases op with
  | assign | addAssign | subAssign | mulAssign | divAssign => exact hassigned rfl
  | modAssign => exact .ite (fun _ => invalidOperands_yields) fun _ => hassigned rfl
  | add | sub | mul | div => exact arithmetic_yields rfl hl₁ hr₁ hla₁ hra₁
  | mod => exact .ite (fun _ => invalidOperands_yields) fun _ => arithmetic_yields rfl hl₁ hr₁ hla₁ hra₁
  | equal | notEqual | less | greater | lessEqual | greaterEqual =>
    exact comparison_yields rfl hl₁ hr₁ hla₁ hra₁
  | logicalAnd | logicalOr => exact logical_yields rfl hl₁ hr₁
  | index => exact invalidOperands_yields

end Numbers

section TwoOperands

variable {op : BinaryOp} {left right : Expr} {span : Span}

theorem moved_yields {ty : RuleM TypeId} {R : TypeId → TypeTable → Prop} (hl : left.Coherent t)
    (hr : right.Coherent t) (hty : ∀ t', t ≤ t' → Yields t' ty fun ty t' => t'.Has ty ∧ R ty t')
    (hgrows : Grows ty)
    (hrule : ∀ index ty t', t ≤ t' → OffsetRule t' left.ty index → R ty t' → BinaryRule t' op left.ty index ty) :
    Yields t (moved left right ty span) (Accepted op) := by
  refine .bind (sizedTarget_yields hl.has) (sizedTarget_grows _ _) fun target t₁ h₁ htarget =>
    .bind (offset_yields (hr.mono h₁)) (offset_grows _) fun right t₂ h₂ hright =>
    .bind (hty t₂ (h₁.trans h₂)) hgrows fun ty t₃ h₃ hty => .pure fun t₄ h₄ => Accepted.mono (t := t₃) ?_ h₄
  have hle := (h₁.trans h₂).trans h₃
  have hright₃ := hright.mono h₃
  have htarget₃ := htarget.mono (hl.has.mono h₁) (h₂.trans h₃)
  have hoffset : OffsetRule t₃ left.ty right.ty := by
    refine ⟨?_, target, htarget₃.target?_eq, htarget₃.hasSize⟩
    rw [TypeTable.sizeBits_of_le (h₂.trans h₃)]
    exact hright₃.plain
  exact ⟨hl.mono hle, hright₃.coherent, hty.1, hrule _ _ _ hle hoffset hty.2⟩

theorem difference_yields (hl : left.Coherent t) (hr : right.Coherent t) (hpl : t.isPointer left.ty = true)
    (hpr : t.isPointer right.ty = true) : Yields t (difference left right span) (Accepted .sub) := by
  refine .currentTypes fun t₁ h₁ => ?_
  have hend (compatible : Bool) {t₂ : TypeTable} (h₂ : t₁ ≤ t₂) : Yields t₂ (if compatible then do
      let _ ← sizedTarget left.ty span
      return ⟨left, right, ← onTypes (.signed 64)⟩
    else invalidOperands .sub left right span : RuleM Operands) (Accepted .sub) := by
    refine .ite (fun _ => ?_) fun _ => invalidOperands_yields
    refine .after (sizedTarget_quiet _ _) fun _ t₃ h₃ =>
      .bind (.onTypes (TypeM.intern_yields nofun nofun)) (onTypes_grows (TypeM.intern_grows _))
      fun ty t₄ h₄ hty => .pure fun t₅ h₅ => ?_
    have hle := ((((h₁.trans h₂).trans h₃).trans h₄).trans h₅)
    refine ⟨hl.mono hle, hr.mono hle, hty.mono h₅, fun hp => ?_, fun _ hp => ?_⟩
    · rw [hl.has.isPointer_eq hle, hpl] at hp
      cases hp
    · rw [hr.has.isPointer_eq hle, hpr] at hp
      cases hp
  simp only
  split
  · exact .bind (.onTypes (TypeM.equalsUnqualified_keeps _ _ _))
      (onTypes_grows (TypeM.equalsUnqualified_grows _ _)) fun compatible _ h₂ _ => hend compatible h₂
  · exact .after (.pure _) fun compatible _ => hend compatible

/-- An element of an array or counted from a pointer. -/
theorem elementAt_yields (hl : left.Coherent t) (hr : right.Coherent t) :
    Yields t (do
      let element ← sizedTarget left.ty span
      return ⟨left, ← offset right, element⟩ : RuleM Operands) (Accepted .index) := by
  refine .bind (sizedTarget_yields hl.has) (sizedTarget_grows _ _) fun element t₁ h₁ hel =>
    .bind (offset_yields (hr.mono h₁)) (offset_grows _) fun right t₂ h₂ hright => .pure fun t₃ h₃ =>
    Accepted.mono (t := t₂) ?_ h₃
  have hel₂ := hel.mono (hl.has.mono h₁) h₂
  refine ⟨hl.mono (h₁.trans h₂), hright.coherent, hel₂.has, hel₂.target?_eq, ?_,
    element, hel₂.target?_eq, hel₂.hasSize⟩
  rw [TypeTable.sizeBits_of_le h₂]
  exact hright.plain

theorem indexed_yields (hl : left.Coherent t) (hr : right.Coherent t) :
    Yields t (indexed left right span) (Accepted .index) := by
  refine .currentTypes fun t₁ h₁ => .optional (.throw _) fun _ t₂ h₂ => .optional (.throw _) fun _ t₃ h₃ => ?_
  have hle := (h₁.trans h₂).trans h₃
  exact elementAt_yields (hl.mono hle) (hr.mono hle)

theorem pointerRules_yields (hl : left.Coherent t) (hr : right.Coherent t)
    (hw : op.isAssignment = true → t.isReadOnly left.ty = false ∧ t.isArray left.ty = false) :
    Yields t (pointerRules op left right span) (Accepted op) := by
  refine .currentTypes fun t₁ h₁ => ?_
  generalize hp : (if (op == .add && !t₁.isPointer left.ty) = true then (right, left) else (left, right)) = p
  obtain ⟨left', right'⟩ := p
  have hl' : left'.Coherent t₁ := by
    split at hp
    · cases hp
      exact hr.mono h₁
    · cases hp
      exact hl.mono h₁
  have hr' : right'.Coherent t₁ := by
    split at hp
    · cases hp
      exact hl.mono h₁
    · cases hp
      exact hr.mono h₁
  -- only the operands of an addition are swapped
  have hw' (hop : op.isAssignment = true) : t₁.isReadOnly left'.ty = false ∧ t₁.dim? left'.ty = none := by
    obtain ⟨hwrite, harray⟩ := hw hop
    split at hp
    · rename_i hadd
      obtain rfl : op = .add := by simpa using (Bool.and_eq_true_iff.1 hadd).1
      cases hop
    · cases hp
      rw [hl.has.dim?_eq h₁]
      exact ⟨(hl.has.isReadOnly_eq h₁).trans hwrite, TypeTable.dim?_of_not_isArray harray⟩
  have hpointer {t' : TypeTable} {b : Bool} (h : (t₁.isPointer left'.ty && b) = true) (ht : t₁ ≤ t') :
      t'.isPointer left'.ty ≠ false := by
    rw [hl'.has.isPointer_eq ht, (Bool.and_eq_true_iff.1 h).1]
    exact Bool.noConfusion
  have hplain (t' : TypeTable) (ht : t₁ ≤ t') : Yields t' (onTypes (.constRemoved left'.ty) : RuleM TypeId)
      fun ty t' => t'.Has ty ∧ t'.Plain (t'.shape left'.ty) ty :=
    .imp (.onTypes (TypeM.withConst_yields (hl'.has.mono ht))) fun _ _ h =>
      ⟨h.has, h.spelling.1, h.spelling.2.1⟩
  have hplainGrows : Grows (onTypes (.constRemoved left'.ty) : RuleM TypeId) :=
    onTypes_grows (TypeM.withConst_grows _ _)
  have hkept (t' : TypeTable) (ht : t₁ ≤ t') :
      Yields t' (pure left'.ty : RuleM TypeId) fun ty t' => t'.Has ty ∧ ty = left'.ty :=
    .pure fun t'' ht' => ⟨hl'.has.mono (ht.trans ht'), rfl⟩
  cases op with
  | assign =>
    obtain ⟨hwrite, hdim⟩ := hw' rfl
    exact assigned_yields rfl (.inl rfl) (fun h => by rw [hdim] at h; cases h) hwrite hl' hr'
  | addAssign | subAssign =>
    refine .ite (fun h => moved_yields hl' hr' hkept (.pure _) ?_) fun _ => invalidOperands_yields
    rintro index ty t' ht hoffset rfl
    exact ⟨(hl'.has.isReadOnly_eq ht).trans (hw' rfl).1, rfl, fun hp => absurd hp (hpointer h ht), fun _ => hoffset⟩
  | add =>
    refine .ite (fun h => moved_yields hl' hr' hplain hplainGrows fun index ty t' ht hoffset hty => ?_)
      fun _ => invalidOperands_yields
    exact ⟨fun hp => absurd hp (hpointer h ht), fun _ _ => ⟨hoffset, hty⟩⟩
  | sub =>
    refine .ite (fun h => moved_yields hl' hr' hplain hplainGrows fun index ty t' ht hoffset hty => ?_)
      fun _ => .ite (fun h => ?_) fun _ => invalidOperands_yields
    · exact ⟨fun hp => absurd hp (hpointer h ht), fun _ _ => ⟨hoffset, hty⟩⟩
    · obtain ⟨hpl, hpr⟩ := Bool.and_eq_true_iff.1 h
      exact difference_yields hl' hr' hpl hpr
  | equal | notEqual | less | greater | lessEqual | greaterEqual =>
    refine .ite (fun h => ?_) fun _ => invalidOperands_yields
    refine .bind (.onTypes bool_yields) (onTypes_grows bool_grows) fun bool t₂ h₂ hbool => .pure fun t₃ h₃ =>
      Accepted.mono (t := t₂) ⟨hl'.mono h₂, hr'.mono h₂, hbool.1, hbool.2, ?_⟩ h₃
    exact fun hp => absurd hp (hpointer h h₂)
  | logicalAnd | logicalOr => exact logical_yields rfl hl' hr'
  | index => exact .ite (fun _ => indexed_yields hl' hr') fun _ => .throw
  | mul | div | mod | mulAssign | divAssign | modAssign => exact invalidOperands_yields

theorem decayed_yields (hl : left.Coherent t) (hr : right.Coherent t)
    (hw : op.isAssignment = true → t.isReadOnly left.ty = false) :
    Yields t (decayed op left right span) (Accepted op) := by
  refine .bind (decay_yields hl) (decay_grows _) fun left t₁ h₁ hleft =>
    .bind (decay_yields (hr.mono h₁)) (decay_grows _) fun right t₂ h₂ hright => ?_
  have hleft₂ := hleft.mono h₂
  exact pointerRules_yields hleft₂.coherent hright.coherent fun hop => ⟨hleft₂.writable (hw hop), hleft₂.not_isArray⟩

theorem sameArrayType_yields {a b : TypeId} (ha : t.Has a) (hb : t.Has b) :
    Yields t (sameArrayType a b) fun same _ => same = true → t.dim? a = t.dim? b := by
  have hno {t₁ : TypeTable} :
      Yields t₁ (pure false : RuleM Bool) fun same _ => same = true → t.dim? a = t.dim? b :=
    .pure fun _ _ => nofun
  refine .currentTypes fun t₁ h₁ => ?_
  split
  · refine .ite (fun hdim => ?_) fun _ => hno
    rw [ha.dim?_eq h₁, hb.dim?_eq h₁] at hdim
    exact (Yields.onTypes (TypeM.equalsUnqualified_keeps _ _ _)).imp fun _ _ _ _ => hdim
  · exact hno

theorem arrayAssigned_yields (hl : left.Coherent t) (hr : right.Coherent t) (hw : t.isReadOnly left.ty = false) :
    Yields t (arrayAssigned left right span) (Accepted .assign) := by
  refine .currentTypes fun t₁ h₁ => .ite (fun h => ?_) fun _ => .ite (fun _ => ?_) fun _ => invalidOperands_yields
  · refine .bind (decay_yields (hr.mono h₁)) (decay_grows _) fun right t₂ h₂ hright => ?_
    have hle := h₁.trans h₂
    have hpointer := (Bool.and_eq_true_iff.1 h).1
    refine pointerRules_yields (hl.mono hle) hright.coherent fun _ => ⟨(hl.has.isReadOnly_eq hle).trans hw, ?_⟩
    rw [(hl.has.mono h₁).isArray_eq h₂]
    exact TypeTable.isArray_of_isPointer hpointer
  · refine .bind (sameArrayType_yields (hl.has.mono h₁) (hr.has.mono h₁)) (sameArrayType_grows _ _)
      fun same t₂ h₂ hsame => .ite (fun htrue => ?_) fun _ => invalidOperands_yields
    have hle := h₁.trans h₂
    refine assigned_yields rfl (.inl rfl) (fun hzero dim hdim => ?_) ((hl.has.isReadOnly_eq hle).trans hw)
      (hl.mono hle) (hr.mono hle)
    rw [(hl.has.mono h₁).dim?_eq h₂, hsame htrue, ← (hr.has.mono h₁).dim?_eq h₂, hdim] at hzero
    exact Option.some.inj hzero

theorem element_yields (hl : left.Coherent t) (hr : right.Coherent t) :
    Yields t (element left right span) (Accepted .index) := by
  refine .currentTypes fun t₁ h₁ => .optional (.throw _) fun _ t₂ h₂ => ?_
  exact elementAt_yields (hl.mono (h₁.trans h₂)) (hr.mono (h₁.trans h₂))

theorem arrayRules_yields (hl : left.Coherent t) (hr : right.Coherent t)
    (hw : op.isAssignment = true → t.isReadOnly left.ty = false) :
    Yields t (arrayRules op left right span) (Accepted op) := by
  refine .currentTypes fun t₁ h₁ => ?_
  have hl₁ := hl.mono h₁
  have hr₁ := hr.mono h₁
  have hw₁ (hop : op.isAssignment = true) := (hl.has.isReadOnly_eq h₁).trans (hw hop)
  refine .ite (fun h => ?_) fun _ => .ite (fun h => ?_) fun _ => .ite (fun _ => invalidOperands_yields)
    fun _ => decayed_yields hl₁ hr₁ hw₁
  · obtain rfl : op = .index := of_decide_eq_true (Bool.and_eq_true_iff.1 h).1
    exact element_yields hl₁ hr₁
  · subst h
    exact arrayAssigned_yields hl₁ hr₁ (hw₁ rfl)

theorem structRules_yields (hl : left.Coherent t) (hr : right.Coherent t)
    (hstruct : t.isStruct left.ty = true ∨ t.isStruct right.ty = true)
    (hw : op.isAssignment = true → t.isReadOnly left.ty = false) :
    Yields t (structRules op left right span) (Accepted op) := by
  refine .ite (fun h => ?_) fun _ => invalidOperands_yields
  subst h
  refine assigned_yields rfl (.inl rfl) (fun hzero dim hdim => ?_) (hw rfl) hl hr
  rcases hstruct with hstruct | hstruct
  · rw [TypeTable.dim?_of_isStruct hstruct] at hzero
    cases hzero
  · rw [TypeTable.dim?_of_isStruct hstruct] at hdim
    cases hdim

theorem dispatch_yields (hl : left.Coherent t) (hr : right.Coherent t)
    (hw : op.isAssignment = true → t.isReadOnly left.ty = false) :
    Yields t (dispatch op left right span) (Accepted op) := by
  refine .currentTypes fun t₁ h₁ => ?_
  have hl₁ := hl.mono h₁
  have hr₁ := hr.mono h₁
  have hw₁ (hop : op.isAssignment = true) := (hl.has.isReadOnly_eq h₁).trans (hw hop)
  refine .ite (fun h => structRules_yields hl₁ hr₁ (Bool.or_eq_true_iff.1 h) hw₁) fun _ =>
    .ite (fun _ => arrayRules_yields hl₁ hr₁ hw₁) fun harray => .ite (fun _ => decayed_yields hl₁ hr₁ hw₁) fun _ =>
    .ite (fun _ => ?_) fun _ => .ite (fun h => ?_) fun _ => invalidOperands_yields
  · have hnot : t₁.isArray left.ty = false := by
      rw [Bool.or_eq_true, not_or] at harray
      exact Bool.eq_false_iff.2 harray.1
    exact pointerRules_yields hl₁ hr₁ fun hop => ⟨hw₁ hop, hnot⟩
  · obtain ⟨hla, hra⟩ := Bool.and_eq_true_iff.1 h
    exact arithmeticRules_yields hl₁ hr₁ hla hra hw₁

theorem checkAssignable_yields (hl : left.Coherent t) :
    Yields t (checkAssignable left) fun _ t' => t'.isReadOnly left.ty = false := by
  refine .currentTypes fun t₁ h₁ => .guard fun hread => .ite (fun _ => .throw) fun _ => .pure fun t₂ h₂ => ?_
  rw [(hl.has.mono h₁).isReadOnly_eq h₂]
  exact Bool.eq_false_iff.2 hread

/-- The node that is built from the operands, wherever it stands, is coherent. -/
theorem binary_yields (hl : left.Coherent t) (hr : right.Coherent t) :
    Yields t (binary op left right span) fun r t' =>
      ∀ span, (Expr.binary op r.left r.right ⟨r.ty, span⟩).Coherent t' := by
  have hrest {t₁ : TypeTable} (h₁ : t ≤ t₁) (hw : op.isAssignment = true → t₁.isReadOnly left.ty = false) :
      Yields t₁ (do
        let result ← dispatch op left right span
        if isZeroDivision (← currentTypes) op result then
          throw ⟨.divisionByZero, result.right.span⟩
        return result : RuleM Operands) fun r t' =>
          ∀ span, (Expr.binary op r.left r.right ⟨r.ty, span⟩).Coherent t' := by
    refine .bind (dispatch_yields (hl.mono h₁) (hr.mono h₁) hw) (dispatch_grows _ _ _ _)
      fun r t₂ h₂ hr => .currentTypes fun t₃ h₃ => .guard fun hzero => .pure fun t₄ h₄ span => ?_
    have hr₃ := hr.mono h₃
    have hr₄ := hr₃.mono h₄
    refine ⟨⟨hr₄.has, hr₄.rule, ?_⟩, hr₄.left, hr₄.right⟩
    exact (isZeroDivision_of_le h₄ hr₃.left.inRange hr₃.right.inRange).trans (Bool.eq_false_iff.2 hzero)
  unfold binary
  refine .ite (fun _ => .bind (checkAssignable_yields hl) (checkAssignable_grows _) fun _ t₁ h₁ hw => ?_)
    fun hop => ?_
  · exact hrest h₁ fun _ => hw
  · exact hrest le_rfl fun h => absurd h hop

end TwoOperands

/-! ### Operators with one operand -/

/-- A coherent operand of a type that fits the operator. -/
structure AcceptedOne (op : UnaryOp) (r : Operand) (t : TypeTable) : Prop where
  child : r.child.Coherent t
  has : t.Has r.ty
  rule : UnaryRule t op r.child.ty r.ty

section OneOperand

variable {op : UnaryOp} {child : Expr} {span : Span}

theorem invalidOperand_yields {α : Type} {Q : α → TypeTable → Prop} :
    Yields t (invalidOperand op child span) Q :=
  .currentTypes fun _ _ => .throw

theorem addressOf_yields (h : child.Coherent t) : Yields t (addressOf child) (AcceptedOne .addressOf) := by
  refine .ite (fun _ => ?_) fun _ => .currentTypes fun _ _ => .throw
  exact .bind (.onTypes (TypeM.pointer_yields h.has)) (onTypes_grows (TypeM.intern_grows _))
    fun ty t₁ h₁ hty => .pure fun t₂ h₂ => ⟨h.mono (h₁.trans h₂), hty.mono h₂, trivial⟩

theorem dereference_yields (h : child.Coherent t) :
    Yields t (dereference child span) (AcceptedOne .dereference) := by
  refine .currentTypes fun t₁ h₁ => .either (R := fun e t' => e.Coherent t')
    (fun _ => (decay_yields (h.mono h₁)).imp fun _ _ h => h.coherent) (decay_grows _)
    (fun _ => .pure fun t₂ h₂ => h.mono (h₁.trans h₂)) (.pure _) fun child t₂ h₂ hchild =>
    .currentTypes fun t₃ h₃ => ?_
  refine .ite (fun _ => invalidOperand_yields) fun _ => .ite (fun _ => .throw) fun _ => ?_
  split
  · exact .throw
  · rename_i target htarget
    have hchild₃ := hchild.mono h₃
    exact .ite (fun _ => .throw) fun _ => .pure fun t₄ h₄ =>
      ⟨hchild₃.mono h₄, (hchild₃.has.target htarget).mono h₄, trivial⟩

theorem step_yields (hop : ∀ t c ty, UnaryRule t op c ty) (h : child.Coherent t) :
    Yields t (step op child span) (AcceptedOne op) := by
  have hkept {t₁ : TypeTable} (h₁ : t ≤ t₁) : Yields t₁ (pure ⟨child, child.ty⟩ : RuleM Operand) (AcceptedOne op) :=
    .pure fun t₂ h₂ => ⟨h.mono (h₁.trans h₂), h.has.mono (h₁.trans h₂), hop _ _ _⟩
  refine .currentTypes fun t₁ h₁ => .optional (.throw _) fun _ t₂ h₂ => .optional (.throw _) fun _ t₃ h₃ => ?_
  have hle := (h₁.trans h₂).trans h₃
  exact .ite (fun _ => .after (sizedTarget_quiet _ _) fun _ t₄ h₄ => hkept (hle.trans h₄)) fun _ =>
    .ite (fun _ => hkept hle) fun _ => invalidOperand_yields

theorem logicalNot_yields (h : child.Coherent t) :
    Yields t (logicalNot child span) (AcceptedOne .logicalNot) := by
  refine .currentTypes fun t₁ h₁ => .ite (fun _ => .pure fun t₂ h₂ => ?_) fun hno => .ite (fun _ => ?_) fun _ =>
    invalidOperand_yields
  · exact ⟨h.mono (h₁.trans h₂), h.has.mono (h₁.trans h₂), fun _ => rfl⟩
  · refine .bind (.onTypes bool_yields) (onTypes_grows bool_grows) fun bool t₂ h₂ hbool => .pure fun t₃ h₃ => ?_
    have hle := (h₁.trans h₂).trans h₃
    refine ⟨h.mono hle, hbool.1.mono h₃, fun hint => absurd ?_ hno⟩
    rwa [(h.has.mono h₁).isIntegral_eq (h₂.trans h₃)] at hint

theorem minus_yields (h : child.Coherent t) : Yields t (minus child span) (AcceptedOne .minus) := by
  refine .currentTypes fun t₁ h₁ => .ite (fun _ => ?_) fun _ => invalidOperand_yields
  have hchild := h.mono h₁
  refine .bind (.onTypes (TypeM.withConst_yields hchild.has)) (onTypes_grows (TypeM.withConst_grows _ _))
    fun ty t₂ h₂ hty => .pure fun t₃ h₃ => ?_
  replace hty := hty.mono (hchild.has.mono h₂) h₃
  exact ⟨hchild.mono (h₂.trans h₃), hty.has, hty.spelling.1⟩

theorem unary_yields (h : child.Coherent t) : Yields t (unary op child span) (AcceptedOne op) := by
  cases op with
  | addressOf => exact addressOf_yields h
  | dereference => exact dereference_yields h
  | preIncrement | postIncrement | preDecrement | postDecrement => exact step_yields (fun _ _ _ => trivial) h
  | logicalNot => exact logicalNot_yields h
  | minus => exact minus_yields h
  | cast | explicitCast => exact invalidOperand_yields

end OneOperand

/-! ### Calls -/

theorem coherent_calledFunction {callee : Expr} (h : callee.Coherent t) :
    (calledFunction t callee).Coherent t := by
  unfold calledFunction
  split
  · rename_i target hs
    split
    · exact ⟨⟨h.has.part (by rw [hs]; exact List.mem_singleton_self _), trivial⟩, h⟩
    · exact h
  · exact h

/-- Coherent arguments that are as many as there were and that fit their parameters. -/
structure Passed (params : List TypeId) (count : Nat) (args : List Expr) (t : TypeTable) : Prop where
  coherent : ∀ e ∈ args, e.Coherent t
  length_eq : args.length = count
  fixed : ∀ p ∈ params.zip (args.map Expr.ty), Takes t p.1 p.2
  extra : ∀ a ∈ (args.map Expr.ty).drop params.length, t.isArray a = false

namespace Passed

variable {params : List TypeId} {count : Nat} {e : Expr} {es : List Expr}

theorem mono (h : Passed params count es t) (hparams : ∀ p ∈ params, t.Has p) (ht : t ≤ t') :
    Passed params count es t' := by
  have hhas : ∀ a ∈ es.map Expr.ty, t.Has a := by
    intro a ha
    obtain ⟨e, he, rfl⟩ := List.mem_map.1 ha
    exact (h.coherent e he).has
  refine ⟨fun e he => (h.coherent e he).mono ht, h.length_eq, fun p hp => ?_, fun a ha => ?_⟩
  · obtain ⟨hparam, harg⟩ := List.of_mem_zip hp
    exact (h.fixed p hp).mono (hparams _ hparam) (hhas _ harg) ht
  · exact ((hhas a (List.mem_of_mem_drop ha)).isArray_eq ht).trans (h.extra a ha)

theorem coherent_cons (h : Passed params count es t) (he : e.Coherent t) : ∀ a ∈ e :: es, a.Coherent t := by
  intro a ha
  rcases List.mem_cons.1 ha with rfl | ha
  · exact he
  · exact h.coherent a ha

/-- One more argument without a parameter. -/
theorem cons_extra (h : Passed [] count es t) (he : e.Coherent t) (harray : t.isArray e.ty = false) :
    Passed [] (count + 1) (e :: es) t := by
  refine ⟨h.coherent_cons he, congrArg Nat.succ h.length_eq, nofun, fun a ha => ?_⟩
  rcases List.mem_cons.1 ha with rfl | ha
  · exact harray
  · exact h.extra a ha

theorem cons_fixed {param : TypeId} (h : Passed params count es t) (he : e.Coherent t) (htakes : Takes t param e.ty) :
    Passed (param :: params) (count + 1) (e :: es) t := by
  refine ⟨h.coherent_cons he, congrArg Nat.succ h.length_eq, fun p hp => ?_, h.extra⟩
  rcases List.mem_cons.1 hp with rfl | hp
  · exact htakes
  · exact h.fixed p hp

end Passed

theorem convertArgs_yields : ∀ {t : TypeTable} {params : List TypeId} {args : List Expr},
    (∀ p ∈ params, t.Has p) → (∀ e ∈ args, e.Coherent t) →
      Yields t (convertArgs params args) (Passed params args.length)
  | t, params, [], _, _ => by
    unfold convertArgs
    exact .pure fun _ _ => ⟨nofun, rfl, by simp, by simp⟩
  | t, [], arg :: args, hp, ha => by
    unfold convertArgs
    have harg := ha arg (List.mem_cons_self ..)
    refine .currentTypes fun t₁ h₁ => .either (R := fun e t' => e.Coherent t' ∧ t'.isArray e.ty = false)
      (fun _ => (decay_yields (harg.mono h₁)).imp fun _ _ h => ⟨h.coherent, h.not_isArray⟩) (decay_grows _)
      (fun hno => .pure fun t₂ h₂ => ⟨harg.mono (h₁.trans h₂), ?_⟩) (.pure _) fun e t₂ h₂ he => ?_
    · rw [(harg.has.mono h₁).isArray_eq h₂]
      exact Bool.eq_false_iff.2 hno
    · refine .bind (convertArgs_yields nofun fun e he => (ha e (List.mem_cons_of_mem _ he)).mono (h₁.trans h₂))
        (convertArgs_grows _ _) fun es t₃ h₃ hes => .pure fun t₄ h₄ => Passed.mono (t := t₃) ?_ nofun h₄
      exact hes.cons_extra (he.1.mono h₃) ((he.1.has.isArray_eq h₃).trans he.2)
  | t, param :: params, arg :: args, hp, ha => by
    unfold convertArgs
    refine .bind (implicitCast_yields (ha arg (List.mem_cons_self ..)) (hp param (List.mem_cons_self ..)))
      (implicitCast_grows _ _) fun e t₁ h₁ he => ?_
    refine .bind (convertArgs_yields (fun p hp' => (hp p (List.mem_cons_of_mem _ hp')).mono h₁)
      fun e he => (ha e (List.mem_cons_of_mem _ he)).mono h₁)
      (convertArgs_grows _ _) fun es t₂ h₂ hes => .pure fun t₃ h₃ =>
      Passed.mono (t := t₂) ?_ (fun p hp' => (hp p hp').mono (h₁.trans h₂)) h₃
    have he₂ := he.mono h₂
    exact hes.cons_fixed he₂.coherent he₂.takes

theorem call_yields {callee : Expr} {args : List Expr} {span : Span} (hc : callee.Coherent t)
    (ha : ∀ e ∈ args, e.Coherent t) :
    Yields t (call callee args span) fun r t' => ∀ span, (Expr.call r.callee r.args ⟨r.ty, span⟩).Coherent t' := by
  refine .currentTypes fun t₁ h₁ => ?_
  have hcallee := coherent_calledFunction (hc.mono h₁)
  simp only
  split
  · rename_i ret params variadic hs
    have hparams : ∀ p ∈ params, t₁.Has p := fun p hp => hcallee.has.part (by simp [hs, Shape.parts, hp])
    have hret : t₁.Has ret := hcallee.has.part (by simp [hs, Shape.parts])
    refine .ite (fun _ => .throw) fun hfew => .ite (fun _ => .throw) fun hmany => ?_
    refine .bind (convertArgs_yields hparams fun e he => (ha e he).mono h₁) (convertArgs_grows _ _)
      fun es t₂ h₂ hes => .pure fun t₃ h₃ span => Coherent.mono (t := t₂) ?_ h₃
    refine ⟨⟨hret.mono h₂, params, variadic, (hcallee.has.shape_eq h₂).trans hs, ?_, ?_, hes.fixed, hes.extra⟩,
      hcallee.mono h₂, allOf_iff.2 hes.coherent⟩
    · rw [List.length_map, hes.length_eq]
      exact Nat.le_of_not_lt hfew
    · rintro rfl
      simp only [Bool.not_false, Bool.and_true, decide_eq_true_eq] at hmany
      rw [List.length_map, hes.length_eq]
      omega
  · exact .throw

end Typing

end TypedCore
