import TypedCore.Proofs.Types.Aggregates
import TypedCore.Proofs.Typing.Constructors

/-!
# What rules make sure of besides types

`Expr.Formed`: what is stored to or stepped is a place, what has its address taken has one, conversions take
aggregates to aggregates, and elements in braces fit the parts that they stand for. Rules may put conversions
around the operands they are given. That does not change what is below, but on the left of an assignment a
function becomes a pointer, which is no place.
-/

namespace TypedCore

namespace TypeTable

variable {t t' : TypeTable} {ty : TypeId}

theorem Has.isFunction_eq (h : t.Has ty) (ht : t ≤ t') : t'.isFunction ty = t.isFunction ty := by
  rw [isFunction, isFunction, h.shape_eq ht]

end TypeTable

namespace Expr

variable {t t' : TypeTable} {P Q : Expr → Prop}

mutual

theorem All.and : ∀ {e : Expr}, e.All P → e.All Q → e.All fun n => P n ∧ Q n
  | literal .., h, h' => ⟨h, h'⟩
  | identifier _ _ _ none _, h, h' => ⟨h, h'⟩
  | identifier _ _ _ (some _) _, h, h' => ⟨⟨h.1, h'.1⟩, All.and h.2 h'.2⟩
  | proxy .., h, h' => ⟨⟨h.1, h'.1⟩, All.and h.2 h'.2⟩
  | unary .., h, h' => ⟨⟨h.1, h'.1⟩, All.and h.2 h'.2⟩
  | binary .., h, h' => ⟨⟨h.1, h'.1⟩, All.and h.2.1 h'.2.1, All.and h.2.2 h'.2.2⟩
  | conditional .., h, h' =>
    ⟨⟨h.1, h'.1⟩, All.and h.2.1 h'.2.1, All.and h.2.2.1 h'.2.2.1, All.and h.2.2.2 h'.2.2.2⟩
  | call .., h, h' => ⟨⟨h.1, h'.1⟩, All.and h.2.1 h'.2.1, AllOf.and h.2.2 h'.2.2⟩
  | member .., h, h' => ⟨⟨h.1, h'.1⟩, All.and h.2 h'.2⟩
  | aggregate .., h, h' => ⟨⟨h.1, h'.1⟩, AllOf.and h.2 h'.2⟩

theorem AllOf.and : ∀ {es : List Expr}, AllOf P es → AllOf Q es → AllOf (fun n => P n ∧ Q n) es
  | [], _, _ => trivial
  | _ :: _, h, h' => ⟨All.and h.1 h'.1, AllOf.and h.2 h'.2⟩

end

/-! ### The condition at a node -/

/-- What becomes of a function on the left of an assignment. -/
def DecayedFunction (t : TypeTable) : Expr → Prop
  | unary .cast place _ => place.isLvalue = true ∧ t.isFunction place.ty = true
  | _ => False

/-- What is made sure of for an operator with one operand. -/
def OperandForm (t : TypeTable) (op : UnaryOp) (child : Expr) (ty : TypeId) : Prop :=
  match op with
  | .cast | .explicitCast => t.Carries child.ty ty
  | .logicalNot => t.isIntegral child.ty = true ∨ t.isBool ty = true
  | .addressOf => child.hasAddress = true
  | .preIncrement | .postIncrement | .preDecrement | .postDecrement => child.isLvalue = true
  | .minus | .dereference => True

/-- Elements in braces are as many as there are parts at most, and each is of the type of its part. -/
def BracesRule (t : TypeTable) (ty : TypeId) (elements : List TypeId) : Prop :=
  match t.shape ty with
  | .array element dim => elements.length ≤ dim ∧ ∀ x ∈ elements, Takes t element x
  | .struct id => ∃ ms, (t.struct id).members = some ms ∧ (∀ m ∈ ms, t.Has m.ty) ∧
      elements.length ≤ ms.length ∧ ∀ p ∈ (ms.map (·.ty)).zip elements, Takes t p.1 p.2
  | _ => elements.length ≤ 1 ∧ ∀ x ∈ elements, Takes t ty x

/-- What the rules make sure of at a node besides the types in `Ruled`. -/
def Formed (t : TypeTable) : Expr → Prop
  | literal .nullptr note => t.isPointer note.ty = true
  | unary op child note => OperandForm t op child note.ty
  | binary op left _ _ => op.isAssignment = true → left.isLvalue = true ∨ DecayedFunction t left
  | aggregate elements note => BracesRule t note.ty (elements.map Expr.ty)
  | _ => True

theorem DecayedFunction.mono {left : Expr} (h : DecayedFunction t left) (hl : left.Coherent t) (ht : t ≤ t') :
    DecayedFunction t' left := by
  unfold DecayedFunction at h
  split at h
  · exact ⟨h.1, ((Coherent.has hl.2).isFunction_eq ht).trans h.2⟩
  · exact h.elim

theorem OperandForm.mono {op : UnaryOp} {child : Expr} {ty : TypeId} (h : OperandForm t op child ty)
    (hchild : t.Has child.ty) (hty : t.Has ty) (ht : t ≤ t') : OperandForm t' op child ty := by
  cases op with
  | cast | explicitCast => exact TypeTable.Carries.mono h hchild hty ht
  | logicalNot => simpa only [OperandForm, hchild.isIntegral_eq ht, hty.isBool_eq ht] using h
  | _ => exact h

theorem BracesRule.mono {ty : TypeId} {elements : List TypeId} (h : BracesRule t ty elements) (hty : t.Has ty)
    (hes : ∀ x ∈ elements, t.Has x) (ht : t ≤ t') : BracesRule t' ty elements := by
  have hshape := hty.shape_eq ht
  unfold BracesRule at h ⊢
  rw [hshape]
  cases hs : t.shape ty with
  | array element dim =>
    rw [hs] at h
    have helement := hty.element hs
    exact ⟨h.1, fun x hx => (h.2 x hx).mono helement (hes x hx) ht⟩
  | struct id =>
    rw [hs] at h
    obtain ⟨ms, hms, hhas, hlen, htakes⟩ := h
    refine ⟨ms, TypeTable.structMembers_of_le ht hms, fun m hm => (hhas m hm).mono ht, hlen, fun p hp => ?_⟩
    obtain ⟨hm, hx⟩ := List.of_mem_zip hp
    obtain ⟨m, hm, hm'⟩ := List.mem_map.1 hm
    exact (htakes p hp).mono (hm' ▸ hhas m hm) (hes _ hx) ht
  | _ =>
    rw [hs] at h
    exact ⟨h.1, fun x hx => (h.2 x hx).mono hty (hes x hx) ht⟩

theorem Formed.mono {e : Expr} (h : Formed t e) (he : e.Coherent t) (ht : t ≤ t') : Formed t' e := by
  have hty := he.has
  cases e with
  | literal value note =>
    cases value with
    | nullptr => exact (hty.isPointer_eq ht).trans h
    | _ => trivial
  | unary op child note => exact OperandForm.mono h (Coherent.has he.2) hty ht
  | binary op left right note => exact fun hop => (h hop).imp_right fun hleft => hleft.mono he.2.1 ht
  | aggregate elements note =>
    refine BracesRule.mono h hty (fun x hx => ?_) ht
    obtain ⟨e, hmem, rfl⟩ := List.mem_map.1 hx
    exact Coherent.has (allOf_iff.1 he.2 e hmem)
  | _ => trivial

/-! ### All nodes -/

/-- Both the types and what else the rules ask for are right at every node. -/
structure Elaborated (t : TypeTable) (e : Expr) : Prop where
  coherent : e.Coherent t
  formed : e.All (Formed t)

namespace Elaborated

variable {e : Expr}

theorem has (h : e.Elaborated t) : t.Has e.ty := h.coherent.has

theorem mono (h : e.Elaborated t) (ht : t ≤ t') : e.Elaborated t' := by
  refine ⟨h.coherent.mono ht, All.imp (fun n hn => ?_) (All.and h.coherent h.formed)⟩
  have hcoherent : n.Coherent t := All.imp (fun _ h => h.self.1) hn
  exact hn.self.2.mono hcoherent ht

end Elaborated

end Expr

namespace Typing

open Session Expr

variable {t t' : TypeTable}

/-! ### Conversions -/

theorem elaborated_cast {op : UnaryOp} {e : Expr} {note : Note} (hop : op = .cast ∨ op = .explicitCast)
    (h : e.Elaborated t) (hty : t.Has note.ty) (hcarries : t.Carries e.ty note.ty) :
    (Expr.unary op e note).Elaborated t := by
  rcases hop with rfl | rfl
  · exact ⟨⟨⟨hty, trivial⟩, h.coherent⟩, hcarries, h.formed⟩
  · exact ⟨⟨⟨hty, trivial⟩, h.coherent⟩, hcarries, h.formed⟩

/-- What an expression decays to: arrays and functions are converted, and anything else stays. -/
structure Decays (e e' : Expr) (t : TypeTable) : Prop where
  elaborated : e'.Elaborated t
  cases : e' = e ∨ (t.isArray e.ty = true ∨ t.isFunction e.ty = true) ∧ ∃ note, e' = .unary .cast e note

theorem decay_decays {e : Expr} (he : e.Elaborated t) : Yields t (decay e) (Decays e) := by
  refine .currentTypes fun t₁ h₁ => ?_
  have he₁ := he.mono h₁
  have hcast {target : TypeId} (htarget : t₁.Has target)
      (hkind : t₁.isArray e.ty = true ∨ t₁.isFunction e.ty = true) :
      Yields t₁ (do return .unary .cast e ⟨← onTypes (.pointer target), e.span⟩ : RuleM Expr) (Decays e) := by
    refine .bind (.onTypes (TypeM.intern_yields_plain (fun p hp => ?_) nofun))
      (onTypes_grows (TypeM.intern_grows _)) fun ty t₂ h₂ ⟨hty, hplain⟩ => .pure fun t₃ h₃ => ⟨?_, .inr ⟨?_, _, rfl⟩⟩
    · exact List.mem_singleton.1 hp ▸ htarget
    · have hcarries : t₂.Carries e.ty ty := .of_shape hplain.shape_eq nofun nofun
      exact (elaborated_cast (.inl rfl) (he₁.mono h₂) hty hcarries).mono h₃
    · rwa [he₁.has.isArray_eq (h₂.trans h₃), he₁.has.isFunction_eq (h₂.trans h₃)]
  split
  · rename_i element dim hs
    exact hcast (he₁.has.part (by simp [hs, Shape.parts])) (.inl (by rw [TypeTable.isArray, hs]))
  · rename_i hs
    exact hcast he₁.has (.inr (by rw [TypeTable.isFunction, hs]))
  · exact .pure fun t₂ h₂ => ⟨he₁.mono h₂, .inl rfl⟩

theorem implicitCast_elaborated {e : Expr} {ty : TypeId} (he : e.Elaborated t) (hty : t.Has ty) :
    Yields t (implicitCast e ty) fun e' t' => e'.Elaborated t' := by
  unfold implicitCast
  refine .currentTypes fun t₁ h₁ => .ite (fun _ => .pure fun t₂ h₂ => he.mono (h₁.trans h₂)) fun _ => ?_
  refine .either (R := fun e' t' => e'.Elaborated t')
    (fun _ => (decay_decays (he.mono h₁)).imp fun _ _ h => h.elaborated) (decay_grows e)
    (fun _ => .pure fun t₂ h₂ => he.mono (h₁.trans h₂)) (.pure e) fun e' t₂ h₂ he₂ => ?_
  have hty₂ := hty.mono (h₁.trans h₂)
  refine .bind (.onTypes (TypeM.convert_carries false he₂.has hty₂)) (onTypes_grows (TypeM.convert_grows _ _ _))
    fun conversion t₃ h₃ hcarried => .currentTypes fun t₄ h₄ => ?_
  cases conversion with
  | none => exact .throw
  | some conversion =>
    obtain ⟨hhas, hcarries⟩ := hcarried conversion rfl
    refine .optional (warn_quiet _ _) fun _ t₅ h₅ => .after .get fun _ t₆ h₆ =>
      .optional (warn_quiet _ _) fun _ t₇ h₇ => .pure fun t₈ h₈ => ?_
    exact (elaborated_cast (.inl rfl) (he₂.mono h₃) hhas hcarries).mono
      (h₄.trans (((h₅.trans h₆).trans h₇).trans h₈))

theorem explicitCast_elaborated {e : Expr} {ty : TypeId} {span : Span} (he : e.Elaborated t) (hty : t.Has ty) :
    Yields t (explicitCast e ty span) fun e' t' => e'.Elaborated t' := by
  refine .currentTypes fun t₁ h₁ => .either (R := fun e' t' => e'.Elaborated t')
    (fun _ => (decay_decays (he.mono h₁)).imp fun _ _ h => h.elaborated) (decay_grows e)
    (fun _ => .pure fun t₂ h₂ => he.mono (h₁.trans h₂)) (.pure e) fun e t₂ h₂ he₂ => ?_
  refine .bind (.onTypes (TypeM.explicitCast_carries he₂.has (hty.mono (h₁.trans h₂))))
    (onTypes_grows (TypeM.explicitCast_grows _ _)) fun conversion t₃ h₃ hcarried => .currentTypes fun t₄ h₄ => ?_
  cases conversion with
  | none => exact .throw
  | some conversion =>
    obtain ⟨hhas, hcarries⟩ := hcarried conversion rfl
    refine .optional (warn_quiet _ _) fun _ t₅ h₅ => .pure fun t₆ h₆ => ?_
    exact (elaborated_cast (.inr rfl) (he₂.mono h₃) hhas hcarries).mono ((h₄.trans h₅).trans h₆)

theorem offset_elaborated {index : Expr} (h : index.Elaborated t) :
    Yields t (offset index) fun e t' => e.Elaborated t' :=
  .bind (.onTypes (.get fun _ _ => TypeM.intern_yields nofun nofun))
    (onTypes_grows (.bind .get fun _ => TypeM.intern_grows _)) fun _ _ h₁ hty => implicitCast_elaborated (h.mono h₁) hty

/-! ### Operators with two operands -/

/-- The operands of a rule that is given `place` on the left: an assignment keeps it. -/
structure Arranged (op : BinaryOp) (place : Expr) (r : Operands) (t : TypeTable) : Prop where
  left : r.left.Elaborated t
  right : r.right.Elaborated t
  kept : op.isAssignment = true → r.left = place

theorem Arranged.of_not_assignment {op : BinaryOp} {place : Expr} {r : Operands} (hop : op.isAssignment = false)
    (hl : r.left.Elaborated t) (hr : r.right.Elaborated t) : Arranged op place r t :=
  ⟨hl, hr, fun h => absurd h (Bool.eq_false_iff.1 hop)⟩

section TwoOperands

variable {op op' : BinaryOp} {left right : Expr} {span : Span}

theorem assigned_arranged (hl : left.Elaborated t) (hr : right.Elaborated t) :
    Yields t (assigned op' left right span) (Arranged op left) := by
  refine .currentTypes fun t₁ h₁ => .either (R := fun _ _ => True) (fun _ => .pure fun _ _ => trivial) (.pure _)
    (fun _ => converts_keeps _ _ _) (converts_grows _ _) fun _ t₂ h₂ _ => .ite (fun _ => ?_) fun _ =>
    invalidOperands_yields
  have hl₂ := hl.mono (h₁.trans h₂)
  exact .bind (implicitCast_elaborated (hr.mono (h₁.trans h₂)) hl₂.has) (implicitCast_grows _ _)
    fun right t₃ h₃ hright => .pure fun t₄ h₄ => ⟨hl₂.mono (h₃.trans h₄), hright.mono h₄, fun _ => rfl⟩

theorem logical_arranged (hop : op.isAssignment = false) (hl : left.Elaborated t) (hr : right.Elaborated t) :
    Yields t (logical op' left right span) (Arranged op left) := by
  refine .bind (.onTypes bool_yields) (onTypes_grows bool_grows) fun bool t₁ h₁ hbool =>
    .bind (converts_keeps _ _ _) (converts_grows _ _) fun _ t₂ h₂ _ => .either (R := fun _ _ => True)
      (fun _ => converts_keeps _ _ _) (converts_grows _ _) (fun _ => .pure fun _ _ => trivial) (.pure _)
      fun _ t₃ h₃ _ => .ite (fun _ => ?_) fun _ => invalidOperands_yields
  have hle := (h₁.trans h₂).trans h₃
  have hty := hbool.1.mono (h₂.trans h₃)
  exact .bind (implicitCast_elaborated (hl.mono hle) hty) (implicitCast_grows _ _) fun left' t₄ h₄ hleft =>
    .bind (implicitCast_elaborated (hr.mono (hle.trans h₄)) (hty.mono h₄)) (implicitCast_grows _ _)
      fun right' t₅ h₅ hright => .pure fun t₆ h₆ =>
      .of_not_assignment hop (hleft.mono (h₅.trans h₆)) (hright.mono h₆)

theorem arithmetic_arranged (hop : op.isAssignment = false) (hl : left.Elaborated t) (hr : right.Elaborated t) :
    Yields t (arithmetic op' left right span) (Arranged op left) := by
  refine .bind (commonType_yields hl.coherent hr.coherent) (commonType_grows _ _ _ _) fun common t₁ h₁ hcommon =>
    .currentTypes fun t₂ h₂ => .either (R := fun ty t' => t'.Has ty)
      (fun _ => .onTypes (TypeM.intern_yields nofun nofun)) (onTypes_grows (TypeM.intern_grows _))
      (fun _ => .pure fun t₃ h₃ => hcommon.has.mono (h₂.trans h₃)) (.pure _) fun ty t₃ h₃ hty => ?_
  have hle := (h₁.trans h₂).trans h₃
  exact .bind (implicitCast_elaborated (hl.mono hle) hty) (implicitCast_grows _ _) fun left' t₄ h₄ hleft =>
    .bind (implicitCast_elaborated (hr.mono (hle.trans h₄)) (hty.mono h₄)) (implicitCast_grows _ _)
      fun right' t₅ h₅ hright => .pure fun t₆ h₆ =>
      .of_not_assignment hop (hleft.mono (h₅.trans h₆)) (hright.mono h₆)

theorem comparison_arranged (hop : op.isAssignment = false) (hl : left.Elaborated t) (hr : right.Elaborated t) :
    Yields t (comparison op' left right span) (Arranged op left) := by
  refine .bind (commonType_yields hl.coherent hr.coherent) (commonType_grows _ _ _ _) fun ty t₁ h₁ hty => ?_
  exact .bind (implicitCast_elaborated (hl.mono h₁) hty.has) (implicitCast_grows _ _) fun left' t₂ h₂ hleft =>
    .bind (implicitCast_elaborated (hr.mono (h₁.trans h₂)) (hty.has.mono h₂)) (implicitCast_grows _ _)
      fun right' t₃ h₃ hright => .bind (.onTypes bool_yields) (onTypes_grows bool_grows) fun _ t₄ h₄ _ =>
      .pure fun t₅ h₅ => .of_not_assignment hop (hleft.mono (h₃.trans (h₄.trans h₅))) (hright.mono (h₄.trans h₅))

theorem arithmeticRules_arranged (hl : left.Elaborated t) (hr : right.Elaborated t) :
    Yields t (arithmeticRules op left right span) (Arranged op left) := by
  refine .currentTypes fun t₁ h₁ => ?_
  have hl₁ := hl.mono h₁
  have hr₁ := hr.mono h₁
  cases op with
  | assign | addAssign | subAssign | mulAssign | divAssign => exact assigned_arranged hl₁ hr₁
  | modAssign => exact .ite (fun _ => invalidOperands_yields) fun _ => assigned_arranged hl₁ hr₁
  | add | sub | mul | div => exact arithmetic_arranged rfl hl₁ hr₁
  | mod => exact .ite (fun _ => invalidOperands_yields) fun _ => arithmetic_arranged rfl hl₁ hr₁
  | equal | notEqual | less | greater | lessEqual | greaterEqual => exact comparison_arranged rfl hl₁ hr₁
  | logicalAnd | logicalOr => exact logical_arranged rfl hl₁ hr₁
  | index => exact invalidOperands_yields

theorem moved_arranged {ty : RuleM TypeId} (hty : ∀ t, Session.Keeps t ty) (hgrows : Grows ty)
    (hl : left.Elaborated t) (hr : right.Elaborated t) : Yields t (moved left right ty span) (Arranged op left) :=
  .after (sizedTarget_quiet _ _) fun _ _ h₁ => .bind (offset_elaborated (hr.mono h₁)) (offset_grows _)
    fun _ _ h₂ hright => .bind (hty _) hgrows fun _ _ h₃ _ => .pure fun _ h₄ =>
    ⟨hl.mono ((h₁.trans h₂).trans (h₃.trans h₄)), hright.mono (h₃.trans h₄), fun _ => rfl⟩

theorem difference_arranged (hl : left.Elaborated t) (hr : right.Elaborated t) :
    Yields t (difference left right span) (Arranged op left) := by
  refine .currentTypes fun t₁ h₁ => ?_
  have hend (compatible : Bool) {t₂ : TypeTable} (h₂ : t₁ ≤ t₂) : Yields t₂ (if compatible then do
      let _ ← sizedTarget left.ty span
      return ⟨left, right, ← onTypes (.signed 64)⟩
    else invalidOperands .sub left right span : RuleM Operands) (Arranged op left) := by
    refine .ite (fun _ => ?_) fun _ => invalidOperands_yields
    refine .after (sizedTarget_quiet _ _) fun _ t₃ h₃ => .bind (.onTypes (TypeM.intern_yields nofun nofun))
      (onTypes_grows (TypeM.intern_grows _)) fun ty t₄ h₄ _ => .pure fun t₅ h₅ => ?_
    have hle := (((h₁.trans h₂).trans h₃).trans h₄).trans h₅
    exact ⟨hl.mono hle, hr.mono hle, fun _ => rfl⟩
  simp only
  split
  · exact .bind (.onTypes (TypeM.equalsUnqualified_keeps _ _ _)) (onTypes_grows (TypeM.equalsUnqualified_grows _ _))
      fun compatible _ h₂ _ => hend compatible h₂
  · exact .after (.pure _) fun compatible _ => hend compatible

theorem elementAt_arranged (hl : left.Elaborated t) (hr : right.Elaborated t) :
    Yields t (do
      let element ← sizedTarget left.ty span
      return ⟨left, ← offset right, element⟩ : RuleM Operands) (Arranged op left) :=
  .after (sizedTarget_quiet _ _) fun _ _ h₁ => .bind (offset_elaborated (hr.mono h₁)) (offset_grows _)
    fun _ _ h₂ hright => .pure fun _ h₃ => ⟨hl.mono ((h₁.trans h₂).trans h₃), hright.mono h₃, fun _ => rfl⟩

theorem pointerRules_arranged (hl : left.Elaborated t) (hr : right.Elaborated t) :
    Yields t (pointerRules op left right span) (Arranged op left) := by
  have hplain (e : Expr) (t : TypeTable) : Session.Keeps t (onTypes (.constRemoved e.ty) : RuleM TypeId) :=
    .onTypes (TypeM.withConst_keeps _ _ _)
  have hgrows (e : Expr) : Grows (onTypes (.constRemoved e.ty) : RuleM TypeId) :=
    onTypes_grows (TypeM.withConst_grows _ _)
  refine .currentTypes fun t₁ h₁ => ?_
  have hl₁ := hl.mono h₁
  have hr₁ := hr.mono h₁
  -- only the operands of an addition are swapped
  by_cases hswap : (op == .add && !t₁.isPointer left.ty) = true
  · obtain rfl : op = .add := by simpa using (Bool.and_eq_true_iff.1 hswap).1
    simp only [hswap, if_true]
    refine .ite (fun _ => ?_) fun _ => invalidOperands_yields
    exact .imp (R := Arranged .add right) (moved_arranged (hplain right) (hgrows right) hr₁ hl₁)
      fun r t' h => .of_not_assignment rfl h.left h.right
  · simp only [hswap]
    cases op with
    | assign => exact assigned_arranged hl₁ hr₁
    | addAssign | subAssign =>
      exact .ite (fun _ => moved_arranged (fun _ => .pure fun _ _ => trivial) (.pure _) hl₁ hr₁) fun _ =>
        invalidOperands_yields
    | add =>
      exact .ite (fun _ => moved_arranged (hplain left) (hgrows left) hl₁ hr₁) fun _ => invalidOperands_yields
    | sub =>
      exact .ite (fun _ => moved_arranged (hplain left) (hgrows left) hl₁ hr₁) fun _ =>
        .ite (fun _ => difference_arranged hl₁ hr₁) fun _ => invalidOperands_yields
    | equal | notEqual | less | greater | lessEqual | greaterEqual =>
      refine .ite (fun _ => ?_) fun _ => invalidOperands_yields
      exact .bind (.onTypes bool_yields) (onTypes_grows bool_grows) fun _ t₂ h₂ _ => .pure fun t₃ h₃ =>
        ⟨hl₁.mono (h₂.trans h₃), hr₁.mono (h₂.trans h₃), fun _ => rfl⟩
    | logicalAnd | logicalOr => exact logical_arranged rfl hl₁ hr₁
    | index =>
      refine .ite (fun _ => ?_) fun _ => .throw
      exact .currentTypes fun t₂ h₂ => .optional (.throw _) fun _ t₃ h₃ => .optional (.throw _) fun _ t₄ h₄ =>
        elementAt_arranged (hl₁.mono ((h₂.trans h₃).trans h₄)) (hr₁.mono ((h₂.trans h₃).trans h₄))
    | mul | div | mod | mulAssign | divAssign | modAssign => exact invalidOperands_yields

theorem Decays.mono {e e' : Expr} (h : Decays e e' t) (he : t.Has e.ty) (ht : t ≤ t') : Decays e e' t' := by
  refine ⟨h.elaborated.mono ht, ?_⟩
  rw [he.isArray_eq ht, he.isFunction_eq ht]
  exact h.cases

theorem decayed_arranged (hl : left.Elaborated t) (hr : right.Elaborated t) :
    Yields t (decayed op left right span) fun r t' => ∃ left', Decays left left' t' ∧ Arranged op left' r t' := by
  refine .bind (decay_decays hl) (decay_grows _) fun left' t₁ h₁ hleft =>
    .bind (decay_decays (hr.mono h₁)) (decay_grows _) fun right' t₂ h₂ hright => ?_
  have hleft₂ := hleft.mono (hl.has.mono h₁) h₂
  have hrules : Yields t₂ (pointerRules op left' right' span) (Arranged op left') :=
    pointerRules_arranged hleft₂.elaborated hright.elaborated
  refine .of_ok hrules.keeps fun s r s' ht hc hx => ⟨left', ?_, hrules.result ht hc hx⟩
  exact hleft₂.mono (hl.has.mono (h₁.trans h₂)) (ht.trans (pointerRules_grows _ _ _ _ hx).le)

theorem arrayAssigned_arranged (hl : left.Elaborated t) (hr : right.Elaborated t) :
    Yields t (arrayAssigned left right span) (Arranged .assign left) := by
  refine .currentTypes fun t₁ h₁ => .ite (fun _ => ?_) fun _ => .ite (fun _ => ?_) fun _ => invalidOperands_yields
  · exact .bind (decay_decays (hr.mono h₁)) (decay_grows _) fun right' t₂ h₂ hright =>
      pointerRules_arranged (hl.mono (h₁.trans h₂)) hright.elaborated
  · exact .bind (sameArrayType_yields (hl.has.mono h₁) (hr.has.mono h₁)) (sameArrayType_grows _ _)
      fun _ t₂ h₂ _ => .ite (fun _ => assigned_arranged (hl.mono (h₁.trans h₂)) (hr.mono (h₁.trans h₂)))
      fun _ => invalidOperands_yields

theorem arrayRules_arranged (hl : left.Elaborated t) (hr : right.Elaborated t) :
    Yields t (arrayRules op left right span) (Arranged op left) := by
  refine .currentTypes fun t₁ h₁ => .ite (fun h => ?_) fun _ => .ite (fun h => ?_) fun _ =>
    .ite (fun _ => invalidOperands_yields) fun hop => ?_
  · refine .currentTypes fun t₂ h₂ => .optional (.throw _) fun _ t₃ h₃ => ?_
    have hle := (h₁.trans h₂).trans h₃
    exact elementAt_arranged (hl.mono hle) (hr.mono hle)
  · subst h
    exact arrayAssigned_arranged (hl.mono h₁) (hr.mono h₁)
  · exact (decayed_arranged (hl.mono h₁) (hr.mono h₁)).imp fun r t' ⟨_, _, hr⟩ =>
      .of_not_assignment (Bool.eq_false_iff.2 hop) hr.left hr.right

theorem structRules_arranged (hl : left.Elaborated t) (hr : right.Elaborated t) :
    Yields t (structRules op left right span) (Arranged op left) :=
  .ite (fun _ => assigned_arranged hl hr) fun _ => invalidOperands_yields

/-- What stands on the left of the node that is built: in an assignment the place itself, unless it is a
function. -/
structure Placed (op : BinaryOp) (place : Expr) (r : Operands) (t : TypeTable) : Prop where
  left : r.left.Elaborated t
  right : r.right.Elaborated t
  kept : op.isAssignment = true → r.left = place ∨
    t.isFunction place.ty = true ∧ ∃ note, r.left = .unary .cast place note

theorem Arranged.placed {r : Operands} (h : Arranged op left r t) : Placed op left r t :=
  ⟨h.left, h.right, fun hop => .inl (h.kept hop)⟩

theorem Placed.mono {r : Operands} (h : Placed op left r t) (hl : t.Has left.ty) (ht : t ≤ t') :
    Placed op left r t' := by
  refine ⟨h.left.mono ht, h.right.mono ht, ?_⟩
  rw [hl.isFunction_eq ht]
  exact h.kept

theorem dispatch_placed (hl : left.Elaborated t) (hr : right.Elaborated t) :
    Yields t (dispatch op left right span) (Placed op left) := by
  refine .currentTypes fun t₁ h₁ => ?_
  have hl₁ := hl.mono h₁
  have hr₁ := hr.mono h₁
  refine .ite (fun _ => (structRules_arranged hl₁ hr₁).imp fun _ _ h => h.placed) fun _ =>
    .ite (fun _ => (arrayRules_arranged hl₁ hr₁).imp fun _ _ h => h.placed) fun harray =>
    .ite (fun _ => ?_) fun _ => .ite (fun _ => (pointerRules_arranged hl₁ hr₁).imp fun _ _ h => h.placed) fun _ =>
    .ite (fun _ => (arithmeticRules_arranged hl₁ hr₁).imp fun _ _ h => h.placed) fun _ => invalidOperands_yields
  have hdecayed : Yields t₁ (decayed op left right span) _ := decayed_arranged hl₁ hr₁
  refine .of_ok hdecayed.keeps fun s r s' ht hc hx => ?_
  have hle := ht.trans (decayed_grows _ _ _ _ hx).le
  obtain ⟨left', hdecays, hr⟩ := hdecayed.result ht hc hx
  refine ⟨hr.left, hr.right, fun hop => ?_⟩
  -- arrays have been dealt with, so that only a function decays
  rcases hdecays.cases with rfl | ⟨hkind, note, rfl⟩
  · exact .inl (hr.kept hop)
  · refine .inr ⟨hkind.resolve_left ?_, note, hr.kept hop⟩
    rw [hl₁.has.isArray_eq hle]
    exact fun h => harray (by rw [h, Bool.true_or])

theorem checkAssignable_isLvalue : Yields t (checkAssignable left) fun _ _ => left.isLvalue = true := by
  refine .currentTypes fun t₁ h₁ => .guard fun _ => .ite (fun _ => .throw) fun hno => .pure fun t₂ h₂ => ?_
  simpa using hno

theorem binary_elaborated (hl : left.Elaborated t) (hr : right.Elaborated t) :
    Yields t (binary op left right span) fun r t' =>
      ∀ span, (Expr.binary op r.left r.right ⟨r.ty, span⟩).Elaborated t' := by
  have hplaced : Yields t (binary op left right span) fun r t' =>
      Placed op left r t' ∧ (op.isAssignment = true → left.isLvalue = true) := by
    have hrest {t₁ : TypeTable} (h₁ : t ≤ t₁) (hplace : op.isAssignment = true → left.isLvalue = true) :
        Yields t₁ (do
          let result ← dispatch op left right span
          if isZeroDivision (← currentTypes) op result then
            throw ⟨.divisionByZero, result.right.span⟩
          return result : RuleM Operands) fun r t' =>
            Placed op left r t' ∧ (op.isAssignment = true → left.isLvalue = true) := by
      refine .bind (dispatch_placed (hl.mono h₁) (hr.mono h₁)) (dispatch_grows _ _ _ _) fun r t₂ h₂ hr =>
        .currentTypes fun t₃ h₃ => .guard fun _ => .pure fun t₄ h₄ => ?_
      exact ⟨hr.mono (hl.has.mono (h₁.trans h₂)) (h₃.trans h₄), hplace⟩
    refine .ite (fun _ => .bind checkAssignable_isLvalue (checkAssignable_grows _) fun _ t₁ h₁ hplace => ?_)
      fun hop => ?_
    · exact hrest h₁ fun _ => hplace
    · exact hrest le_rfl fun h => absurd h hop
  refine ((binary_yields hl.coherent hr.coherent).and hplaced).imp fun r t' h span => ?_
  obtain ⟨hcoherent, hr, hplace⟩ := h
  refine ⟨hcoherent span, fun hop => ?_, hr.left.formed, hr.right.formed⟩
  rcases hr.kept hop with heq | ⟨hfun, note, heq⟩
  · exact .inl (heq ▸ hplace hop)
  · exact .inr (heq ▸ ⟨hplace hop, hfun⟩)

end TwoOperands

/-! ### Operators with one operand -/

/-- The operand of a rule, in the form that the operator asks for. -/
structure ArrangedOne (op : UnaryOp) (r : Operand) (t : TypeTable) : Prop where
  child : r.child.Elaborated t
  form : OperandForm t op r.child r.ty

section OneOperand

variable {op : UnaryOp} {child : Expr} {span : Span}

theorem addressOf_arranged (h : child.Elaborated t) : Yields t (addressOf child) (ArrangedOne .addressOf) :=
  .ite (fun haddress => .bind (.onTypes (TypeM.pointer_yields h.has)) (onTypes_grows (TypeM.intern_grows _))
    fun _ _ h₁ _ => .pure fun _ h₂ => ⟨h.mono (h₁.trans h₂), haddress⟩) fun _ => .currentTypes fun _ _ => .throw

theorem dereference_arranged (h : child.Elaborated t) :
    Yields t (dereference child span) (ArrangedOne .dereference) := by
  refine .currentTypes fun t₁ h₁ => .either (R := fun e t' => e.Elaborated t')
    (fun _ => (decay_decays (h.mono h₁)).imp fun _ _ h => h.elaborated) (decay_grows _)
    (fun _ => .pure fun t₂ h₂ => h.mono (h₁.trans h₂)) (.pure _) fun child t₂ h₂ hchild =>
    .currentTypes fun t₃ h₃ => ?_
  refine .ite (fun _ => invalidOperand_yields) fun _ => .ite (fun _ => .throw) fun _ => ?_
  split
  · exact .throw
  · exact .ite (fun _ => .throw) fun _ => .pure fun t₄ h₄ => ⟨hchild.mono (h₃.trans h₄), trivial⟩

theorem step_arranged (hop : ∀ t ty, child.isLvalue = true → OperandForm t op child ty) (h : child.Elaborated t) :
    Yields t (step op child span) (ArrangedOne op) := by
  refine .currentTypes fun t₁ h₁ => .optional (.throw _) fun _ t₂ h₂ => .guard fun hno => ?_
  have hplace : child.isLvalue = true := by simpa using hno
  have hkept {t₃ : TypeTable} (h₃ : t₂ ≤ t₃) : Yields t₃ (pure ⟨child, child.ty⟩ : RuleM Operand) (ArrangedOne op) :=
    .pure fun t₄ h₄ => ⟨h.mono (((h₁.trans h₂).trans h₃).trans h₄), hop _ _ hplace⟩
  exact .ite (fun _ => .after (sizedTarget_quiet _ _) fun _ _ h₃ => hkept h₃) fun _ =>
    .ite (fun _ => hkept le_rfl) fun _ => invalidOperand_yields

theorem logicalNot_arranged (h : child.Elaborated t) :
    Yields t (logicalNot child span) (ArrangedOne .logicalNot) := by
  refine .currentTypes fun t₁ h₁ => .ite (fun hint => .pure fun t₂ h₂ => ?_) fun _ => .ite (fun _ => ?_) fun _ =>
    invalidOperand_yields
  · exact ⟨h.mono (h₁.trans h₂), .inl (((h.has.mono h₁).isIntegral_eq h₂).trans hint)⟩
  · refine .bind (.onTypes bool_yields) (onTypes_grows bool_grows) fun bool t₂ h₂ hbool => .pure fun t₃ h₃ => ?_
    refine ⟨h.mono ((h₁.trans h₂).trans h₃), .inr ?_⟩
    exact TypeTable.isBool_iff.2 (hbool.2.mono hbool.1 h₃).shape_eq

theorem unary_arranged (h : child.Elaborated t) : Yields t (unary op child span) (ArrangedOne op) := by
  cases op with
  | addressOf => exact addressOf_arranged h
  | dereference => exact dereference_arranged h
  | preIncrement | postIncrement | preDecrement | postDecrement => exact step_arranged (fun _ _ => id) h
  | logicalNot => exact logicalNot_arranged h
  | minus =>
    exact .currentTypes fun t₁ h₁ => .ite (fun _ => .bind (.onTypes (TypeM.withConst_keeps _ _ _))
      (onTypes_grows (TypeM.withConst_grows _ _)) fun _ t₂ h₂ _ => .pure fun t₃ h₃ =>
      ⟨h.mono ((h₁.trans h₂).trans h₃), trivial⟩) fun _ => invalidOperand_yields
  | cast | explicitCast => exact invalidOperand_yields

theorem unary_elaborated (h : child.Elaborated t) :
    Yields t (unary op child span) fun r t' => ∀ span, (Expr.unary op r.child ⟨r.ty, span⟩).Elaborated t' :=
  ((unary_yields h.coherent).and (unary_arranged h)).imp fun _ _ ⟨hr, hr'⟩ _ =>
    ⟨⟨⟨hr.has, hr.rule⟩, hr.child⟩, hr'.form, hr'.child.formed⟩

end OneOperand

/-! ### Calls -/

theorem elaborated_calledFunction {callee : Expr} (h : callee.Elaborated t) :
    (calledFunction t callee).Elaborated t := by
  refine ⟨coherent_calledFunction h.coherent, ?_⟩
  unfold calledFunction
  split
  · split
    · exact ⟨trivial, h.formed⟩
    · exact h.formed
  · exact h.formed

theorem convertArgs_elaborated : ∀ {t : TypeTable} {params : List TypeId} {args : List Expr},
    (∀ p ∈ params, t.Has p) → (∀ e ∈ args, e.Elaborated t) →
      Yields t (convertArgs params args) fun es t' => ∀ e ∈ es, e.Elaborated t'
  | t, params, [], _, _ => by
    unfold convertArgs
    exact .pure fun _ _ => by simp
  | t, [], arg :: args, hp, ha => by
    unfold convertArgs
    have harg := ha arg (List.mem_cons_self ..)
    refine .currentTypes fun t₁ h₁ => .either (R := fun e t' => e.Elaborated t')
      (fun _ => (decay_decays (harg.mono h₁)).imp fun _ _ h => h.elaborated) (decay_grows _)
      (fun _ => .pure fun t₂ h₂ => harg.mono (h₁.trans h₂)) (.pure _) fun e t₂ h₂ he => ?_
    refine .bind (convertArgs_elaborated (by simp) fun e he => (ha e (List.mem_cons_of_mem _ he)).mono (h₁.trans h₂))
      (convertArgs_grows _ _) fun es t₃ h₃ hes => .pure fun t₄ h₄ => List.forall_mem_cons.2 ⟨?_, fun a ha => ?_⟩
    · exact he.mono (h₃.trans h₄)
    · exact (hes a ha).mono h₄
  | t, param :: params, arg :: args, hp, ha => by
    unfold convertArgs
    refine .bind (implicitCast_elaborated (ha arg (List.mem_cons_self ..)) (hp param (List.mem_cons_self ..)))
      (implicitCast_grows _ _) fun e t₁ h₁ he => ?_
    refine .bind (convertArgs_elaborated (fun p hp' => (hp p (List.mem_cons_of_mem _ hp')).mono h₁)
      fun e he => (ha e (List.mem_cons_of_mem _ he)).mono h₁)
      (convertArgs_grows _ _) fun es t₂ h₂ hes => .pure fun t₃ h₃ => List.forall_mem_cons.2 ⟨?_, fun a ha => ?_⟩
    · exact he.mono (h₂.trans h₃)
    · exact (hes a ha).mono h₃

theorem call_elaborated {callee : Expr} {args : List Expr} {span : Span} (hc : callee.Elaborated t)
    (ha : ∀ e ∈ args, e.Elaborated t) :
    Yields t (call callee args span) fun r t' => ∀ span, (Expr.call r.callee r.args ⟨r.ty, span⟩).Elaborated t' := by
  have hparts : Yields t (call callee args span) fun r t' =>
      r.callee.Elaborated t' ∧ ∀ e ∈ r.args, e.Elaborated t' := by
    refine .currentTypes fun t₁ h₁ => ?_
    have hcallee := elaborated_calledFunction (hc.mono h₁)
    simp only
    split
    · rename_i ret params variadic hs
      have hparams : ∀ p ∈ params, t₁.Has p := fun p hp => hcallee.has.part (by simp [hs, Shape.parts, hp])
      refine .ite (fun _ => .throw) fun _ => .ite (fun _ => .throw) fun _ => ?_
      exact .bind (convertArgs_elaborated hparams fun e he => (ha e he).mono h₁) (convertArgs_grows _ _)
        fun es t₂ h₂ hes => .pure fun t₃ h₃ => ⟨hcallee.mono (h₂.trans h₃), fun e he => (hes e he).mono h₃⟩
    · exact .throw
  refine ((call_yields hc.coherent fun e he => (ha e he).coherent).and hparts).imp fun r t' h span => ?_
  obtain ⟨hcoherent, hcallee, hargs⟩ := h
  exact ⟨hcoherent span, trivial, hcallee.formed, allOf_iff.2 fun e he => (hargs e he).formed⟩

end Typing

end TypedCore
