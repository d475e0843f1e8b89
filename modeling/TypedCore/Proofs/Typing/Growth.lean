import TypedCore.Proofs.Outcome
import TypedCore.Proofs.Types.Growth
import TypedCore.Typing.Node

/-!
# What rules and constructors do to a session

Rules enter types and report warnings, and constructors also report rejections. Neither changes what
is in scope, whether they succeed or not.
-/

namespace TypedCore

namespace Session

/-- Types may have been added and diagnostics reported. -/
structure Grown (s s' : Session) : Prop where
  added : TypeTable.Additions s.types s'.types
  symbols : s'.symbols = s.symbols
  tags : s'.tags = s.tags

namespace Grown

variable {s s₁ s' : Session}

theorem refl (s : Session) : Grown s s := ⟨.refl, rfl, rfl⟩

theorem trans (h : Grown s s₁) (h₁ : Grown s₁ s') : Grown s s' :=
  ⟨h.added.trans h₁.added, h₁.symbols.trans h.symbols, h₁.tags.trans h.tags⟩

theorem types (h : Grown s s') : TypeTable.Steps s.types s'.types := h.added.steps

theorem le (h : Grown s s') : s.types ≤ s'.types := h.types.le

end Grown

variable {ε α β : Type}

/-- A computation lets the session grow, whether it fails or not. -/
def Grows (x : ExceptT ε (StateM Session) α) : Prop := ∀ ⦃s r s'⦄, Ends x s r s' → Grown s s'

namespace Grows

theorem pure (a : α) : Grows (Pure.pure a : ExceptT ε (StateM Session) α) := by
  intro s r s' h
  obtain ⟨-, rfl⟩ := Ends.pure_iff.1 h
  exact .refl _

theorem throw (e : ε) : Grows (throw e : ExceptT ε (StateM Session) α) := by
  intro s r s' h
  obtain ⟨-, rfl⟩ := Ends.throw_iff.1 h
  exact .refl _

theorem get : Grows (get : ExceptT ε (StateM Session) Session) := by
  intro s r s' h
  obtain ⟨-, rfl⟩ := Ends.get_iff.1 h
  exact .refl _

theorem bind {x : ExceptT ε (StateM Session) α} {f : α → ExceptT ε (StateM Session) β} (hx : Grows x)
    (hf : ∀ a, Grows (f a)) : Grows (x >>= f) := by
  intro s r s' h
  rcases Ends.bind_iff.1 h with ⟨a, s₁, h₁, h₂⟩ | ⟨e, -, h₁⟩
  · exact (hx h₁).trans (hf a h₂)
  · exact hx h₁

theorem map {x : ExceptT ε (StateM Session) α} (f : α → β) (hx : Grows x) : Grows (f <$> x) := by
  rw [← bind_pure_comp]
  exact hx.bind fun _ => pure _

theorem ite {p : Prop} [Decidable p] {x y : ExceptT ε (StateM Session) α} (hx : Grows x) (hy : Grows y) :
    Grows (if p then x else y) := by
  split <;> assumption

/-- Two ways to get to what follows. -/
theorem either {p : Prop} [Decidable p] {x y : ExceptT ε (StateM Session) α}
    {k : α → ExceptT ε (StateM Session) β} (hx : Grows x) (hy : Grows y) (hk : ∀ a, Grows (k a)) :
    Grows (if p then x >>= k else y >>= k) :=
  .ite (.bind hx hk) (.bind hy hk)

/-- What follows something that may be left out. -/
theorem optional {p : Prop} [Decidable p] {x : ExceptT ε (StateM Session) PUnit}
    {k : PUnit → ExceptT ε (StateM Session) β} (hx : Grows x) (hk : ∀ a, Grows (k a)) :
    Grows (if p then x >>= k else k ⟨⟩) :=
  .ite (.bind hx hk) (hk _)

end Grows

theorem currentTypes_grows : Grows (currentTypes : ExceptT ε (StateM Session) TypeTable) :=
  .bind .get fun _ => .pure _

theorem currentTypes_bind_iff {f : TypeTable → ExceptT ε (StateM Session) α} {s s' : Session}
    {r : Except ε α} : Ends (currentTypes >>= f) s r s' ↔ Ends (f s.types) s r s' := Iff.rfl

theorem onTypes_iff {x : TypeM α} {s s' : Session} {r : Except ε α} :
    Ends (onTypes x) s r s' ↔ r = .ok (x s.types).1 ∧ s' = { s with types := (x s.types).2 } :=
  Ends.modifyGet_iff

theorem onTypes_grows {x : TypeM α} (hx : TypeM.Grows x) :
    Grows (onTypes x : ExceptT ε (StateM Session) α) := by
  intro s r s' h
  obtain ⟨-, rfl⟩ := onTypes_iff.1 h
  exact ⟨hx s.types, rfl, rfl⟩

theorem warn_grows (message : String) (span : Span) :
    Grows (warn message span : ExceptT ε (StateM Session) Unit) := by
  intro s r s' h
  obtain ⟨-, rfl⟩ := Ends.modify_iff.1 h
  exact ⟨.refl, rfl, rfl⟩

theorem reject_grows (r : Rejection) : Grows (reject r : SessionM α) := by
  refine .bind (fun s _ s' h => ?_) fun _ => .bind .get fun s => ?_
  · obtain ⟨-, rfl⟩ := Ends.modify_iff.1 h
    exact ⟨.refl, rfl, rfl⟩
  · split <;> exact .throw _

theorem check_iff {rules : RuleM α} {s s' : Session} {r : Except Stop α} :
    Ends (check rules) s r s' ↔ (∃ a, r = .ok a ∧ Ends rules s (.ok a) s') ∨
      ∃ e s₁, Ends rules s (.error e) s₁ ∧ Ends (reject e) s₁ r s' := by
  unfold Ends
  rw [check, ExceptT.run_mk, StateT.run_bind]
  rcases rules.run.run s with ⟨e | a, s₁⟩
  · constructor
    · exact fun h => .inr ⟨e, s₁, rfl, h⟩
    · rintro (⟨a, -, h⟩ | ⟨e, s₁, h, hr⟩)
      · cases h
      · cases h
        exact hr
  · constructor
    · intro h
      cases h
      exact .inl ⟨a, rfl, rfl⟩
    · rintro (⟨a, rfl, h⟩ | ⟨e, s₁, h, -⟩)
      · cases h
        rfl
      · cases h

theorem not_reject_ok {e : Rejection} {s s' : Session} {a : α} : ¬ Ends (reject e) s (.ok a) s' := by
  intro h
  unfold reject at h
  rw [Ends.modify_bind_iff, Ends.get_bind_iff] at h
  split at h
  · cases (Ends.throw_iff.1 h).1
  · cases (Ends.throw_iff.1 h).1

theorem check_ok_iff {rules : RuleM α} {s s' : Session} {a : α} :
    Ends (check rules) s (.ok a) s' ↔ Ends rules s (.ok a) s' := by
  rw [check_iff]
  constructor
  · rintro (⟨a', ha, h⟩ | ⟨e, s₁, -, h⟩)
    · cases ha
      exact h
    · exact absurd h not_reject_ok
  · exact fun h => .inl ⟨a, rfl, h⟩

/-- A rejection stops every computation in the same way. -/
theorem reject_congr {β : Type} {e : Rejection} {s s' : Session} {stop : Stop}
    (h : Ends (reject e : SessionM α) s (.error stop) s') : Ends (reject e : SessionM β) s (.error stop) s' := by
  unfold reject at h ⊢
  rw [Ends.modify_bind_iff, Ends.get_bind_iff] at h ⊢
  cases hpolicy : s.options.failurePolicy with
  | abort | collect =>
    simp only [hpolicy] at h ⊢
    obtain ⟨hstop, rfl⟩ := Ends.throw_iff.1 h
    cases hstop
    exact Ends.throw_iff.2 ⟨rfl, rfl⟩

/-- Nothing is done after rules that fail. -/
theorem check_bind_of_error {β : Type} {rules : RuleM α} {f : α → SessionM β} {e : Rejection} {s s₁ s' : Session}
    {r : Except Stop β} (hx : Ends rules s (.error e) s₁) :
    Ends (check rules >>= f) s r s' ↔ Ends (reject e : SessionM β) s₁ r s' := by
  constructor
  · intro h
    rcases Ends.bind_iff.1 h with ⟨a, s₂, hok, -⟩ | ⟨stop, rfl, hstop⟩
    · cases (hx.unique (check_ok_iff.1 hok)).1
    · rcases check_iff.1 hstop with ⟨a, ha, -⟩ | ⟨e', s₂, herror, hr⟩
      · cases ha
      · obtain ⟨he, rfl⟩ := hx.unique herror
        cases he
        exact reject_congr hr
  · intro h
    cases r with
    | ok b => exact absurd h not_reject_ok
    | error stop => exact Ends.bind_iff.2 (.inr ⟨stop, rfl, check_iff.2 (.inr ⟨e, s₁, hx, reject_congr h⟩)⟩)

theorem check_grows {rules : RuleM α} (h : Grows rules) : Grows (check rules) := by
  intro s r s' hx
  rcases check_iff.1 hx with ⟨a, -, hx⟩ | ⟨e, s₁, hx, hr⟩
  · exact h hx
  · exact (h hx).trans (reject_grows e hr)

end Session

namespace Typing

open Session

/-! ### Conversions -/

theorem decay_grows (e : Expr) : Grows (decay e) := by
  refine .bind currentTypes_grows fun t => ?_
  split
  · exact .bind (onTypes_grows (TypeM.intern_grows _)) fun _ => .pure _
  · exact .bind (onTypes_grows (TypeM.intern_grows _)) fun _ => .pure _
  · exact .pure _

theorem implicitCast_grows (e : Expr) (ty : TypeId) : Grows (implicitCast e ty) := by
  unfold implicitCast
  refine .bind currentTypes_grows fun t => .ite (.pure _) ?_
  refine .either (decay_grows e) (.pure e) fun e =>
    .bind (onTypes_grows (TypeM.convert_grows _ _ _)) fun conversion => .bind currentTypes_grows fun t => ?_
  cases conversion with
  | none => exact .throw _
  | some conversion =>
    exact .optional (warn_grows _ _) fun _ => .bind .get fun _ => .optional (warn_grows _ _) fun _ => .pure _

theorem explicitCast_grows (e : Expr) (ty : TypeId) (span : Span) : Grows (explicitCast e ty span) := by
  refine .bind currentTypes_grows fun t => .either (decay_grows e) (.pure e) fun e =>
    .bind (onTypes_grows (TypeM.explicitCast_grows _ _)) fun conversion => .bind currentTypes_grows fun t => ?_
  cases conversion with
  | none => exact .throw _
  | some conversion => exact .optional (warn_grows _ _) fun _ => .pure _

theorem sizedTarget_grows (pointer : TypeId) (span : Span) : Grows (sizedTarget pointer span) := by
  refine .bind currentTypes_grows fun t => ?_
  split
  · exact .throw _
  · exact .ite (.pure _) (.throw _)

theorem offset_grows (index : Expr) : Grows (offset index) :=
  .bind (onTypes_grows (.bind .get fun _ => TypeM.intern_grows _)) fun _ => implicitCast_grows _ _

/-! ### Operators -/

theorem invalidOperands_grows {α : Type} (op : BinaryOp) (left right : Expr) (span : Span) :
    Grows (invalidOperands op left right span : RuleM α) :=
  .bind currentTypes_grows fun _ => .throw _

theorem converts_grows (src dst : TypeId) : Grows (converts src dst) :=
  .bind (onTypes_grows (TypeM.convert_grows _ _ _)) fun _ => .pure _

theorem assigned_grows (op : BinaryOp) (left right : Expr) (span : Span) :
    Grows (assigned op left right span) :=
  .bind currentTypes_grows fun _ => .either (.pure _) (converts_grows _ _) fun _ =>
    .ite (.bind (implicitCast_grows _ _) fun _ => .pure _) (invalidOperands_grows _ _ _ _)

theorem bool_grows : TypeM.Grows TypeM.bool := TypeM.intern_grows _

theorem logical_grows (op : BinaryOp) (left right : Expr) (span : Span) :
    Grows (logical op left right span) :=
  .bind (onTypes_grows bool_grows) fun _ => .bind (converts_grows _ _) fun _ =>
    .either (converts_grows _ _) (.pure _) fun _ => .ite
      (.bind (implicitCast_grows _ _) fun _ => .bind (implicitCast_grows _ _) fun _ => .pure _)
      (invalidOperands_grows _ _ _ _)

theorem commonType_grows (op : BinaryOp) (left right : Expr) (span : Span) :
    Grows (commonType op left right span) := by
  refine .bind (onTypes_grows (TypeM.withConst_grows _ _)) fun _ =>
    .bind (onTypes_grows (TypeM.withConst_grows _ _)) fun _ =>
    .bind (onTypes_grows (TypeM.common_grows _ _)) fun common => ?_
  cases common with
  | none => exact invalidOperands_grows _ _ _ _
  | some ty => exact .pure _

theorem arithmetic_grows (op : BinaryOp) (left right : Expr) (span : Span) :
    Grows (arithmetic op left right span) :=
  .bind (commonType_grows _ _ _ _) fun _ => .bind currentTypes_grows fun _ =>
    .either (onTypes_grows (TypeM.intern_grows _)) (.pure _) fun _ =>
    .bind (implicitCast_grows _ _) fun _ => .bind (implicitCast_grows _ _) fun _ => .pure _

theorem comparison_grows (op : BinaryOp) (left right : Expr) (span : Span) :
    Grows (comparison op left right span) :=
  .bind (commonType_grows _ _ _ _) fun _ => .bind (implicitCast_grows _ _) fun _ =>
    .bind (implicitCast_grows _ _) fun _ => .bind (onTypes_grows bool_grows) fun _ => .pure _

theorem arithmeticRules_grows (op : BinaryOp) (left right : Expr) (span : Span) :
    Grows (arithmeticRules op left right span) := by
  refine .bind currentTypes_grows fun t => ?_
  cases op with
  | assign | addAssign | subAssign | mulAssign | divAssign => exact assigned_grows _ _ _ _
  | modAssign => exact .ite (invalidOperands_grows _ _ _ _) (assigned_grows _ _ _ _)
  | add | sub | mul | div => exact arithmetic_grows _ _ _ _
  | mod => exact .ite (invalidOperands_grows _ _ _ _) (arithmetic_grows _ _ _ _)
  | equal | notEqual | less | greater | lessEqual | greaterEqual => exact comparison_grows _ _ _ _
  | logicalAnd | logicalOr => exact logical_grows _ _ _ _
  | index => exact invalidOperands_grows _ _ _ _

theorem moved_grows (left right : Expr) {ty : RuleM TypeId} (hty : Grows ty) (span : Span) :
    Grows (moved left right ty span) :=
  .bind (sizedTarget_grows _ _) fun _ => .bind (offset_grows _) fun _ => .bind hty fun _ => .pure _

theorem difference_grows (left right : Expr) (span : Span) : Grows (difference left right span) := by
  refine .bind currentTypes_grows fun t => ?_
  have hend (compatible : Bool) : Grows (if compatible then do
      let _ ← sizedTarget left.ty span
      return ⟨left, right, ← onTypes (.signed 64)⟩
    else invalidOperands .sub left right span : RuleM Operands) :=
    .ite (.bind (sizedTarget_grows _ _) fun _ => .bind (onTypes_grows (TypeM.intern_grows _)) fun _ => .pure _)
      (invalidOperands_grows _ _ _ _)
  simp only
  split
  · exact .bind (onTypes_grows (TypeM.equalsUnqualified_grows _ _)) hend
  · exact .bind (.pure _) hend

theorem indexed_grows (left right : Expr) (span : Span) : Grows (indexed left right span) :=
  .bind currentTypes_grows fun _ => .optional (.throw _) fun _ => .optional (.throw _) fun _ =>
    .bind (sizedTarget_grows _ _) fun _ => .bind (offset_grows _) fun _ => .pure _

theorem pointerRules_grows (op : BinaryOp) (left right : Expr) (span : Span) :
    Grows (pointerRules op left right span) := by
  refine .bind currentTypes_grows fun t => ?_
  generalize (if (op == .add && !t.isPointer left.ty) = true then (right, left) else (left, right)) = p
  obtain ⟨left, right⟩ := p
  have hplain : Grows (onTypes (.constRemoved left.ty) : RuleM TypeId) :=
    onTypes_grows (TypeM.withConst_grows _ _)
  have hno {op : BinaryOp} : Grows (invalidOperands op left right span : RuleM Operands) :=
    invalidOperands_grows _ _ _ _
  cases op with
  | assign => exact assigned_grows _ _ _ _
  | addAssign | subAssign => exact .ite (moved_grows _ _ (.pure _) _) hno
  | add => exact .ite (moved_grows _ _ hplain _) hno
  | sub => exact .ite (moved_grows _ _ hplain _) (.ite (difference_grows _ _ _) hno)
  | equal | notEqual | less | greater | lessEqual | greaterEqual =>
    exact .ite (.bind (onTypes_grows bool_grows) fun _ => .pure _) hno
  | logicalAnd | logicalOr => exact logical_grows _ _ _ _
  | index => exact .ite (indexed_grows _ _ _) (.throw _)
  | mul | div | mod | mulAssign | divAssign | modAssign => exact hno

theorem structRules_grows (op : BinaryOp) (left right : Expr) (span : Span) :
    Grows (structRules op left right span) :=
  .ite (assigned_grows _ _ _ _) (invalidOperands_grows _ _ _ _)

theorem sameArrayType_grows (a b : TypeId) : Grows (sameArrayType a b) := by
  refine .bind currentTypes_grows fun t => ?_
  split
  · exact .ite (onTypes_grows (TypeM.equalsUnqualified_grows _ _)) (.pure _)
  · exact .pure _

theorem element_grows (left right : Expr) (span : Span) : Grows (element left right span) :=
  .bind currentTypes_grows fun _ => .optional (.throw _) fun _ => .bind (sizedTarget_grows _ _) fun _ =>
    .bind (offset_grows _) fun _ => .pure _

theorem decayed_grows (op : BinaryOp) (left right : Expr) (span : Span) :
    Grows (decayed op left right span) :=
  .bind (decay_grows _) fun _ => .bind (decay_grows _) fun _ => pointerRules_grows _ _ _ _

theorem arrayAssigned_grows (left right : Expr) (span : Span) : Grows (arrayAssigned left right span) :=
  .bind currentTypes_grows fun _ =>
    .ite (.bind (decay_grows _) fun _ => pointerRules_grows _ _ _ _) <|
    .ite (.bind (sameArrayType_grows _ _) fun _ => .ite (assigned_grows _ _ _ _) (invalidOperands_grows _ _ _ _))
      (invalidOperands_grows _ _ _ _)

theorem arrayRules_grows (op : BinaryOp) (left right : Expr) (span : Span) :
    Grows (arrayRules op left right span) :=
  .bind currentTypes_grows fun _ => .ite (element_grows _ _ _) <| .ite (arrayAssigned_grows _ _ _) <|
    .ite (invalidOperands_grows _ _ _ _) (decayed_grows _ _ _ _)

theorem dispatch_grows (op : BinaryOp) (left right : Expr) (span : Span) :
    Grows (dispatch op left right span) :=
  .bind currentTypes_grows fun _ => .ite (structRules_grows _ _ _ _) <| .ite (arrayRules_grows _ _ _ _) <|
    .ite (decayed_grows _ _ _ _) <| .ite (pointerRules_grows _ _ _ _) <|
    .ite (arithmeticRules_grows _ _ _ _) (invalidOperands_grows _ _ _ _)

theorem checkAssignable_grows (left : Expr) : Grows (checkAssignable left) :=
  .bind currentTypes_grows fun _ => .optional (.throw _) fun _ => .ite (.throw _) (.pure _)

theorem binary_grows (op : BinaryOp) (left right : Expr) (span : Span) :
    Grows (binary op left right span) := by
  unfold binary
  exact .optional (checkAssignable_grows _) fun _ => .bind (dispatch_grows _ _ _ _) fun _ =>
    .bind currentTypes_grows fun _ => .optional (.throw _) fun _ => .pure _

theorem invalidOperand_grows {α : Type} (op : UnaryOp) (child : Expr) (span : Span) :
    Grows (invalidOperand op child span : RuleM α) :=
  .bind currentTypes_grows fun _ => .throw _

theorem addressOf_grows (child : Expr) : Grows (addressOf child) :=
  .ite (.bind (onTypes_grows (TypeM.intern_grows _)) fun _ => .pure _)
    (.bind currentTypes_grows fun _ => .throw _)

theorem dereference_grows (child : Expr) (span : Span) : Grows (dereference child span) := by
  refine .bind currentTypes_grows fun _ => .either (decay_grows _) (.pure _) fun _ =>
    .bind currentTypes_grows fun t => .ite (invalidOperand_grows _ _ _) <| .ite (.throw _) ?_
  split
  · exact .throw _
  · exact .ite (.throw _) (.pure _)

theorem step_grows (op : UnaryOp) (child : Expr) (span : Span) : Grows (step op child span) :=
  .bind currentTypes_grows fun _ => .optional (.throw _) fun _ => .optional (.throw _) fun _ =>
    .ite (.bind (sizedTarget_grows _ _) fun _ => .pure _) <| .ite (.pure _) (invalidOperand_grows _ _ _)

theorem logicalNot_grows (child : Expr) (span : Span) : Grows (logicalNot child span) :=
  .bind currentTypes_grows fun _ => .ite (.pure _) <|
    .ite (.bind (onTypes_grows bool_grows) fun _ => .pure _) (invalidOperand_grows _ _ _)

theorem minus_grows (child : Expr) (span : Span) : Grows (minus child span) :=
  .bind currentTypes_grows fun _ =>
    .ite (.bind (onTypes_grows (TypeM.withConst_grows _ _)) fun _ => .pure _) (invalidOperand_grows _ _ _)

theorem unary_grows (op : UnaryOp) (child : Expr) (span : Span) : Grows (unary op child span) := by
  cases op with
  | addressOf => exact addressOf_grows _
  | dereference => exact dereference_grows _ _
  | preIncrement | postIncrement | preDecrement | postDecrement => exact step_grows _ _ _
  | logicalNot => exact logicalNot_grows _ _
  | minus => exact minus_grows _ _
  | cast | explicitCast => exact invalidOperand_grows _ _ _

theorem convertArgs_grows : ∀ (params : List TypeId) (args : List Expr), Grows (convertArgs params args)
  | _, [] => .pure _
  | [], _ :: args => .bind currentTypes_grows fun _ => .either (decay_grows _) (.pure _) fun _ =>
      .bind (convertArgs_grows [] args) fun _ => .pure _
  | _ :: params, _ :: args => .bind (implicitCast_grows _ _) fun _ =>
      .bind (convertArgs_grows params args) fun _ => .pure _

theorem call_grows (callee : Expr) (args : List Expr) (span : Span) : Grows (call callee args span) := by
  refine .bind currentTypes_grows fun t => ?_
  simp only
  split
  · exact .ite (.throw _) <| .ite (.throw _) <| .bind (convertArgs_grows _ _) fun _ => .pure _
  · exact .throw _

end Typing

/-! ### Constructors -/

namespace Node

open Session

theorem unary_grows (op : UnaryOp) (child : Expr) (span : Span) : Grows (unary op child span) :=
  .bind (check_grows (Typing.unary_grows _ _ _)) fun _ => .pure _

theorem binary_grows (op : BinaryOp) (left right : Expr) (span : Span) :
    Grows (binary op left right span) :=
  .bind (check_grows (Typing.binary_grows _ _ _ _)) fun _ => .pure _

theorem call_grows (callee : Expr) (args : List Expr) (span : Span) : Grows (call callee args span) :=
  .bind (check_grows (Typing.call_grows _ _ _)) fun _ => .pure _

theorem implicitCast_grows (child : Expr) (ty : TypeId) : Grows (implicitCast child ty) :=
  check_grows (Typing.implicitCast_grows _ _)

theorem cast_grows (child : Expr) (ty : TypeId) (span : Span) : Grows (cast child ty span) :=
  check_grows (Typing.explicitCast_grows _ _ _)

theorem choiceType_grows (a b : TypeId) : TypeM.Grows (choiceType a b) :=
  .bind .get fun _ => .ite (.pure _) <| .bind (TypeM.withConst_grows _ _) fun _ =>
    .bind (TypeM.withConst_grows _ _) fun _ => TypeM.common_grows _ _

theorem conditional_grows (cond thenExpr elseExpr : Expr) (span : Span) :
    Grows (conditional cond thenExpr elseExpr span) := by
  refine .bind (onTypes_grows Typing.bool_grows) fun _ => .bind (implicitCast_grows _ _) fun _ =>
    .bind (onTypes_grows (choiceType_grows _ _)) fun ty => ?_
  cases ty with
  | none => exact .bind currentTypes_grows fun _ => reject_grows _
  | some ty =>
    exact .bind (implicitCast_grows _ _) fun _ => .bind (implicitCast_grows _ _) fun _ => .pure _

theorem member_grows (object : Expr) (name : String) (span : Span) : Grows (member object name span) := by
  refine .bind currentTypes_grows fun t => .ite (reject_grows _) ?_
  cases t.member object.ty name with
  | error e => exact reject_grows _
  | ok p => exact .either (onTypes_grows (TypeM.withConst_grows _ _)) (.pure _) fun _ => .pure _

theorem convertAll_grows : ∀ (es : List Expr) (tys : List TypeId), Grows (convertAll es tys)
  | [], _ => .pure _
  | _ :: _, [] => .pure _
  | _ :: es, _ :: tys => .bind (implicitCast_grows _ _) fun _ =>
      .bind (convertAll_grows es tys) fun _ => .pure _

theorem aggregate_grows (elements : List Expr) (ty : TypeId) (span : Span) :
    Grows (aggregate elements ty span) := by
  refine .bind currentTypes_grows fun t => ?_
  split
  · exact reject_grows _
  · exact .ite (reject_grows _) <| .bind (convertAll_grows _ _) fun _ =>
      .bind (onTypes_grows (TypeM.bindArray_grows _ _)) fun _ => .pure _

end Node

end TypedCore
