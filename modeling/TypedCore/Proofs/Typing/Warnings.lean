import Mathlib.Data.List.Basic
import TypedCore.Proofs.Typing.Growth

/-!
# What rules report

Rules report warnings and nothing else: a rejection is handed back to the operation that runs the rules, and
is reported there. What is reported is added at the end of the log, and the tally of errors and warnings stays
right.
-/

namespace TypedCore

namespace Log

variable {log : Log} {d : Diagnostic} {ds : List Diagnostic}

/-- Report one diagnostic after the other. -/
def reportAll (log : Log) (ds : List Diagnostic) : Log := ds.foldl report log

@[simp] theorem reportAll_nil : log.reportAll [] = log := rfl

@[simp] theorem reportAll_cons : log.reportAll (d :: ds) = (log.report d).reportAll ds := rfl

theorem reportAll_append {ds' : List Diagnostic} :
    log.reportAll (ds ++ ds') = (log.reportAll ds).reportAll ds' := List.foldl_append

theorem entries_reportAll : (log.reportAll ds).entries = log.entries ++ ds := by
  induction ds generalizing log with
  | nil => simp
  | cons d ds ih =>
    rw [reportAll_cons, ih]
    simp [report]

/-- The tally of a log is the number of its errors and warnings. -/
structure Tallied (log : Log) : Prop where
  errors : log.errorCount = log.entries.countP (·.severity = .error)
  warnings : log.warningCount = log.entries.countP (·.severity = .warning)

namespace Tallied

theorem report (h : log.Tallied) (d : Diagnostic) : (log.report d).Tallied := by
  constructor
  · rw [Log.report, List.countP_append, ← h.errors]
    cases hd : d.severity <;> simp [hd]
  · rw [Log.report, List.countP_append, ← h.warnings]
    cases hd : d.severity <;> simp [hd]

theorem reportAll (h : log.Tallied) : ∀ ds : List Diagnostic, (log.reportAll ds).Tallied := by
  intro ds
  induction ds generalizing log with
  | nil => exact h
  | cons d ds ih => exact ih (h.report d)

/-- The message of an entry does not count. -/
theorem amendLast (h : log.Tallied) (suffix : String) : (log.amendLast suffix).Tallied := by
  unfold Log.amendLast
  split
  · exact h
  · rename_i last hlast
    have hcount (severity : Severity) : log.entries.countP (·.severity = severity) =
        (log.entries.dropLast ++ [({ last with message := last.message ++ suffix } : Diagnostic)]).countP
          (·.severity = severity) := by
      conv => lhs; rw [← List.dropLast_append_getLast? last hlast]
      simp only [List.countP_append, List.countP_singleton]
    exact ⟨h.errors.trans (hcount _), h.warnings.trans (hcount _)⟩

end Tallied

end Log

namespace Session

variable {ε α β : Type}

/-- Warnings may have been reported, and the options are what they were. -/
structure Cautioned (s s' : Session) : Prop where
  options : s'.options = s.options
  log : ∃ warnings, (∀ d ∈ warnings, d.severity = .warning) ∧ s'.log = s.log.reportAll warnings

namespace Cautioned

variable {s s₁ s' : Session}

theorem of_log_eq (hoptions : s'.options = s.options) (hlog : s'.log = s.log) : Cautioned s s' :=
  ⟨hoptions, [], nofun, hlog⟩

theorem refl (s : Session) : Cautioned s s := of_log_eq rfl rfl

theorem trans (h : Cautioned s s₁) (h₁ : Cautioned s₁ s') : Cautioned s s' := by
  obtain ⟨ws, hws, hlog⟩ := h.log
  obtain ⟨ws₁, hws₁, hlog₁⟩ := h₁.log
  refine ⟨h₁.options.trans h.options, ws ++ ws₁, fun d hd => ?_, ?_⟩
  · exact (List.mem_append.1 hd).elim (hws d) (hws₁ d)
  · rw [hlog₁, hlog, Log.reportAll_append]

end Cautioned

/-- A computation reports warnings only, whether it fails or not. -/
def Warns (x : ExceptT ε (StateM Session) α) : Prop := ∀ ⦃s r s'⦄, Ends x s r s' → Cautioned s s'

namespace Warns

theorem pure (a : α) : Warns (Pure.pure a : ExceptT ε (StateM Session) α) := by
  intro s r s' h
  obtain ⟨-, rfl⟩ := Ends.pure_iff.1 h
  exact .refl _

theorem throw (e : ε) : Warns (throw e : ExceptT ε (StateM Session) α) := by
  intro s r s' h
  obtain ⟨-, rfl⟩ := Ends.throw_iff.1 h
  exact .refl _

theorem get : Warns (get : ExceptT ε (StateM Session) Session) := by
  intro s r s' h
  obtain ⟨-, rfl⟩ := Ends.get_iff.1 h
  exact .refl _

theorem bind {x : ExceptT ε (StateM Session) α} {f : α → ExceptT ε (StateM Session) β} (hx : Warns x)
    (hf : ∀ a, Warns (f a)) : Warns (x >>= f) := by
  intro s r s' h
  rcases Ends.bind_iff.1 h with ⟨a, s₁, h₁, h₂⟩ | ⟨e, -, h₁⟩
  · exact (hx h₁).trans (hf a h₂)
  · exact hx h₁

theorem ite {p : Prop} [Decidable p] {x y : ExceptT ε (StateM Session) α} (hx : Warns x) (hy : Warns y) :
    Warns (if p then x else y) := by
  split <;> assumption

/-- Two ways to get to what follows. -/
theorem either {p : Prop} [Decidable p] {x y : ExceptT ε (StateM Session) α}
    {k : α → ExceptT ε (StateM Session) β} (hx : Warns x) (hy : Warns y) (hk : ∀ a, Warns (k a)) :
    Warns (if p then x >>= k else y >>= k) :=
  .ite (.bind hx hk) (.bind hy hk)

/-- What follows something that may be left out. -/
theorem optional {p : Prop} [Decidable p] {x : ExceptT ε (StateM Session) PUnit}
    {k : PUnit → ExceptT ε (StateM Session) β} (hx : Warns x) (hk : ∀ a, Warns (k a)) :
    Warns (if p then x >>= k else k ⟨⟩) :=
  .ite (.bind hx hk) (hk _)

/-- Work on the types reports nothing. -/
theorem onTypes {x : TypeM α} : Warns (onTypes x : ExceptT ε (StateM Session) α) := by
  intro s r s' h
  obtain ⟨-, rfl⟩ := onTypes_iff.1 h
  exact .of_log_eq rfl rfl

theorem currentTypes : Warns (currentTypes : ExceptT ε (StateM Session) TypeTable) :=
  .bind .get fun _ => .pure _

theorem warn (message : String) (span : Span) :
    Warns (warn message span : ExceptT ε (StateM Session) Unit) := by
  intro s r s' h
  obtain ⟨-, rfl⟩ := Ends.modify_iff.1 h
  exact ⟨rfl, [⟨.warning, message, span⟩], by simp, rfl⟩

end Warns

end Session

namespace Typing

open Session

/-! ### Conversions -/

theorem decay_warns (e : Expr) : Warns (decay e) := by
  refine .bind .currentTypes fun t => ?_
  split
  · exact .bind .onTypes fun _ => .pure _
  · exact .bind .onTypes fun _ => .pure _
  · exact .pure _

theorem implicitCast_warns (e : Expr) (ty : TypeId) : Warns (implicitCast e ty) := by
  unfold implicitCast
  refine .bind .currentTypes fun t => .ite (.pure _) ?_
  refine .either (decay_warns e) (.pure e) fun e => .bind .onTypes fun conversion =>
    .bind .currentTypes fun t => ?_
  cases conversion with
  | none => exact .throw _
  | some conversion =>
    exact .optional (.warn _ _) fun _ => .bind .get fun _ => .optional (.warn _ _) fun _ => .pure _

theorem explicitCast_warns (e : Expr) (ty : TypeId) (span : Span) : Warns (explicitCast e ty span) := by
  refine .bind .currentTypes fun t => .either (decay_warns e) (.pure e) fun e =>
    .bind .onTypes fun conversion => .bind .currentTypes fun t => ?_
  cases conversion with
  | none => exact .throw _
  | some conversion => exact .optional (.warn _ _) fun _ => .pure _

theorem sizedTarget_warns (pointer : TypeId) (span : Span) : Warns (sizedTarget pointer span) := by
  refine .bind .currentTypes fun t => ?_
  split
  · exact .throw _
  · exact .ite (.pure _) (.throw _)

theorem offset_warns (index : Expr) : Warns (offset index) := .bind .onTypes fun _ => implicitCast_warns _ _

/-! ### Operators -/

theorem invalidOperands_warns {α : Type} (op : BinaryOp) (left right : Expr) (span : Span) :
    Warns (invalidOperands op left right span : RuleM α) :=
  .bind .currentTypes fun _ => .throw _

theorem converts_warns (src dst : TypeId) : Warns (converts src dst) := .bind .onTypes fun _ => .pure _

theorem assigned_warns (op : BinaryOp) (left right : Expr) (span : Span) : Warns (assigned op left right span) :=
  .bind .currentTypes fun _ => .either (.pure _) (converts_warns _ _) fun _ =>
    .ite (.bind (implicitCast_warns _ _) fun _ => .pure _) (invalidOperands_warns _ _ _ _)

theorem logical_warns (op : BinaryOp) (left right : Expr) (span : Span) : Warns (logical op left right span) :=
  .bind .onTypes fun _ => .bind (converts_warns _ _) fun _ => .either (converts_warns _ _) (.pure _) fun _ =>
    .ite (.bind (implicitCast_warns _ _) fun _ => .bind (implicitCast_warns _ _) fun _ => .pure _)
      (invalidOperands_warns _ _ _ _)

theorem commonType_warns (op : BinaryOp) (left right : Expr) (span : Span) :
    Warns (commonType op left right span) := by
  refine .bind .onTypes fun _ => .bind .onTypes fun _ => .bind .onTypes fun common => ?_
  cases common with
  | none => exact invalidOperands_warns _ _ _ _
  | some ty => exact .pure _

theorem arithmetic_warns (op : BinaryOp) (left right : Expr) (span : Span) :
    Warns (arithmetic op left right span) :=
  .bind (commonType_warns _ _ _ _) fun _ => .bind .currentTypes fun _ => .either .onTypes (.pure _) fun _ =>
    .bind (implicitCast_warns _ _) fun _ => .bind (implicitCast_warns _ _) fun _ => .pure _

theorem comparison_warns (op : BinaryOp) (left right : Expr) (span : Span) :
    Warns (comparison op left right span) :=
  .bind (commonType_warns _ _ _ _) fun _ => .bind (implicitCast_warns _ _) fun _ =>
    .bind (implicitCast_warns _ _) fun _ => .bind .onTypes fun _ => .pure _

theorem arithmeticRules_warns (op : BinaryOp) (left right : Expr) (span : Span) :
    Warns (arithmeticRules op left right span) := by
  refine .bind .currentTypes fun t => ?_
  cases op with
  | assign | addAssign | subAssign | mulAssign | divAssign => exact assigned_warns _ _ _ _
  | modAssign => exact .ite (invalidOperands_warns _ _ _ _) (assigned_warns _ _ _ _)
  | add | sub | mul | div => exact arithmetic_warns _ _ _ _
  | mod => exact .ite (invalidOperands_warns _ _ _ _) (arithmetic_warns _ _ _ _)
  | equal | notEqual | less | greater | lessEqual | greaterEqual => exact comparison_warns _ _ _ _
  | logicalAnd | logicalOr => exact logical_warns _ _ _ _
  | index => exact invalidOperands_warns _ _ _ _

theorem moved_warns (left right : Expr) {ty : RuleM TypeId} (hty : Warns ty) (span : Span) :
    Warns (moved left right ty span) :=
  .bind (sizedTarget_warns _ _) fun _ => .bind (offset_warns _) fun _ => .bind hty fun _ => .pure _

theorem difference_warns (left right : Expr) (span : Span) : Warns (difference left right span) := by
  refine .bind .currentTypes fun t => ?_
  have hend (compatible : Bool) : Warns (if compatible then do
      let _ ← sizedTarget left.ty span
      return ⟨left, right, ← onTypes (.signed 64)⟩
    else invalidOperands .sub left right span : RuleM Operands) :=
    .ite (.bind (sizedTarget_warns _ _) fun _ => .bind .onTypes fun _ => .pure _) (invalidOperands_warns _ _ _ _)
  simp only
  split
  · exact .bind .onTypes hend
  · exact .bind (.pure _) hend

theorem indexed_warns (left right : Expr) (span : Span) : Warns (indexed left right span) :=
  .bind .currentTypes fun _ => .optional (.throw _) fun _ => .optional (.throw _) fun _ =>
    .bind (sizedTarget_warns _ _) fun _ => .bind (offset_warns _) fun _ => .pure _

theorem pointerRules_warns (op : BinaryOp) (left right : Expr) (span : Span) :
    Warns (pointerRules op left right span) := by
  refine .bind .currentTypes fun t => ?_
  generalize (if (op == .add && !t.isPointer left.ty) = true then (right, left) else (left, right)) = p
  obtain ⟨left, right⟩ := p
  have hno {op : BinaryOp} : Warns (invalidOperands op left right span : RuleM Operands) :=
    invalidOperands_warns _ _ _ _
  cases op with
  | assign => exact assigned_warns _ _ _ _
  | addAssign | subAssign => exact .ite (moved_warns _ _ (.pure _) _) hno
  | add => exact .ite (moved_warns _ _ .onTypes _) hno
  | sub => exact .ite (moved_warns _ _ .onTypes _) (.ite (difference_warns _ _ _) hno)
  | equal | notEqual | less | greater | lessEqual | greaterEqual =>
    exact .ite (.bind .onTypes fun _ => .pure _) hno
  | logicalAnd | logicalOr => exact logical_warns _ _ _ _
  | index => exact .ite (indexed_warns _ _ _) (.throw _)
  | mul | div | mod | mulAssign | divAssign | modAssign => exact hno

theorem structRules_warns (op : BinaryOp) (left right : Expr) (span : Span) :
    Warns (structRules op left right span) :=
  .ite (assigned_warns _ _ _ _) (invalidOperands_warns _ _ _ _)

theorem sameArrayType_warns (a b : TypeId) : Warns (sameArrayType a b) := by
  refine .bind .currentTypes fun t => ?_
  split
  · exact .ite .onTypes (.pure _)
  · exact .pure _

theorem element_warns (left right : Expr) (span : Span) : Warns (element left right span) :=
  .bind .currentTypes fun _ => .optional (.throw _) fun _ => .bind (sizedTarget_warns _ _) fun _ =>
    .bind (offset_warns _) fun _ => .pure _

theorem decayed_warns (op : BinaryOp) (left right : Expr) (span : Span) : Warns (decayed op left right span) :=
  .bind (decay_warns _) fun _ => .bind (decay_warns _) fun _ => pointerRules_warns _ _ _ _

theorem arrayAssigned_warns (left right : Expr) (span : Span) : Warns (arrayAssigned left right span) :=
  .bind .currentTypes fun _ =>
    .ite (.bind (decay_warns _) fun _ => pointerRules_warns _ _ _ _) <|
    .ite (.bind (sameArrayType_warns _ _) fun _ => .ite (assigned_warns _ _ _ _) (invalidOperands_warns _ _ _ _))
      (invalidOperands_warns _ _ _ _)

theorem arrayRules_warns (op : BinaryOp) (left right : Expr) (span : Span) :
    Warns (arrayRules op left right span) :=
  .bind .currentTypes fun _ => .ite (element_warns _ _ _) <| .ite (arrayAssigned_warns _ _ _) <|
    .ite (invalidOperands_warns _ _ _ _) (decayed_warns _ _ _ _)

theorem dispatch_warns (op : BinaryOp) (left right : Expr) (span : Span) : Warns (dispatch op left right span) :=
  .bind .currentTypes fun _ => .ite (structRules_warns _ _ _ _) <| .ite (arrayRules_warns _ _ _ _) <|
    .ite (decayed_warns _ _ _ _) <| .ite (pointerRules_warns _ _ _ _) <|
    .ite (arithmeticRules_warns _ _ _ _) (invalidOperands_warns _ _ _ _)

theorem checkAssignable_warns (left : Expr) : Warns (checkAssignable left) :=
  .bind .currentTypes fun _ => .optional (.throw _) fun _ => .ite (.throw _) (.pure _)

theorem binary_warns (op : BinaryOp) (left right : Expr) (span : Span) : Warns (binary op left right span) := by
  unfold binary
  exact .optional (checkAssignable_warns _) fun _ => .bind (dispatch_warns _ _ _ _) fun _ =>
    .bind .currentTypes fun _ => .optional (.throw _) fun _ => .pure _

theorem invalidOperand_warns {α : Type} (op : UnaryOp) (child : Expr) (span : Span) :
    Warns (invalidOperand op child span : RuleM α) :=
  .bind .currentTypes fun _ => .throw _

theorem dereference_warns (child : Expr) (span : Span) : Warns (dereference child span) := by
  refine .bind .currentTypes fun _ => .either (decay_warns _) (.pure _) fun _ =>
    .bind .currentTypes fun t => .ite (invalidOperand_warns _ _ _) <| .ite (.throw _) ?_
  split
  · exact .throw _
  · exact .ite (.throw _) (.pure _)

theorem step_warns (op : UnaryOp) (child : Expr) (span : Span) : Warns (step op child span) :=
  .bind .currentTypes fun _ => .optional (.throw _) fun _ => .optional (.throw _) fun _ =>
    .ite (.bind (sizedTarget_warns _ _) fun _ => .pure _) <| .ite (.pure _) (invalidOperand_warns _ _ _)

theorem unary_warns (op : UnaryOp) (child : Expr) (span : Span) : Warns (unary op child span) := by
  cases op with
  | addressOf =>
    exact .ite (.bind .onTypes fun _ => .pure _) (.bind .currentTypes fun _ => .throw _)
  | dereference => exact dereference_warns _ _
  | preIncrement | postIncrement | preDecrement | postDecrement => exact step_warns _ _ _
  | logicalNot =>
    exact .bind .currentTypes fun _ => .ite (.pure _) <|
      .ite (.bind .onTypes fun _ => .pure _) (invalidOperand_warns _ _ _)
  | minus =>
    exact .bind .currentTypes fun _ => .ite (.bind .onTypes fun _ => .pure _) (invalidOperand_warns _ _ _)
  | cast | explicitCast => exact invalidOperand_warns _ _ _

/-! ### Calls -/

theorem convertArgs_warns : ∀ (params : List TypeId) (args : List Expr), Warns (convertArgs params args)
  | _, [] => .pure _
  | [], _ :: args => .bind .currentTypes fun _ => .either (decay_warns _) (.pure _) fun _ =>
      .bind (convertArgs_warns [] args) fun _ => .pure _
  | _ :: params, _ :: args => .bind (implicitCast_warns _ _) fun _ =>
      .bind (convertArgs_warns params args) fun _ => .pure _

theorem call_warns (callee : Expr) (args : List Expr) (span : Span) : Warns (call callee args span) := by
  refine .bind .currentTypes fun t => ?_
  simp only
  split
  · exact .ite (.throw _) <| .ite (.throw _) <| .bind (convertArgs_warns _ _) fun _ => .pure _
  · exact .throw _

end Typing

end TypedCore
