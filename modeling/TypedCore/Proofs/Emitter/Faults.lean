import TypedCore.Lowering.Expr

/-!
# Faults

A fault is about the program, or about where the construction of a function stands. Layouts and the choice of
instructions depend on types only, and so do their faults (`BlamesType`).
-/

namespace TypedCore

open Ir Lowering

variable {α β : Type}

namespace Fault

/-- The fault is about a type. -/
def isOfType : Fault → Bool
  | .unsupportedType _ | .unboundedType _ | .unsupportedCast .. => true
  | _ => false

/-- The fault is about the program, not about where the construction of a function stands. -/
def isOfProgram : Fault → Bool
  | .builder _ | .noFunction | .nestedFunction .. => false
  | _ => true

theorem isOfProgram_of_isOfType {f : Fault} (h : f.isOfType = true) : f.isOfProgram = true := by
  cases f <;> simp_all [isOfType, isOfProgram]

end Fault

/-- If there is no result, a type is to blame. -/
def BlamesType (r : Except Fault α) : Prop := ∀ f, r = .error f → f.isOfType = true

namespace BlamesType

theorem ok (a : α) : BlamesType (.ok a) := nofun

theorem error {f : Fault} (h : f.isOfType = true) : BlamesType (.error f : Except Fault α) :=
  fun _ hf => Except.error.inj hf ▸ h

theorem bind {x : Except Fault α} {f : α → Except Fault β} (hx : BlamesType x) (hf : ∀ a, BlamesType (f a)) :
    BlamesType (x >>= f) := by
  cases x with
  | error f => exact error (hx f rfl)
  | ok a => exact hf a

theorem mapM {l : List α} {f : α → Except Fault β} (hf : ∀ a ∈ l, BlamesType (f a)) : BlamesType (l.mapM f) := by
  induction l with
  | nil => exact ok _
  | cons a l ih =>
    rw [List.mapM_cons]
    exact bind (hf a (List.mem_cons_self ..)) fun _ =>
      bind (ih fun a ha => hf a (List.mem_cons_of_mem _ ha)) fun _ => ok _

end BlamesType

/-! ### Layouts and operators -/

namespace TypeTable

variable {t : TypeTable}

theorem layoutWith_blames {struct : TypeId → StructId → Except Fault Ty}
    (hstruct : ∀ ty id, BlamesType (struct ty id)) (ty : TypeId) : BlamesType (t.layoutWith struct ty) := by
  rw [layoutWith]
  split
  all_goals try exact .ok _
  · rename_i target _
    split
    · exact .ok _
    · exact .ok _
    · exact .bind (layoutWith_blames hstruct target) fun _ => .ok _
  · rename_i element dim _
    exact .bind (layoutWith_blames hstruct element) fun _ => .ok _
  · rename_i ret params variadic _
    refine .bind (layoutWith_blames hstruct ret) fun _ => .bind (.mapM fun p _ => ?_) fun _ => .ok _
    obtain ⟨p, _⟩ := p
    exact layoutWith_blames hstruct p
  · exact hstruct ty _
  · exact .error rfl
termination_by ty.index
decreasing_by
  all_goals
    apply t.shape_part_lt
    simp_all [Shape.parts]

theorem layoutWithin_blames (depth : Nat) (ty : TypeId) : BlamesType (t.layoutWithin depth ty) := by
  induction depth generalizing ty with
  | zero =>
    refine layoutWith_blames (fun ty id => .error ?_) ty
    split
    · rfl
    · rfl
  | succ depth ih =>
    refine layoutWith_blames (fun ty id => ?_) ty
    split
    · exact .error rfl
    · exact .bind (.mapM fun m _ => ih m.ty) fun _ => .ok _

theorem layout_blames (ty : TypeId) : BlamesType (t.layout ty) := layoutWithin_blames _ ty

theorem targetLayout_blames (pointer : TypeId) : BlamesType (t.targetLayout pointer) := by
  unfold targetLayout
  split
  · exact layout_blames _
  · exact .error rfl

theorem elementType_blames (ty : TypeId) (index : Nat) : BlamesType (t.elementType ty index) := by
  unfold elementType
  split
  · exact .ok _
  · split
    · exact .ok _
    · exact .error rfl
  · exact .ok _

theorem castOp_blames (src dst : TypeId) : BlamesType (t.castOp src dst) := by
  unfold castOp
  split
  all_goals try exact .ok _
  · refine .bind (layout_blames _) fun _ => .bind (layout_blames _) fun _ => ?_
    split
    · exact .ok _
    · exact .error rfl
  · exact .error rfl

theorem arithmeticOp_blames (op : BinaryOp) (ty : TypeId) : BlamesType (t.arithmeticOp op ty) := by
  unfold arithmeticOp
  split
  all_goals first | exact .ok _ | exact .error rfl

end TypeTable

namespace Lowering

variable {t : TypeTable}

mutual

theorem constantValue_blames (ty : TypeId) : ∀ c, BlamesType (constantValue t ty c)
  | .integer value => by
    rw [constantValue]
    exact .bind (TypeTable.layout_blames _) fun _ => .ok _
  | .float value => by
    rw [constantValue]
    exact .bind (TypeTable.layout_blames _) fun _ => .ok _
  | .null => by
    rw [constantValue]
    exact .bind (TypeTable.layout_blames _) fun _ => .ok _
  | .aggregate items => by
    rw [constantValue]
    exact .bind (constantValues_blames ty 0 items) fun _ => .ok _

theorem constantValues_blames (ty : TypeId) (index : Nat) : ∀ cs, BlamesType (constantValues t ty index cs)
  | [] => by
    rw [constantValues]
    exact .ok _
  | item :: rest => by
    rw [constantValues]
    exact .bind (TypeTable.elementType_blames _ _) fun _ => .bind (constantValue_blames _ item) fun _ =>
      .bind (constantValues_blames ty (index + 1) rest) fun _ => .ok _

end

end Lowering

end TypedCore
