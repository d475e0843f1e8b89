import TypedCore.Proofs.Simulation.Expressions
import TypedCore.Proofs.Emitter.Function
import TypedCore.Proofs.Session.Reachable

/-!
# Conditions are decided by short-circuit evaluation

A `Condition` is built from `&&`, `||` and `!` over bool literals and calls that return a bool or an
integer. `Eval.shortCircuit` decides it from left to right and evaluates no operand that is not needed;
nothing is folded. The code that branches on a condition goes where this evaluation says and makes the
same calls, and so does the code for its value.
-/

namespace TypedCore

open Ir Machine Lowering Emitter

/-- Logical operators over bool literals and calls; operands of another type than bool are converted. -/
inductive Condition (t : TypeTable) : Expr → Prop
  | bool (b : Bool) {note : Note} (hty : t.isBool note.ty = true) :
      Condition t (.literal (.bool b) note)
  | call (callee : Expr) (args : List Expr) {note : Note} (hty : t.isIntegral note.ty = true) :
      Condition t (.call callee args note)
  | not {child : Expr} {note : Note} (h : Condition t child) (hty : note.ty = child.ty) :
      Condition t (.unary .logicalNot child note)
  | converted {child : Expr} {note : Note} (h : Condition t child) (hty : t.isBool note.ty = true) :
      Condition t (.unary .cast child note)
  | and {left right : Expr} {note : Note} (hl : Condition t left) (hr : Condition t right)
      (hty : t.isBool note.ty = true) : Condition t (.binary .logicalAnd left right note)
  | or {left right : Expr} {note : Note} (hl : Condition t left) (hr : Condition t right)
      (hty : t.isBool note.ty = true) : Condition t (.binary .logicalOr left right note)

theorem Condition.isIntegral {t : TypeTable} {e : Expr} (h : Condition t e) :
    t.isIntegral e.ty = true := by
  induction h with
  | bool b hty => exact TypeTable.isIntegral_iff.2 (.inl (TypeTable.isBool_iff.1 hty))
  | call callee args hty => exact hty
  | not _ hty ih => exact (congrArg t.isIntegral hty).trans ih
  | converted _ hty _ => exact TypeTable.isIntegral_iff.2 (.inl (TypeTable.isBool_iff.1 hty))
  | and _ _ hty _ _ => exact TypeTable.isIntegral_iff.2 (.inl (TypeTable.isBool_iff.1 hty))
  | or _ _ hty _ _ => exact TypeTable.isIntegral_iff.2 (.inl (TypeTable.isBool_iff.1 hty))

/-- Conditions as they are written; the operands of `&&` and `||` that are not bools are converted. -/
inductive Logical (t : TypeTable) : Expr → Prop
  | bool (b : Bool) (note : Note) : Logical t (.literal (.bool b) note)
  | call (callee : Expr) (args : List Expr) {note : Note} (hty : t.isIntegral note.ty = true) :
      Logical t (.call callee args note)
  | not {child : Expr} (h : Logical t child) (note : Note) : Logical t (.unary .logicalNot child note)
  | converted {child : Expr} {note : Note} (h : Logical t child) (hty : t.isBool note.ty = true) :
      Logical t (.unary .cast child note)
  | and {left right : Expr} (hl : Logical t left) (hr : Logical t right) (note : Note) :
      Logical t (.binary .logicalAnd left right note)
  | or {left right : Expr} (hl : Logical t left) (hr : Logical t right) (note : Note) :
      Logical t (.binary .logicalOr left right note)

/-- The rules see to the types of conditions. -/
theorem Logical.condition {t : TypeTable} {e : Expr} (h : Logical t e) (hc : e.Coherent t) :
    Condition t e := by
  induction h with
  | bool b note => exact .bool b hc.self.2
  | call callee args hty => exact .call callee args hty
  | not h note ih => exact .not (ih hc.2) (hc.1.2 (ih hc.2).isIntegral)
  | converted h hty ih => exact .converted (ih hc.2) hty
  | and hl hr note ihl ihr =>
    exact .and (ihl hc.2.1) (ihr hc.2.2) (TypeTable.isBool_iff.2 hc.1.2.1.2.2.shape_eq)
  | or hl hr note ihl ihr =>
    exact .or (ihl hc.2.1) (ihr hc.2.2) (TypeTable.isBool_iff.2 hc.1.2.1.2.2.shape_eq)

def Expr.isLogical (t : TypeTable) : Expr → Bool
  | .literal (.bool _) _ => true
  | .call _ _ note => t.isIntegral note.ty
  | .unary .logicalNot child _ => isLogical t child
  | .unary .cast child note => isLogical t child && t.isBool note.ty
  | .binary .logicalAnd left right _ => isLogical t left && isLogical t right
  | .binary .logicalOr left right _ => isLogical t left && isLogical t right
  | _ => false

theorem isLogical_iff {t : TypeTable} {e : Expr} : e.isLogical t = true ↔ Logical t e := by
  constructor
  · intro h
    fun_induction Expr.isLogical t e with
    | case1 b note => exact .bool b note
    | case2 callee args note => exact .call callee args h
    | case3 child note ih => exact .not (ih h) note
    | case4 child note ih =>
      obtain ⟨h, hty⟩ := Bool.and_eq_true_iff.1 h
      exact .converted (ih h) hty
    | case5 left right note ihl ihr =>
      obtain ⟨hl, hr⟩ := Bool.and_eq_true_iff.1 h
      exact .and (ihl hl) (ihr hr) note
    | case6 left right note ihl ihr =>
      obtain ⟨hl, hr⟩ := Bool.and_eq_true_iff.1 h
      exact .or (ihl hl) (ihr hr) note
    | case7 => cases h
  · intro h
    induction h with
    | bool b note => rfl
    | call callee args hty => exact hty
    | not h note ih => exact ih
    | converted h hty ih => exact Bool.and_eq_true_iff.2 ⟨ih, hty⟩
    | and hl hr note ihl ihr => exact Bool.and_eq_true_iff.2 ⟨ihl, ihr⟩
    | or hl hr note ihl ihr => exact Bool.and_eq_true_iff.2 ⟨ihl, ihr⟩

instance (t : TypeTable) (e : Expr) : Decidable (Logical t e) := decidable_of_iff _ isLogical_iff

theorem Constant.isTrue_ofBool (b : Bool) : (Constant.ofBool b).isTrue = b := by
  cases b <;> rfl

theorem TypeTable.convertConstant?_ofBool {t : TypeTable} {src dst : TypeId} (b : Bool)
    (h : t.shape dst = .bool) : t.convertConstant? src dst (.ofBool b) = some (.ofBool b) := by
  simp only [Constant.ofBool, convertConstant?, h]
  cases b <;> rfl

variable {M : Machine}

namespace Eval

variable (t : TypeTable) (env : M.Env)

/-- Whether a condition is true. A call is true if its result is not zero. -/
def shortCircuit : Expr → M.RunM Bool
  | .literal (.bool b) _ => return b
  | .call callee args note => do
    return M.isTrue (← call t (meaning t env callee) (meanings t env args) note.ty)
  | .unary .logicalNot child _ => do return !(← shortCircuit child)
  | .unary .cast child _ => shortCircuit child
  | .binary .logicalAnd left right _ => do
    if ← shortCircuit left then shortCircuit right else return false
  | .binary .logicalOr left right _ => do
    if ← shortCircuit left then return true else shortCircuit right
  | _ => failure

end Eval

variable {t : TypeTable} {env : M.Env} {e : Expr}

/-- A condition whose value is known makes no calls. -/
theorem Condition.shortCircuit_of_constant (h : Condition t e) (env : M.Env) {c : Constant}
    (hc : e.constant? t = some c) : ∃ b, c = .ofBool b ∧ Eval.shortCircuit t env e = pure b := by
  induction h generalizing c with
  | bool b hty =>
    exact ⟨b, (Option.some.inj hc).symm, rfl⟩
  | call callee args hty => cases hc
  | not _ _ ih =>
    obtain ⟨c', hc', hc⟩ := Option.bind_eq_some_iff.1 hc
    obtain ⟨b, rfl, hb⟩ := ih hc'
    refine ⟨!b, ?_, by simp [Eval.shortCircuit, hb]⟩
    rw [← Option.some.inj hc, Constant.isTrue_ofBool]
  | @converted child note _ hty ih =>
    obtain ⟨c', hc', hc⟩ := Option.bind_eq_some_iff.1 hc
    obtain ⟨b, rfl, hb⟩ := ih hc'
    refine ⟨b, ?_, hb⟩
    rw [TypeTable.unaryConstant?, TypeTable.convertConstant?_ofBool b (TypeTable.isBool_iff.1 hty)] at hc
    exact (Option.some.inj hc).symm
  | and _ _ _ ihl ihr =>
    obtain ⟨cl, hcl, hc⟩ := Option.bind_eq_some_iff.1 hc
    obtain ⟨cr, hcr, hc⟩ := Option.bind_eq_some_iff.1 hc
    obtain ⟨bl, rfl, hbl⟩ := ihl hcl
    obtain ⟨br, rfl, hbr⟩ := ihr hcr
    refine ⟨bl && br, ?_, by cases bl <;> simp [Eval.shortCircuit, hbl, hbr]⟩
    rw [← Option.some.inj hc, Constant.isTrue_ofBool, Constant.isTrue_ofBool]
  | or _ _ _ ihl ihr =>
    obtain ⟨cl, hcl, hc⟩ := Option.bind_eq_some_iff.1 hc
    obtain ⟨cr, hcr, hc⟩ := Option.bind_eq_some_iff.1 hc
    obtain ⟨bl, rfl, hbl⟩ := ihl hcl
    obtain ⟨br, rfl, hbr⟩ := ihr hcr
    refine ⟨bl || br, ?_, by cases bl <;> simp [Eval.shortCircuit, hbl, hbr]⟩
    rw [← Option.some.inj hc, Constant.isTrue_ofBool, Constant.isTrue_ofBool]

/-! ### Meanings that agree with short-circuit evaluation -/

/-- The value is an integer, and a single bit if `bit` is set. -/
def IsInteger (bit : Bool) (value : M.RunM M.Word) : Prop :=
  ∀ ⦃ω w ω'⦄, value ω = some (w, ω') →
    ∃ v, w = M.int v ∧ (bit = true → ∃ b : Bool, v = if b then 1 else 0)

/-- A meaning that decides as `decision` does, asked for its truth or for its value. -/
structure Agrees (m : M.Meaning) (decision : M.RunM Bool) (bit : Bool) : Prop where
  truth : m.truth = decision
  value : decision = do return M.isTrue (← m.value)
  integer : IsInteger bit m.value

@[simp] theorem Machine.RunM.lift_ok {α : Type} (a : α) : (RunM.lift (.ok a) : M.RunM α) = pure a := rfl

theorem RunM.pure_eq_some {α : Type} {a b : α} {ω ω' : M.World}
    (h : (pure a : M.RunM α) ω = some (b, ω')) : b = a ∧ ω' = ω := by
  cases h
  exact ⟨rfl, rfl⟩

theorem RunM.bind_eq_some_iff {α β : Type} {m : M.RunM α} {g : α → M.RunM β} {ω ω' : M.World} {b : β} :
    (m >>= g) ω = some (b, ω') ↔ ∃ a ω₁, m ω = some (a, ω₁) ∧ g a ω₁ = some (b, ω') := by
  show (m ω).bind (fun p => g p.1 p.2) = _ ↔ _
  rw [Option.bind_eq_some_iff]
  exact ⟨fun ⟨p, hp, h⟩ => ⟨p.1, p.2, hp, h⟩, fun ⟨a, ω₁, hp, h⟩ => ⟨(a, ω₁), hp, h⟩⟩

@[simp] theorem isTrue_bit (b : Bool) : M.isTrue (M.int (if b then 1 else 0)) = b := by
  rw [M.isTrue_int]
  cases b <;> rfl

theorem isInteger_bit (bit : Bool) (b : M.RunM Bool) : IsInteger bit (Eval.bit b) := by
  intro ω w ω' h
  obtain ⟨b, ω₁, -, h⟩ := RunM.bind_eq_some_iff.1 h
  obtain ⟨rfl, -⟩ := RunM.pure_eq_some h
  exact ⟨_, rfl, fun _ => ⟨b, rfl⟩⟩

theorem literal_zero (bits : Nat) : M.literal (Emit.zero (.int bits)) = M.int 0 := by
  unfold Ty.int
  split <;> rfl

theorem Ir.Ty.isFloat_int (bits : Nat) : (Ty.int bits).isFloat = false := by
  unfold Ty.int
  split <;> rfl

theorem Ir.Ty.int_ne_void (bits : Nat) : Ty.int bits ≠ .void := by
  unfold Ty.int
  split <;> exact nofun

theorem TypeTable.exists_layout {ty : TypeId} (h : t.isIntegral ty = true) :
    ∃ bits, t.layout ty = .ok (.int bits) ∧ (t.isBool ty = true → bits = 1) := by
  rcases TypeTable.isIntegral_iff.1 h with h | ⟨bits, signed, h⟩
  · exact ⟨1, TypeTable.layout_bool h, fun _ => rfl⟩
  · exact ⟨bits, TypeTable.layout_integer h, fun hb => by rw [isBool_iff, h] at hb; cases hb⟩

section Node

variable {value address : M.RunM M.Word} {truth decision : M.RunM Bool} {bit : Bool}
  {elements : Option (List (M.Word → TypeId → M.RunM Unit))}

/-- Where the value of a node is known, it is taken. -/
theorem Agrees.known {b : Bool} (hty : t.isIntegral e.ty = true)
    (hc : e.constant? t = some (.ofBool b)) :
    Agrees (Eval.node t e value address truth elements) (pure b) bit := by
  obtain ⟨bits, hir, -⟩ := TypeTable.exists_layout hty
  have hconst : constantValue t e.ty (.ofBool b) = .ok (.const (if b then 1 else 0)) := by
    simp only [constantValue, Constant.ofBool, hir]
    rfl
  simp only [Eval.node, hc, hconst]
  refine ⟨congrArg pure (Constant.isTrue_ofBool b), ?_, ?_⟩
  · simp [Machine.literal, word]
  · intro ω w ω' h
    cases h
    exact ⟨_, rfl, fun _ => ⟨b, rfl⟩⟩

theorem Agrees.node (h : Condition t e) (htruth : truth = Eval.shortCircuit t env e)
    (hvalue : Eval.shortCircuit t env e = do return M.isTrue (← value))
    (hint : IsInteger bit value) :
    Agrees (Eval.node t e value address truth elements) (Eval.shortCircuit t env e) bit := by
  cases hc : e.constant? t with
  | none =>
    simp only [Eval.node, hc]
    exact ⟨htruth, hvalue, hint⟩
  | some c =>
    obtain ⟨b, rfl, hb⟩ := h.shortCircuit_of_constant env hc
    rw [hb]
    exact .known h.isIntegral hc

theorem Agrees.node_bit (h : Condition t e) (htruth : truth = Eval.shortCircuit t env e)
    (hvalue : value = Eval.bit (Eval.shortCircuit t env e)) :
    Agrees (Eval.node t e value address truth elements) (Eval.shortCircuit t env e) bit :=
  .node h htruth (by simp [hvalue, Eval.bit]) (hvalue ▸ isInteger_bit bit _)

end Node

theorem IsInteger.bind_congr {α : Type} {bit : Bool} {value : M.RunM M.Word} {g g' : M.Word → M.RunM α}
    (hint : IsInteger bit value) (h : ∀ v, g (M.int v) = g' (M.int v)) : value >>= g = value >>= g' := by
  funext ω
  show (value ω).bind _ = (value ω).bind _
  cases hv : value ω with
  | none => rfl
  | some p =>
    obtain ⟨v, hw, -⟩ := hint hv
    show g p.1 p.2 = g' p.1 p.2
    rw [hw, h v]

/-- The test that code makes of a number. -/
theorem truth_eq {ty : TypeId} (v : Int64) (hty : t.isIntegral ty = true) (hb : ¬ t.isBool ty = true) :
    Eval.truth t (M.int v) ty = pure (M.int (if M.isTrue (M.int v) then 1 else 0)) := by
  obtain ⟨bits, hir, -⟩ := TypeTable.exists_layout hty
  simp only [Eval.truth, if_neg hb, hir, RunM.lift_ok, pure_bind, RunM.binary, Ty.isFloat_int,
    Bool.false_eq_true, if_false, literal_zero, M.ne_int, M.isTrue_int, bne_iff_ne, ne_eq, ite_not]

theorem truthOfValue_eq {ty : TypeId} {value : M.RunM M.Word} {bit : Bool}
    (hty : t.isIntegral ty = true) (hint : IsInteger bit value) :
    Eval.truthOfValue t ty value = do return M.isTrue (← value) := by
  refine hint.bind_congr fun v => ?_
  by_cases hb : t.isBool ty = true
  · simp only [Eval.truth, if_pos hb, pure_bind]
  · rw [truth_eq v hty hb, pure_bind, isTrue_bit]

/-- The code for `!` tells whether a number is zero. -/
theorem logicalNot_eq {child : Expr} {m : M.Meaning} {bit : Bool} (hty : t.isIntegral child.ty = true)
    (hint : IsInteger bit m.value) :
    Eval.logicalNot t child m child.ty = Eval.bit do return !M.isTrue (← m.value) := by
  obtain ⟨bits, hir, -⟩ := TypeTable.exists_layout hty
  simp only [Eval.bit, bind_assoc, pure_bind]
  refine hint.bind_congr fun v => ?_
  have hzero : (if v = 0 then 1 else 0 : Int64) = if (!M.isTrue (M.int v)) = true then 1 else 0 := by
    simp [M.isTrue_int]
  simp only [hir, RunM.lift_ok, pure_bind, RunM.binary, literal_zero, M.eq_int, hzero, RunM.unary,
    M.zext_bit, ite_self]

/-- A number is converted to bool by comparing it with zero; a bool stays as it is. -/
theorem cast_eq {child : Expr} {m : M.Meaning} {bit : Bool} {ty : TypeId} (hty : t.isBool ty = true)
    (hchild : t.isIntegral child.ty = true) (hint : IsInteger bit m.value) :
    Eval.cast t child m ty =
      if t.isBool child.ty then m.value else Eval.bit do return M.isTrue (← m.value) := by
  by_cases hb : t.isBool child.ty = true
  · have hshape := TypeTable.isBool_iff.1 hb
    simp [Eval.cast, hb, TypeTable.isArray, TypeTable.isFunction, TypeTable.castOp, hshape,
      TypeTable.isBool_iff.1 hty]
  · rw [if_neg hb]
    simp only [Eval.cast, hty, Bool.not_eq_true _ ▸ hb, Bool.not_false, Bool.and_true, if_true, Eval.bit,
      bind_assoc, pure_bind]
    exact hint.bind_congr fun v => truth_eq v hchild hb

theorem isInteger_call {callee : M.Meaning} {args : List M.Meaning} {ty : TypeId}
    (hty : t.isIntegral ty = true) : IsInteger (t.isBool ty) (Eval.call t callee args ty) := by
  obtain ⟨bits, hir, hbool⟩ := TypeTable.exists_layout hty
  intro ω w ω' h
  obtain ⟨f, ω₁, -, h⟩ := RunM.bind_eq_some_iff.1 h
  obtain ⟨ws, ω₂, -, h⟩ := RunM.bind_eq_some_iff.1 h
  simp only [hir, RunM.lift_ok, pure_bind, RunM.call, World.call, if_neg (Ty.int_ne_void bits)] at h
  cases h
  cases hb : t.isBool ty with
  | false =>
    obtain ⟨v, hv⟩ := M.call_int ω₂.trace ⟨f, ws⟩ bits ω₂.memory
    exact ⟨v, hv, fun h => by cases h⟩
  | true =>
    obtain rfl := hbool hb
    obtain ⟨b, hv⟩ := M.call_bit ω₂.trace ⟨f, ws⟩ ω₂.memory
    exact ⟨_, hv, fun _ => ⟨b, rfl⟩⟩

/-- Short-circuit evaluation of a condition is what its meaning says. -/
theorem Condition.agrees (h : Condition t e) (env : M.Env) :
    Agrees (Eval.meaning t env e) (Eval.shortCircuit t env e) (t.isBool e.ty) := by
  induction h with
  | bool b hty =>
    rw [Eval.meaning, Eval.ofLiteral]
    · exact .known (Condition.bool b hty).isIntegral rfl
    · nofun
  | call callee args hty =>
    rw [Eval.meaning]
    exact .node (.call callee args hty) (truthOfValue_eq hty (isInteger_call hty)) rfl
      (isInteger_call hty)
  | @not child note h hty ih =>
    have htruth : (do return !(← (Eval.meaning t env child).truth)) =
        Eval.shortCircuit t env (.unary .logicalNot child note) := by
      rw [ih.truth, Eval.shortCircuit]
    refine .node_bit (.not h hty) htruth ?_
    show (if t.isBool note.ty then _ else Eval.logicalNot t child _ note.ty) = _
    rw [htruth, hty, logicalNot_eq h.isIntegral ih.integer, ← htruth, ih.truth, ih.value]
    simp
  | @converted child note h hty ih =>
    have hc : Condition t (.unary .cast child note) := .converted h hty
    have hvalue := cast_eq hty h.isIntegral ih.integer
    rw [Eval.meaning, Eval.unary, Eval.inserted]
    by_cases hb : t.isBool child.ty = true
    · rw [if_pos hb] at hvalue
      have hint : IsInteger (t.isBool note.ty) (Eval.meaning t env child).value := by
        rw [hty, ← hb]
        exact ih.integer
      refine .node hc ?_ (hvalue ▸ ih.value) (hvalue ▸ hint)
      split
      · exact ih.truth
      · exact (truthOfValue_eq hc.isIntegral (hvalue ▸ hint)).trans (hvalue ▸ ih.value.symm)
    · rw [if_neg hb, ← ih.value] at hvalue
      refine .node_bit hc ?_ hvalue
      have hinteger := (Bool.or_eq_true_iff.1 h.isIntegral).resolve_left hb
      have htest : (t.isBool note.ty && (t.isInteger child.ty || t.isPointer child.ty)) = true := by
        rw [hty, hinteger]
        rfl
      exact (if_pos htest).trans ih.truth
  | @and left right note hl hr hty ihl ihr =>
    have htruth : Eval.conjunction (Eval.meaning t env left) (Eval.meaning t env right) =
        Eval.shortCircuit t env (.binary .logicalAnd left right note) := by
      rw [Eval.conjunction, ihl.truth, ihr.truth, Eval.shortCircuit]
    exact .node_bit (.and hl hr hty) htruth (congrArg Eval.bit htruth)
  | @or left right note hl hr hty ihl ihr =>
    have htruth : Eval.disjunction (Eval.meaning t env left) (Eval.meaning t env right) =
        Eval.shortCircuit t env (.binary .logicalOr left right note) := by
      rw [Eval.disjunction, ihl.truth, ihr.truth, Eval.shortCircuit]
    exact .node_bit (.or hl hr hty) htruth (congrArg Eval.bit htruth)

/-! ### The code of a condition -/

/-- The words in the slots of the variables. -/
def Emitter.slots (s : Emitter) (regs : M.Regs) : M.Env := fun symbol =>
  (s.locals.lookup symbol).map (word regs)

/-- Slots are numbered below the temporaries that are still free. -/
def Emitter.Slotted (s : Emitter) : Prop :=
  ∀ symbol slot, s.locals.lookup symbol = some slot → slot.Below s.temps

theorem Emitter.Slotted.sees {s : Emitter} (h : s.Slotted) (c : M.Config) :
    Sees (s.stage c) s.locals (s.slots c.regs) := by
  intro symbol slot hslot
  exact ⟨word c.regs slot, by rw [Emitter.slots, hslot]; rfl, h symbol slot hslot, rfl⟩

theorem condition_decided_by_short_circuit {session : Session} {es : List Expr}
    (hreach : session.Reachable es) (he : e ∈ es) (hcond : Logical session.types e) {s : Emitter}
    (hs : s.Drafting) (hslots : s.Slotted) {T : M.Target} {c : M.Config} (hat : s.At T c) :
    (∀ onTrue onFalse s', Ends (branchOn session.types e onTrue onFalse) s (.ok ()) s' → s'.Extends T →
      ∃ b c', Eval.shortCircuit session.types (s.slots c.regs) e c.world = some (b, c'.world) ∧
        Runs T.blocks c c' ∧ c'.label = (if b then onTrue else onFalse) ∧ c'.index = 0) ∧
    (session.types.isBool e.ty = true → ∀ v s', Ends (loadValue session.types e) s (.ok v) s' → s'.Extends T →
      ∃ b c', Eval.shortCircuit session.types (s.slots c.regs) e c.world = some (b, c'.world) ∧
        Runs T.blocks c c' ∧ s'.At T c' ∧ word c'.regs v = M.int (if b then 1 else 0)) := by
  have hc := hcond.condition (hreach.sound.2 e he)
  have hmodels := lower_models (T := T) session.types (hslots.sees c) e
  have hagrees := hc.agrees (s.slots c.regs)
  refine ⟨fun onTrue onFalse s' hx hT => ?_, fun hbool v s' hx hT => ?_⟩
  · obtain ⟨-, hrun⟩ := hmodels.branch onTrue onFalse hs rfl hx
    obtain ⟨b, c', hm, hruns, hl, hi, -⟩ := hrun hT hat le_rfl
    exact ⟨b, c', hagrees.truth ▸ hm, hruns.to_reflTransGen, hl, hi⟩
  · obtain ⟨-, hrun⟩ := hmodels.value hs rfl hx
    obtain ⟨w, c', hm, harr, hw⟩ := hrun hT hat le_rfl
    obtain ⟨v', rfl, hbit⟩ := hagrees.integer hm
    obtain ⟨b, rfl⟩ := hbit hbool
    refine ⟨b, c', ?_, harr.runs, harr.there, hw.word_eq⟩
    rw [hagrees.value, RunM.bind_eq_some hm, isTrue_bit]
    rfl

/-! ### A condition with a call in it -/

namespace Sample

open Session

/-- Words are numbers, and every other call returns zero. -/
def machine : Machine where
  Word := Int64
  Memory := Unit
  int v := v
  float _ := 0
  null := 0
  undef := 0
  global _ := 0
  function _ := 0
  aggregate _ := 0
  text _ := 0
  binary op a b _ :=
    match op with
    | .eq => if a = b then 1 else 0
    | .ne => if a = b then 0 else 1
    | _ => 0
  unary _ a _ := a
  offset a _ _ := a
  load _ _ _ := 0
  store _ _ _ _ := ()
  alloca _ _ := (0, ())
  call past _ _ _ := (if past.length % 2 = 0 then 1 else 0, ())
  isTrue w := w != 0
  isTrue_int _ := rfl
  eq_int _ _ := rfl
  ne_int _ _ := rfl
  zext_bit _ _ := rfl
  call_int _ _ _ _ := ⟨_, rfl⟩
  call_bit past _ _ := ⟨past.length % 2 = 0, by simp⟩

/-- There is a function without parameters that returns a bool. -/
def history : History := .run
  [.types [.bool, .function ⟨0⟩ [] false], .declareFunction "f" ⟨1⟩, .identifier "f", .call 0 [], .unary .logicalNot 1,
    .binary .logicalAnd 2 1]

/-- `!f() && f()` -/
def condition : Expr := history.expr 3

def types : TypeTable := history.session.types

/-- A function without parameters is under construction. -/
def generator : Emitter := (Emitter.new "m").enter "main" .void [] false

def branched : Emitter := ((branchOn types condition 100 200).run.run generator).2

def loaded : Except Fault Value × Emitter := (loadValue types condition).run.run generator

/-- Nothing more is written. -/
def target (s : Emitter) (h : (s.blocks.map (·.id)).Nodup) : machine.Target where
  blocks := s.blocks
  globals := s.module.globals
  nodup := h
  texts _ _ _ := rfl

theorem extends_target (s : Emitter) (h : (s.blocks.map (·.id)).Nodup) : s.Extends (target s h) :=
  ⟨.refl _, List.prefix_rfl⟩

/-- Control enters the function. -/
def entry : machine.Config := ⟨0, 0, 0, fun _ => machine.undef, ⟨(), []⟩⟩

theorem generator_slotted : generator.Slotted := by
  intro symbol slot h
  cases h

theorem generator_at (T : machine.Target) : generator.At T entry :=
  .inside ⟨_, rfl, rfl⟩ (List.nil_append _).symm rfl rfl

theorem branched_ends : Ends (branchOn types condition 100 200) generator (.ok ()) branched := by
  obtain ⟨_, h⟩ := Ends.of_isOk (x := branchOn types condition 100 200) (s := generator) (by decide +kernel)
  exact h

end Sample

open Sample in
/-- The condition decides where a branch goes, and what value is loaded. -/
theorem sample_condition_decided :
    history.session.Reachable history.exprs ∧ condition ∈ history.exprs ∧ Logical types condition ∧
      generator.Drafting ∧ generator.Slotted ∧
    (∃ h b c', generator.At (target branched h) entry ∧
      Eval.shortCircuit types (generator.slots entry.regs) condition entry.world = some (b, c'.world) ∧
      Runs (target branched h).blocks entry c' ∧ c'.label = (if b then 100 else 200) ∧ c'.index = 0) ∧
    ∃ h b c' v, generator.At (target loaded.2 h) entry ∧ Ends (loadValue types condition) generator (.ok v) loaded.2 ∧
      Eval.shortCircuit types (generator.slots entry.regs) condition entry.world = some (b, c'.world) ∧
      Runs (target loaded.2 h).blocks entry c' ∧ loaded.2.At (target loaded.2 h) c' ∧
      word c'.regs v = machine.int (if b then 1 else 0) := by
  have hreachable : history.session.Reachable history.exprs := Session.History.run_reachable _
  have hmem : condition ∈ history.exprs := Session.History.expr_mem (by decide +kernel)
  have hcond : Logical types condition := by decide +kernel
  have hs := enter_drafting (Emitter.new "m") "main" .void [] false
  have hbool : types.isBool condition.ty = true := by decide +kernel
  obtain ⟨v, hv⟩ := Ends.of_isOk (x := loadValue types condition) (s := generator) (by decide +kernel)
  have hbranched : (branched.blocks.map (·.id)).Nodup := by decide +kernel
  have hloaded : (loaded.2.blocks.map (·.id)).Nodup := by decide +kernel
  refine ⟨hreachable, hmem, hcond, hs, generator_slotted, ⟨hbranched, ?_⟩, hloaded, ?_⟩
  · have hat := generator_at (target branched hbranched)
    obtain ⟨b, c', hruns⟩ := (condition_decided_by_short_circuit hreachable hmem hcond hs generator_slotted hat).1
      100 200 branched branched_ends (extends_target _ _)
    exact ⟨b, c', hat, hruns⟩
  · have hat := generator_at (target loaded.2 hloaded)
    obtain ⟨b, c', hruns⟩ := (condition_decided_by_short_circuit hreachable hmem hcond hs generator_slotted hat).2
      hbool v loaded.2 hv (extends_target _ _)
    exact ⟨b, c', v, hat, hv, hruns⟩

end TypedCore
