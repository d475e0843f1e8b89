import TypedCore.Proofs.Emitter.Writing
import TypedCore.Proofs.Folding.Kinds
import TypedCore.Proofs.Graph.Construction
import TypedCore.Proofs.Types.Containment
import TypedCore.Proofs.Types.Sizes

/-!
# Differences of pointers

The code for a difference of pointers takes the difference of the two addresses and divides it by the size of what
they refer to, unless that is one byte. The rules make sure that there is a size. It is positive but for what takes
up no room (`TypeTable.Vacant`): there the code divides by zero.
-/

namespace TypedCore

open Ir Lowering

/-! ### The rules -/

namespace Typing

open Session Expr

variable {t : TypeTable} {left right : Expr} {span : Span}

/-- A pointer on the left refers to something that has a size. -/
def Counts (r : Operands) (t : TypeTable) : Prop :=
  t.isPointer r.left.ty = true → ∃ target, Sized r.left.ty target t

theorem moved_counts {ty : RuleM TypeId} (hl : t.Has left.ty) (hty : ∀ t, Session.Keeps t ty) (hgrows : Grows ty) :
    Yields t (moved left right ty span) Counts := by
  refine .bind (sizedTarget_yields hl) (sizedTarget_grows _ _) fun target t₁ h₁ hsized => ?_
  refine .bind (offset_keeps _ _) (offset_grows _) fun _ t₂ h₂ _ => .bind (hty _) hgrows fun _ t₃ h₃ _ =>
    .pure fun t₄ h₄ _ => ?_
  exact ⟨target, hsized.mono (hl.mono h₁) ((h₂.trans h₃).trans h₄)⟩

theorem difference_counts (hl : t.Has left.ty) : Yields t (difference left right span) Counts := by
  refine .currentTypes fun t₁ h₁ => ?_
  have hend (compatible : Bool) {t₂ : TypeTable} (h₂ : t₁ ≤ t₂) : Yields t₂ (if compatible then do
      let _ ← sizedTarget left.ty span
      return ⟨left, right, ← onTypes (.signed 64)⟩
    else invalidOperands .sub left right span : RuleM Operands) Counts := by
    have hl₂ := hl.mono (h₁.trans h₂)
    refine .ite (fun _ => ?_) fun _ => invalidOperands_yields
    refine .bind (sizedTarget_yields hl₂) (sizedTarget_grows _ _) fun target t₃ h₃ hsized => ?_
    refine .bind (.onTypes (TypeM.intern_yields nofun nofun)) (onTypes_grows (TypeM.intern_grows _))
      fun _ t₄ h₄ _ => .pure fun t₅ h₅ _ => ?_
    exact ⟨target, hsized.mono (hl₂.mono h₃) (h₄.trans h₅)⟩
  simp only
  split
  · exact .bind (.onTypes (TypeM.equalsUnqualified_keeps _ _ _)) (onTypes_grows (TypeM.equalsUnqualified_grows _ _))
      fun compatible _ h₂ _ => hend compatible h₂
  · exact .after (.pure _) fun compatible _ => hend compatible

theorem pointerRules_counts (hl : t.Has left.ty) : Yields t (pointerRules .sub left right span) Counts := by
  refine .currentTypes fun t₁ h₁ => .ite (fun _ => ?_) fun _ => .ite (fun _ => ?_) fun _ => invalidOperands_yields
  · exact moved_counts (hl.mono h₁) (fun _ => .onTypes (TypeM.withConst_keeps _ _ _))
      (onTypes_grows (TypeM.withConst_grows _ _))
  · exact difference_counts (hl.mono h₁)

theorem decayed_counts (hl : left.Coherent t) : Yields t (decayed .sub left right span) Counts :=
  .bind (decay_yields hl) (decay_grows _) fun _ _ _ hleft => .bind (decay_keeps _ _) (decay_grows _)
    fun _ _ h₂ _ => pointerRules_counts (hleft.coherent.has.mono h₂)

/-- Numbers are no pointers. -/
theorem arithmetic_counts (hl : left.Coherent t) (hr : right.Coherent t)
    (hla : t.isArithmetic left.ty = true) (hra : t.isArithmetic right.ty = true) :
    Yields t (arithmetic .sub left right span) Counts := by
  have hyields : Yields t (arithmetic .sub left right span) (Accepted .mul) := arithmetic_yields rfl hl hr hla hra
  refine .imp hyields fun r t' haccepted hp => ?_
  have hrule : NumberRule t' r.left.ty r.right.ty r.ty := haccepted.rule
  obtain ⟨target, hs⟩ := TypeTable.isPointer_iff.1 hp
  have hshape := hrule.shapes.1.trans hs
  have hnumber := hrule.number
  simp [TypeTable.isInteger, TypeTable.isFloat, hshape] at hnumber

theorem dispatch_counts (hl : left.Coherent t) (hr : right.Coherent t) :
    Yields t (dispatch .sub left right span) Counts := by
  refine .currentTypes fun t₁ h₁ => ?_
  have hl₁ := hl.mono h₁
  refine .ite (fun _ => .ite (fun h => by cases h) fun _ => invalidOperands_yields) fun _ => .ite (fun _ => ?_) fun _ =>
    .ite (fun _ => decayed_counts hl₁) fun _ => .ite (fun _ => pointerRules_counts hl₁.has) fun _ =>
    .ite (fun h => ?_) fun _ => invalidOperands_yields
  · exact .currentTypes fun t₂ h₂ => decayed_counts (hl₁.mono h₂)
  · obtain ⟨hla, hra⟩ := Bool.and_eq_true_iff.1 h
    refine .currentTypes fun t₂ h₂ => ?_
    exact arithmetic_counts (hl₁.mono h₂) ((hr.mono h₁).mono h₂)
      ((hl₁.has.isArithmetic_eq h₂).trans hla) (((hr.mono h₁).has.isArithmetic_eq h₂).trans hra)

theorem binary_counts (hl : left.Coherent t) (hr : right.Coherent t) :
    Yields t (binary .sub left right span) Counts := by
  refine .bind (.and (dispatch_yields hl hr nofun) (dispatch_counts hl hr)) (dispatch_grows _ _ _ _)
    fun r t₁ h₁ hr => .currentTypes fun t₂ h₂ => .guard fun _ => .pure fun t₃ h₃ hp => ?_
  have hle := h₂.trans h₃
  rw [hr.1.left.has.isPointer_eq hle] at hp
  obtain ⟨target, hsized⟩ := hr.2 hp
  exact ⟨target, hsized.mono hr.1.left.has hle⟩

/-- The types after two pointees have been compared and the type of the count been looked up. -/
def counting (a b : TypeId) (t : TypeTable) : TypeId × TypeTable := TypeM.signed 64 (TypeM.equalsUnqualified a b t).2

/-- Pointers to one type, apart from const, are subtracted if it has a size. -/
theorem binary_difference {s : Session} {a b : TypeId} (hl : s.types.shape left.ty = .pointer (some a))
    (hr : s.types.shape right.ty = .pointer (some b)) (hab : (TypeM.equalsUnqualified a b s.types).1 = true)
    (hsize : s.types.hasSize a = true) :
    Ends (Node.binary .sub left right span) s (.ok (.binary .sub left right ⟨(counting a b s.types).1, span⟩))
      { s with types := (counting a b s.types).2 } := by
  have hle : s.types ≤ (TypeM.equalsUnqualified a b s.types).2 := (TypeM.equalsUnqualified_grows a b s.types).le
  generalize hrun : TypeM.equalsUnqualified a b s.types = compared at hab hle
  obtain ⟨same, t⟩ := compared
  obtain rfl : same = true := hab
  have hhas : s.types.Has left.ty := TypeTable.has_of_shape (by simp [hl])
  have htarget : t.target? left.ty = some a := by rw [TypeTable.target?, hhas.shape_eq hle, hl]
  have hsized : Ends (sizedTarget left.ty span) { s with types := t } (.ok a) { s with types := t } := by
    unfold sizedTarget
    rw [currentTypes_bind_iff]
    simp only [htarget, TypeTable.hasSize_of_le hle hsize, if_true]
    exact Ends.pure_iff.2 ⟨rfl, rfl⟩
  have hcount : counting a b s.types = TypeM.signed 64 t := by rw [counting, hrun]
  rw [hcount]
  have hdifference : Ends (difference left right span) s (.ok ⟨left, right, (TypeM.signed 64 t).1⟩)
      { s with types := (TypeM.signed 64 t).2 } := by
    unfold difference
    rw [currentTypes_bind_iff]
    simp only [TypeTable.target?, hl, hr]
    refine Ends.bind_ok_iff.2 ⟨true, { s with types := t }, onTypes_iff.2 (by rw [hrun]; exact ⟨rfl, rfl⟩), ?_⟩
    rw [if_pos rfl]
    refine Ends.bind_ok_iff.2 ⟨a, { s with types := t }, hsized, ?_⟩
    exact Ends.bind_ok_iff.2 ⟨_, _, onTypes_iff.2 ⟨rfl, rfl⟩, Ends.pure_iff.2 ⟨rfl, rfl⟩⟩
  refine Ends.bind_ok_iff.2 ⟨⟨left, right, (TypeM.signed 64 t).1⟩, _, check_ok_iff.2 ?_, Ends.pure_iff.2 ⟨rfl, rfl⟩⟩
  refine Ends.bind_ok_iff.2 ⟨⟨left, right, (TypeM.signed 64 t).1⟩, _, ?_, Ends.pure_iff.2 ⟨rfl, rfl⟩⟩
  unfold dispatch
  rw [currentTypes_bind_iff]
  simp only [TypeTable.isStruct, TypeTable.isArray, TypeTable.isFunction, TypeTable.isPointer, hl, hr, Bool.or_self,
    Bool.false_eq_true, if_false, if_true]
  unfold pointerRules
  rw [currentTypes_bind_iff]
  simpa [TypeTable.isPointer, TypeTable.isInteger, hl, hr] using hdifference

end Typing

/-! ### The code -/

namespace Emitter

/-- Instructions are added one after the other, each of them with a result. -/
structure Computes (s : Emitter) (I : List Instr) (s' : Emitter) : Prop where
  writes : s.Writes I s'
  steady : s'.Steady
  temps_eq : s'.temps = s.temps + I.length

theorem Computes.trans {s s₁ s' : Emitter} {I J : List Instr} (h : s.Computes I s₁) (h' : s₁.Computes J s') :
    s.Computes (I ++ J) s' := by
  refine ⟨h.writes.trans h'.writes, h'.steady, ?_⟩
  rw [h'.temps_eq, h.temps_eq, List.length_append, Nat.add_assoc]

theorem Computes.nil {s : Emitter} (hs : s.Steady) (hd : s.Drafting) : s.Computes [] s := ⟨.refl hd, hs, rfl⟩

end Emitter

namespace Emit

open Emitter

variable {s : Emitter}

/-- Where there is a function, an instruction with a result is added to it. -/
theorem temp_computes {i : TempId → Instr} (hi : ∀ k, (i k).isTerminator = false) (hs : s.Steady)
    (hc : s.current.isSome) :
    ∃ s', Ends (openBlock >>= fun _ => return .temp (← build (.emitTemp i))) s (.ok (Value.temp s.temps)) s' ∧
      s.Computes [i s.temps] s' := by
  obtain ⟨r, s', h⟩ := Ends.exists_of_run (openBlock >>= fun _ => build (.emitTemp i)) s
  obtain ⟨hm, hfault, -⟩ := Safe.inside (P := fun _ => False) (Inside.emitTemp hi) hs (.nil s) h
  cases r with
  | error f =>
    have hsteps : s.Steps s' := Grows.bind .openBlock (fun _ => .emitTemp i) h
    obtain h | ⟨-, h⟩ := hfault f rfl
    · exact h.elim
    · simp [← hsteps.functions.2, h] at hc
  | ok k =>
    obtain ⟨rfl, hwrites, htemps⟩ := temp_writes (hs.drafting hc) h
    obtain ⟨_, s₁, h₁, h₂⟩ := Ends.bind_ok_iff.1 h
    refine ⟨s', ?_, hwrites, hm.steady, htemps⟩
    exact Ends.bind_ok_iff.2 ⟨(), s₁, h₁, Ends.bind_ok_iff.2 ⟨_, s', h₂, Ends.pure_iff.2 ⟨rfl, rfl⟩⟩⟩

/-- The code for the number of elements of `size` bytes between two addresses. -/
def differenceCode (k : TempId) (a b : Value) (size : Nat) : List Instr :=
  [.unary k .ptrToInt a .i64, .unary (k + 1) .ptrToInt b .i64, .binary (k + 2) .sub (.temp k) (.temp (k + 1)) .i64] ++
    if size = 1 then [] else [.binary (k + 3) .sdiv (.temp (k + 2)) (.const (Int64.ofNat size)) .i64]

/-- The result of the last instruction of it. -/
def differenceResult (k : TempId) (size : Nat) : Value := .temp (if size = 1 then k + 2 else k + 3)

theorem addressDifference_computes {ir : Ty} {size : Nat} {a b : Value} (hsize : ir.size? = some size) (hs : s.Steady)
    (hc : s.current.isSome) :
    ∃ s', Ends (addressDifference a b ir) s (.ok (differenceResult s.temps size)) s' ∧
      s.Computes (differenceCode s.temps a b size) s' := by
  obtain ⟨s₁, h₁, hw₁⟩ := temp_computes (i := fun k => .unary k .ptrToInt a .i64) (fun _ => rfl) hs hc
  obtain ⟨s₂, h₂, hw₂⟩ := temp_computes (i := fun k => .unary k .ptrToInt b .i64) (fun _ => rfl) hw₁.steady
    hw₁.writes.drafting.head
  obtain ⟨s₃, h₃, hw₃⟩ := temp_computes (i := fun k => .binary k .sub (.temp s.temps) (.temp s₁.temps) .i64)
    (fun _ => rfl) hw₂.steady hw₂.writes.drafting.head
  have htemps₂ : s₂.temps = s.temps + 2 := by rw [hw₂.temps_eq, hw₁.temps_eq]; rfl
  have htemps₃ : s₃.temps = s.temps + 3 := by rw [hw₃.temps_eq, htemps₂]; rfl
  have hdivided : ∃ s', Ends (if size = 1 then pure (.temp s₂.temps)
      else arith .sdiv (.temp s₂.temps) (.const (Int64.ofNat size)) .i64) s₃ (.ok (differenceResult s.temps size)) s' ∧
      s₃.Computes (if size = 1 then [] else [.binary s₃.temps .sdiv (.temp s₂.temps) (.const (Int64.ofNat size)) .i64])
        s' := by
    rw [differenceResult, ← htemps₂, ← htemps₃]
    split
    · exact ⟨s₃, Ends.pure_iff.2 ⟨rfl, rfl⟩, .nil hw₃.steady hw₃.writes.drafting⟩
    · obtain ⟨s₄, h₄, hw₄⟩ := temp_computes
        (i := fun k => .binary k .sdiv (.temp s₂.temps) (.const (Int64.ofNat size)) .i64) (fun _ => rfl) hw₃.steady
        hw₃.writes.drafting.head
      exact ⟨s₄, h₄, hw₄⟩
  obtain ⟨s', h₄, hw₄⟩ := hdivided
  refine ⟨s', ?_, ?_⟩
  · unfold addressDifference
    simp only [hsize]
    exact Ends.bind_ok_iff.2 ⟨_, s₁, h₁, Ends.bind_ok_iff.2 ⟨_, s₂, h₂, Ends.bind_ok_iff.2 ⟨_, s₃, h₃, h₄⟩⟩⟩
  · have hw := ((hw₁.trans hw₂).trans hw₃).trans hw₄
    simpa only [differenceCode, hw₁.temps_eq, htemps₂, htemps₃, List.length_singleton, List.singleton_append,
      List.cons_append, List.nil_append] using hw

end Emit

/-! ### Expressions -/

/-- Pointers are not subtracted before the program runs. -/
theorem Expr.constant?_difference {t : TypeTable} {left right : Expr} {note : Note} (hl : left.Elaborated t)
    (hp : t.isPointer left.ty = true) : (Expr.binary .sub left right note).constant? t = none := by
  rw [Expr.constant?, if_neg (by decide)]
  cases hc : left.constant? t with
  | none => rfl
  | some a =>
    cases right.constant? t with
    | none => rfl
    | some b => obtain rfl | ⟨items, rfl⟩ := Expr.null_or_aggregate hl hp hc <;> rfl

namespace Lowering

/-- A value that is computed leaves the function as steady as it was. -/
theorem loadValue_steady {t : TypeTable} {e : Expr} {m m' : Emitter} {v : Value} (hm : m.Steady)
    (hc : m.current.isSome) (h : Ends (loadValue t e) m (.ok v) m') : m'.Steady ∧ m'.current.isSome := by
  have hemits := (lower_structured t e).value
  have hsteps : m.Steps m' := hemits.grows h
  exact ⟨(hemits.safe hm (.nil m) h).1.steady, by rwa [hsteps.functions.2]⟩

/-- The code for a difference is that for the two pointers, and that for the elements between them. -/
theorem loadValue_difference {t : TypeTable} {left right : Expr} {note : Note} {target : TypeId} {ir : Ty} {size : Nat}
    (hconst : (Expr.binary .sub left right note).constant? t = none) (hl : t.isPointer left.ty = true)
    (hr : t.isPointer right.ty = true) (htarget : t.target? left.ty = some target) (hir : t.layout target = .ok ir)
    (hsize : ir.size? = some size) {m m₁ m₂ : Emitter} {l r : Value} (hm : m.Steady) (hc : m.current.isSome)
    (h₁ : Ends (loadValue t left) m (.ok l) m₁) (h₂ : Ends (loadValue t right) m₁ (.ok r) m₂) :
    ∃ m', Ends (loadValue t (.binary .sub left right note)) m (.ok (Emit.differenceResult m₂.temps size)) m' ∧
      m₂.Computes (Emit.differenceCode m₂.temps l r size) m' := by
  obtain ⟨hm₁, hc₁⟩ := loadValue_steady hm hc h₁
  obtain ⟨hm₂, hc₂⟩ := loadValue_steady hm₁ hc₁ h₂
  obtain ⟨m', hdiff, hcomputes⟩ := Emit.addressDifference_computes (a := l) (b := r) hsize hm₂ hc₂
  refine ⟨m', ?_, hcomputes⟩
  have hvalue : loadValue t (.binary .sub left right note) = (do
      let l ← loadValue t left
      let r ← loadValue t right
      arithmeticValue t .sub left.ty l right.ty r note.ty) := by
    simp only [loadValue, lower, binaryCode, Code.ofValue, Code.ofNode, hconst]
    rfl
  rw [hvalue]
  refine Ends.bind_ok_iff.2 ⟨l, m₁, h₁, Ends.bind_ok_iff.2 ⟨r, m₂, h₂, ?_⟩⟩
  unfold arithmeticValue
  rw [if_pos hl]
  refine Ends.bind_ok_iff.2 ⟨ir, m₂, Ends.lift_iff.2 ⟨?_, rfl⟩, ?_⟩
  · rw [TypeTable.targetLayout, htarget]
    exact hir.symm
  · rwa [if_pos hr]

end Lowering

/-- The code for a difference of pointers divides by the size of what they refer to. Whatever both pointers of a
difference that the rules accept refer to has a size; it is the constant that the difference of the two addresses is
divided by, unless it is 1, and the value of the expression is the result of that. The size is zero for what takes up no
room, and for nothing else. -/
theorem difference_divides_by_size {s s' : Session} {es : List Expr} (h : s.Reachable es) {p q left right : Expr}
    {note : Note} {span : Span} (hp : p ∈ es) (hq : q ∈ es)
    (he : Ends (Node.binary .sub p q span) s (.ok (.binary .sub left right note)) s')
    (hl : s'.types.isPointer left.ty = true) (hr : s'.types.isPointer right.ty = true) {t : TypeTable}
    (ht : s'.types ≤ t) :
    ∃ target, t.target? left.ty = some target ∧ t.hasSize target = true ∧
      ∀ ir, t.layout target = .ok ir → ∃ size, ir.size? = some size ∧ (size = 0 ↔ t.Vacant target) ∧
        (size < 2 ^ 63 → (Int64.ofNat size).toInt = size) ∧
        ∀ m m₁ m₂ l r, m.Steady → m.current.isSome → Ends (loadValue t left) m (.ok l) m₁ →
          Ends (loadValue t right) m₁ (.ok r) m₂ →
          ∃ m', Ends (loadValue t (.binary .sub left right note)) m (.ok (Emit.differenceResult m₂.temps size)) m' ∧
            m₂.Writes (Emit.differenceCode m₂.temps l r size) m' := by
  have hpel := h.elaborated p hp
  have hqel := h.elaborated q hq
  have hcan := h.sound.1.canonical
  have hnode := (Node.binary_elaborated hpel hqel).result le_rfl hcan he
  have hleft : left.Elaborated s'.types := ⟨hnode.coherent.2.1, hnode.formed.2.1⟩
  have hright : right.Elaborated s'.types := ⟨hnode.coherent.2.2, hnode.formed.2.2⟩
  obtain ⟨sizeBits, hsteps⟩ := h.steps
  have hgrown : s.types ≤ s'.types := (Session.Constructs.binary (t := s.types) .sub hp hq span).grows he |>.le
  have hroomy : t.Roomy := TypeTable.roomy_of_steps ((hsteps.trans hgrown).trans ht)
  obtain ⟨operands, s₁, hrules, hpure⟩ := Ends.bind_ok_iff.1 he
  obtain ⟨heq, rfl⟩ := Ends.pure_iff.1 hpure
  cases heq
  obtain ⟨target, hsized⟩ :=
    (Typing.binary_counts hpel.coherent hqel.coherent).result le_rfl hcan (Session.check_ok_iff.1 hrules) hl
  have hsized := hsized.mono hleft.has ht
  have hpl := (hleft.has.isPointer_eq ht).trans hl
  have hpr := (hright.has.isPointer_eq ht).trans hr
  refine ⟨target, hsized.target?_eq, hsized.hasSize, fun ir hir => ?_⟩
  obtain ⟨size, hsize, hzero⟩ := TypeTable.size?_layout hroomy hsized.hasSize hir
  refine ⟨size, hsize, hzero, Int64.toInt_ofNat_of_lt, fun m m₁ m₂ l r hm hc h₁ h₂ => ?_⟩
  obtain ⟨m', hends, hcomputes⟩ := loadValue_difference (Expr.constant?_difference (hleft.mono ht) hpl) hpl hpr
    hsized.target?_eq hir hsize hm hc h₁ h₂
  exact ⟨m', hends, hcomputes.writes⟩

namespace Distance

open Session

/-- There are a pointer to an empty struct, a pointer to a number of 16 bits, and the type of a function of both. -/
def history : History := .run
  [.types [.incompleteStruct "E", .pointer ⟨0⟩, .integer 16 true, .pointer ⟨2⟩, .integer 64 true,
      .function ⟨4⟩ [⟨1⟩, ⟨3⟩] false],
    .completeStruct ⟨0⟩ [], .declareParameter "e" ⟨1⟩, .declareParameter "p" ⟨3⟩, .identifier "e", .identifier "p"]

def empty : TypeId := ⟨0⟩

def short : TypeId := ⟨2⟩

def e : Expr := history.expr 0

def p : Expr := history.expr 1

theorem e_mem : e ∈ history.exprs := History.expr_mem (by decide +kernel)

theorem p_mem : p ∈ history.exprs := History.expr_mem (by decide +kernel)

/-- The difference of a pointer to `target` and itself. -/
def difference (x : Expr) (target : TypeId) : Expr :=
  .binary .sub x x ⟨(Typing.counting target target history.session.types).1, default⟩

def later (target : TypeId) : Session :=
  { history.session with types := (Typing.counting target target history.session.types).2 }

/-- The table with which code is generated for a difference. -/
def table (target : TypeId) : TypeTable := (later target).types

/-- In a function with both pointers as parameters. -/
def begun (t : TypeTable) : Emitter := ((functionBegin t "f" ⟨5⟩ [(0, "e"), (1, "p")]).run.run (Emitter.new "m")).2

theorem begun_steady (t : TypeTable) : (begun t).Steady :=
  KeepsAt.steady (Request.safe (.start t "f" ⟨5⟩ _) _) (Emitter.new_steady "m") (.nil _) rfl

def loaded₁ (x : Expr) (target : TypeId) : Emitter := ((loadValue (table target) x).run.run (begun (table target))).2

/-- Both operands are there. -/
def loaded₂ (x : Expr) (target : TypeId) : Emitter := ((loadValue (table target) x).run.run (loaded₁ x target)).2

end Distance

open Distance Session in
/-- The difference of two pointers to numbers of 16 bits is divided by 2. -/
theorem shorts_difference_halved :
    (history.session.Reachable history.exprs ∧ p ∈ history.exprs ∧
      Ends (Node.binary .sub p p default) history.session (.ok (difference p short)) (later short) ∧
      (later short).types.isPointer p.ty = true ∧ (begun (table short)).Steady ∧
      (begun (table short)).current.isSome) ∧
    ∃ l r m', Ends (loadValue (table short) (difference p short)) (begun (table short))
        (.ok (.temp ((loaded₂ p short).temps + 3))) m' ∧
      (loaded₂ p short).Writes (Emit.differenceCode (loaded₂ p short).temps l r 2) m' := by
  have hreachable : history.session.Reachable history.exprs := History.run_reachable _
  have hends : Ends (Node.binary .sub p p default) history.session (.ok (difference p short)) (later short) :=
    Typing.binary_difference (a := short) (b := short) (by decide +kernel) (by decide +kernel) (by decide +kernel)
      (by decide +kernel)
  have hp : (later short).types.isPointer p.ty = true := by decide +kernel
  have hc : (begun (table short)).current.isSome := by decide +kernel
  obtain ⟨l, h₁⟩ := Ends.of_isOk (x := loadValue (table short) p) (s := begun (table short)) (by decide +kernel)
  obtain ⟨r, h₂⟩ := Ends.of_isOk (x := loadValue (table short) p) (s := loaded₁ p short) (by decide +kernel)
  obtain ⟨target, htarget, -, hsizes⟩ := difference_divides_by_size hreachable p_mem p_mem hends hp hp le_rfl
  obtain rfl : target = short := Option.some.inj (htarget.symm.trans (by decide +kernel))
  obtain ⟨size, hsize, -, -, hcode⟩ := hsizes .i16 (by decide +kernel)
  obtain rfl : size = 2 := Option.some.inj hsize.symm
  obtain ⟨m', hload, hwrites⟩ := hcode _ _ _ l r (begun_steady _) hc h₁ h₂
  exact ⟨⟨hreachable, p_mem, hends, hp, begun_steady _, hc⟩, l, r, m', hload, hwrites⟩

open Distance Session in
/-- The difference of two pointers to an empty struct is divided by zero. -/
theorem empty_difference_divides_by_zero :
    history.session.Reachable history.exprs ∧ e ∈ history.exprs ∧
    Ends (Node.binary .sub e e default) history.session (.ok (difference e empty)) (later empty) ∧
    ∃ m' k a, Ends (loadValue (table empty) (difference e empty)) (begun (table empty)) (.ok (.temp k)) m' ∧
      .binary k .sdiv a (.const 0) .i64 ∈ instrsOf m'.blocks := by
  have hends : Ends (Node.binary .sub e e default) history.session (.ok (difference e empty)) (later empty) :=
    Typing.binary_difference (a := empty) (b := empty) (by decide +kernel) (by decide +kernel) (by decide +kernel)
      (by decide +kernel)
  have hp : (table empty).isPointer e.ty = true := by decide +kernel
  obtain ⟨l, h₁⟩ := Ends.of_isOk (x := loadValue (table empty) e) (s := begun (table empty)) (by decide +kernel)
  obtain ⟨r, h₂⟩ := Ends.of_isOk (x := loadValue (table empty) e) (s := loaded₁ e empty) (by decide +kernel)
  have hconst : (difference e empty).constant? (table empty) = none :=
    Option.isNone_iff_eq_none.1 (by decide +kernel)
  have hlayout : (table empty).layout empty = .ok (.struct (some "E.0") []) := by decide +kernel
  have htarget : (table empty).target? e.ty = some empty := by decide +kernel
  obtain ⟨m', hload, hcomputes⟩ := loadValue_difference hconst hp hp htarget hlayout rfl (begun_steady _)
    (by decide +kernel) h₁ h₂
  refine ⟨History.run_reachable _, e_mem, hends, m', (loaded₂ e empty).temps + 3,
    .temp ((loaded₂ e empty).temps + 2), hload, ?_⟩
  rw [hcomputes.writes.instrs_eq]
  exact List.mem_append_right _ (by simp [Emit.differenceCode, loaded₂])

end TypedCore
