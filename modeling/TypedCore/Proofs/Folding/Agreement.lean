import TypedCore.Proofs.Folding.Bits
import TypedCore.Proofs.Session.Reachable

/-!
# Folding agrees with the code

`Expr.bits` evaluates an expression over bools and integers on words, with the instructions that code
for it would use and with nothing folded. A known value is the number that the word of this evaluation
stands for, and an operation on known values is known. For this the rules for the types of operands are
needed: they see to it that both words of an instruction have the width that the instruction works on.
-/

namespace TypedCore

open Ir

/-! ### Formats -/

/-- The width of a bool or an integer, and whether it has a sign. -/
structure Format where
  width : Nat
  signed : Bool
deriving DecidableEq

def Shape.format? : Shape → Option Format
  | .bool => some ⟨1, false⟩
  | .integer bits signed => if bits ∈ [8, 16, 32, 64] then some ⟨bits, signed⟩ else none
  | _ => none

namespace TypeTable

def format? (t : TypeTable) (ty : TypeId) : Option Format := (t.shape ty).format?

variable {t : TypeTable} {ty : TypeId} {f : Format}

theorem format?_eq_some (h : t.format? ty = some f) :
    (t.shape ty = .bool ∧ f = ⟨1, false⟩) ∨
      (t.shape ty = .integer f.width f.signed ∧ f.width ∈ [8, 16, 32, 64]) := by
  unfold format? Shape.format? at h
  split at h
  · rename_i hshape
    exact .inl ⟨hshape, (Option.some.inj h).symm⟩
  · rename_i bits signed hshape
    split at h
    · rename_i hbits
      cases h
      exact .inr ⟨hshape, hbits⟩
    · cases h
  · cases h

theorem width_le (h : t.format? ty = some f) : f.width ≤ 64 := by
  obtain ⟨-, rfl⟩ | ⟨-, hw⟩ := format?_eq_some h
  · decide
  · simp only [List.mem_cons, List.not_mem_nil, or_false] at hw
    omega

/-- The type of words in the format. -/
theorem layout_of_format (h : t.format? ty = some f) :
    ∃ ir, t.layout ty = .ok ir ∧ ir.width? = some f.width ∧ (ir = .i1 ↔ t.shape ty = .bool) := by
  obtain ⟨hshape, rfl⟩ | ⟨hshape, hw⟩ := format?_eq_some h
  · exact ⟨.i1, layout_bool hshape, rfl, iff_of_true rfl hshape⟩
  · refine ⟨_, layout_integer hshape, ?_⟩
    rw [hshape]
    simp only [List.mem_cons, List.not_mem_nil, or_false] at hw
    obtain hw | hw | hw | hw := hw <;> rw [hw] <;> exact ⟨rfl, iff_of_false nofun nofun⟩

theorem isIntegral_of_format (h : t.format? ty = some f) : t.isIntegral ty = true :=
  isIntegral_iff.2 ((format?_eq_some h).imp And.left fun h => ⟨_, _, h.1⟩)

theorem isArithmetic_of_format (h : t.format? ty = some f) : t.isArithmetic ty = true :=
  Bool.or_eq_true_iff.2 (.inl (isIntegral_of_format h))

end TypeTable

/-! ### Evaluation on words -/

namespace Bits

variable (t : TypeTable)

def minus (ty : TypeId) (a : Bits) : Option Bits := do
  UnOp.neg.bits a (← (t.layout ty).toOption)

/-- A test for zero, widened to the type of the result. -/
def logicalNot (ty : TypeId) (a : Bits) : Option Bits := do
  let isZero ← BinOp.eq.bits a (zero a.width)
  let out ← (t.layout ty).toOption
  if out = .i1 then some isZero else UnOp.zext.bits isZero out

/-- A conversion to bool is a test. -/
def cast (src dst : TypeId) (a : Bits) : Option Bits := do
  if t.isBool dst && !t.isBool src then
    BinOp.ne.bits a (zero a.width)
  else
    match ← (t.castOp src dst).toOption with
    | some op => op.bits a (← (t.layout dst).toOption)
    | none => some a

def unary (op : UnaryOp) (src dst : TypeId) (a : Bits) : Option Bits :=
  match op with
  | .cast | .explicitCast => cast t src dst a
  | .minus => minus t dst a
  | .logicalNot => logicalNot t dst a
  | _ => none

/-- Arithmetic is chosen by the type of the result, a comparison by that of the left operand. -/
def binary (op : BinaryOp) (left ty : TypeId) (a b : Bits) : Option Bits := do
  if op.isComparison then (← t.comparisonOp? op left).bits a b
  else (← (t.arithmeticOp op ty).toOption).bits a b

end Bits

/-- The word of an expression. -/
def Expr.bits (t : TypeTable) : Expr → Option Bits
  | literal (.integer v) note => do
    let w ← (← (t.layout note.ty).toOption).width?
    some ⟨w, v.toBitVec.setWidth w⟩
  | literal (.bool b) _ => some (.ofBool b)
  | identifier _ _ _ (some value) _ => bits t value
  | proxy target _ => bits t target
  | unary op child note => do Bits.unary t op child.ty note.ty (← bits t child)
  | binary op left right note => do
    let a ← bits t left
    match op with
    | .logicalAnd => if a.isTrue then return .ofBool (← bits t right).isTrue else some (.ofBool false)
    | .logicalOr => if a.isTrue then some (.ofBool true) else return .ofBool (← bits t right).isTrue
    | op => Bits.binary t op left.ty note.ty a (← bits t right)
  | conditional cond thenExpr elseExpr _ => do
    if (← bits t cond).isTrue then bits t thenExpr else bits t elseExpr
  | _ => none

/-- No literal that is not a number, and no braces. -/
def Expr.isNumber : Expr → Bool
  | literal (.integer _) _ | literal (.bool _) _ => true
  | literal _ _ | aggregate _ _ => false
  | _ => true

/-- Numbers only: every node is a number that has a format. -/
def Expr.Numeric (t : TypeTable) (e : Expr) : Prop :=
  e.All fun n => (t.format? n.ty).isSome ∧ n.isNumber = true

instance (t : TypeTable) (e : Expr) : Decidable (e.Numeric t) := inferInstanceAs (Decidable (e.All _))

/-! ### Constants and words -/

/-- The constant is the number that the word stands for in the format of the type. -/
def Encodes (t : TypeTable) (ty : TypeId) (c : Constant) (a : Bits) : Prop :=
  ∃ f, t.format? ty = some f ∧ ∃ x : BitVec f.width, a = ⟨f.width, x⟩ ∧
    c = .integer (extend f.signed x)

/-- Both ways have a result, and the same. -/
def Folds (t : TypeTable) (ty : TypeId) (folded : Option Constant) (computed : Option Bits) : Prop :=
  ∃ c a, folded = some c ∧ computed = some a ∧ Encodes t ty c a

variable {t : TypeTable} {ty src dst : TypeId} {c c' : Constant} {a a' : Bits} {f : Format}

theorem Encodes.congr (h : Encodes t src c a) (hshape : t.shape dst = t.shape src) :
    Encodes t dst c a := by
  unfold Encodes TypeTable.format? at *
  rwa [hshape]

theorem Encodes.isTrue_eq (h : Encodes t ty c a) : c.isTrue = a.isTrue := by
  obtain ⟨f, hf, x, rfl, rfl⟩ := h
  exact extend_ne_zero (TypeTable.width_le hf)

theorem encodes_bool (b : Bool) (h : t.shape ty = .bool) : Encodes t ty (.ofBool b) (.ofBool b) := by
  refine ⟨⟨1, false⟩, ?_, BitVec.ofBool b, rfl, ?_⟩
  · rw [TypeTable.format?, h]
    rfl
  · rw [extend_ofBool]
    rfl

/-- The result of a computation in 64 bits, as an integer constant. -/
theorem encodes_low (hf : t.format? ty = some f) (hshape : t.shape ty = .integer f.width f.signed)
    (v : Int64) {x : BitVec f.width} (h : v.toBitVec.setWidth f.width = x) :
    Folds t ty (t.integerConstant? ty v) (some ⟨f.width, x⟩) := by
  refine ⟨_, _, ?_, rfl, f, hf, x, rfl, rfl⟩
  rw [TypeTable.integerConstant?, hshape, ← h]
  exact congrArg (fun v => some (Constant.integer v)) (wrap_eq_extend (TypeTable.width_le hf) v _)

/-! ### Operations on one word -/

theorem minus_folds (h : Encodes t src c a) (hshape : t.shape ty = t.shape src) :
    Folds t ty (t.negateConstant? ty c) (Bits.minus t ty a) := by
  obtain ⟨f, hf, x, rfl, rfl⟩ := h.congr hshape
  obtain ⟨ir, hir, hwidth, -⟩ := TypeTable.layout_of_format hf
  have hminus : Bits.minus t ty ⟨f.width, x⟩ = some ⟨f.width, -x⟩ := by
    simp [Bits.minus, hir, Except.toOption, UnOp.bits, hwidth]
  rw [hminus]
  obtain ⟨hs, rfl⟩ | ⟨hs, -⟩ := TypeTable.format?_eq_some hf
  · refine ⟨_, _, ?_, rfl, ⟨1, false⟩, hf, -x, rfl, rfl⟩
    rw [TypeTable.negateConstant?, TypeTable.integerConstant?, hs]
    obtain rfl | rfl := x.eq_zero_or_eq_one <;> rfl
  · exact encodes_low hf hs _ (low_neg (TypeTable.width_le hf) _ _)

theorem extend_widened {w : Nat} (hw : w ∈ [8, 16, 32, 64]) (signed b : Bool) :
    extend signed ((BitVec.ofBool b).setWidth w) = if b then 1 else 0 := by
  simp only [List.mem_cons, List.not_mem_nil, or_false] at hw
  obtain rfl | rfl | rfl | rfl := hw <;> cases signed <;> cases b <;> rfl

theorem logicalNot_folds (h : Encodes t ty c a) :
    Folds t ty (some (.ofBool !c.isTrue)) (Bits.logicalNot t ty a) := by
  have htrue := h.isTrue_eq
  obtain ⟨f, hf, x, rfl, rfl⟩ := h
  obtain ⟨ir, hir, hwidth, hi1⟩ := TypeTable.layout_of_format hf
  have hzero : (x == 0) = !Constant.isTrue (.integer (extend f.signed x)) := by
    rw [htrue, Bits.isTrue, bne, Bool.not_not]
  have hbits : Bits.logicalNot t ty ⟨f.width, x⟩ =
      if ir = .i1 then some (.ofBool (x == 0))
      else some ⟨f.width, (BitVec.ofBool (x == 0)).setWidth f.width⟩ := by
    simp [Bits.logicalNot, Bits.zero, BinOp.bits_mk, BinOp.apply, hir, Except.toOption, UnOp.bits,
      hwidth, Bits.ofBool]
  rw [hbits, hzero]
  obtain ⟨hs, -⟩ | ⟨hs, hw⟩ := TypeTable.format?_eq_some hf
  · rw [if_pos (hi1.2 hs)]
    exact ⟨_, _, rfl, rfl, encodes_bool _ hs⟩
  · have hne : ir ≠ .i1 := fun h => by rw [hi1.1 h] at hs; cases hs
    rw [if_neg hne]
    refine ⟨_, _, rfl, rfl, f, hf, _, rfl, ?_⟩
    rw [extend_widened hw]
    rfl

/-- A conversion to an integer keeps the low bits of the number. -/
theorem cast_integer {g : Format} {x : BitVec g.width} (hg : t.format? src = some g)
    (hf : t.format? dst = some f) (hd : t.shape dst = .integer f.width f.signed)
    (hw : f.width ∈ [8, 16, 32, 64]) :
    Bits.cast t src dst ⟨g.width, x⟩ =
      some ⟨f.width, (extend g.signed x).toBitVec.setWidth f.width⟩ := by
  obtain ⟨ir, hir, hwidth, -⟩ := TypeTable.layout_of_format hf
  have hle := TypeTable.width_le hf
  have hbool : t.isBool dst = false := by simp [TypeTable.isBool, hd]
  have hunary : ∀ op : UnOp, t.castOp src dst = .ok (some op) →
      Bits.cast t src dst ⟨g.width, x⟩ = op.bits ⟨g.width, x⟩ ir := by
    intro op hop
    simp [Bits.cast, hbool, hop, hir, Except.toOption]
  obtain ⟨hs, rfl⟩ | ⟨hs, -⟩ := TypeTable.format?_eq_some hg
  · have hlt : 1 < f.width := by
      simp only [List.mem_cons, List.not_mem_nil, or_false] at hw
      omega
    rw [hunary .zext (by simp [TypeTable.castOp, hs, hd, hlt]), low_of_unsigned hle]
    simp [UnOp.bits, hwidth]
  · obtain ⟨w, signed⟩ := f
    obtain ⟨w', signed'⟩ := g
    simp only at hs hd hle hwidth
    rcases Nat.lt_trichotomy w' w with hlt | rfl | hlt
    · cases signed' with
      | true =>
        rw [hunary .sext (by simp [TypeTable.castOp, hs, hd, hlt]), low_of_signed hle]
        simp [UnOp.bits, hwidth]
      | false =>
        rw [hunary .zext (by simp [TypeTable.castOp, hs, hd, hlt]), low_of_unsigned hle]
        simp [UnOp.bits, hwidth]
    · rw [setWidth_extend hle]
      simp [Bits.cast, hbool, TypeTable.castOp, hs, hd, Except.toOption]
    · have hnot : ¬ w > w' := Nat.not_lt_of_lt hlt
      have htrunc : t.castOp src dst = .ok (some .trunc) := by
        simp [TypeTable.castOp, hs, hd, hlt, hnot]
      have hlow : (extend signed' x).toBitVec.setWidth w = x.setWidth w := by
        cases signed'
        · exact low_of_unsigned hle x
        · rw [low_of_signed hle, BitVec.signExtend_eq_setWidth_of_le _ (Nat.le_of_lt hlt)]
      rw [hunary .trunc htrunc, hlow]
      simp [UnOp.bits, hwidth]

theorem cast_folds (h : Encodes t src c a) (hdst : t.format? dst = some f) :
    Folds t dst (t.convertConstant? src dst c) (Bits.cast t src dst a) := by
  have htrue := h.isTrue_eq
  obtain ⟨g, hg, x, rfl, rfl⟩ := h
  have hsrc := TypeTable.format?_eq_some hg
  obtain ⟨ir, hir, hwidth, -⟩ := TypeTable.layout_of_format hdst
  have hle := TypeTable.width_le hdst
  obtain ⟨hd, rfl⟩ | ⟨hd, hw⟩ := TypeTable.format?_eq_some hdst
  · have hfold : t.convertConstant? src dst (.integer (extend g.signed x)) =
        some (.ofBool (Bits.isTrue ⟨g.width, x⟩)) := by
      simp only [TypeTable.convertConstant?, hd, htrue]
    rw [hfold]
    obtain ⟨hs, rfl⟩ | ⟨hs, -⟩ := hsrc
    · have hbits : Bits.cast t src dst ⟨1, x⟩ = some ⟨1, x⟩ := by
        simp [Bits.cast, TypeTable.isBool, hd, hs, TypeTable.castOp, Except.toOption]
      rw [hbits]
      refine ⟨_, _, rfl, rfl, ⟨1, false⟩, hdst, x, rfl, ?_⟩
      obtain rfl | rfl := x.eq_zero_or_eq_one <;> rfl
    · have hbits : Bits.cast t src dst ⟨g.width, x⟩ = some (.ofBool (Bits.isTrue ⟨g.width, x⟩)) := by
        simp [Bits.cast, TypeTable.isBool, hd, hs, Bits.zero, BinOp.bits_mk, BinOp.apply, Bits.isTrue]
      rw [hbits]
      exact ⟨_, _, rfl, rfl, encodes_bool _ hd⟩
  · have hfold : t.convertConstant? src dst (.integer (extend g.signed x)) =
        t.integerConstant? dst (extend g.signed x) := by
      simp only [TypeTable.convertConstant?, TypeTable.integerConstant?, hd]
    rw [hfold, cast_integer hg hdst hd hw]
    exact encodes_low hdst hd _ rfl

theorem unary_folds {op : UnaryOp} (h : Encodes t src c a) (hdst : t.format? dst = some f)
    (hop : op ∈ [.minus, .logicalNot, .cast, .explicitCast]) (hrule : Expr.UnaryRule t op src dst) :
    Folds t dst (t.unaryConstant? op src dst c) (Bits.unary t op src dst a) := by
  simp only [List.mem_cons, List.not_mem_nil, or_false] at hop
  obtain rfl | rfl | rfl | rfl := hop
  · exact minus_folds h hrule
  · obtain ⟨g, hg, -⟩ := id h
    obtain rfl : dst = src := hrule (TypeTable.isIntegral_of_format hg)
    exact logicalNot_folds h
  · exact cast_folds h hdst
  · exact cast_folds h hdst

/-! ### Operations on two words -/

section Binary

variable {op : BinaryOp} {left : TypeId} {x y : BitVec f.width}

/-- Arithmetic in 64 bits whose low bits are what the instruction computes. -/
theorem arithmetic_of_low (irOp : BinOp) {v : Int64} {z : BitVec f.width}
    (hf : t.format? ty = some f) (hshape : t.shape ty = .integer f.width f.signed)
    (hop : op.isComparison = false) (hir : t.arithmeticOp op ty = .ok irOp)
    (hv : TypeTable.integerArithmetic? (!f.signed) (extend f.signed x) (extend f.signed y) op = some v)
    (hz : irOp.apply x y = some ⟨f.width, z⟩) (hlow : v.toBitVec.setWidth f.width = z) :
    Folds t ty
      (t.arithmetic? op ty (.integer (extend f.signed x)) (.integer (extend f.signed y)))
      (Bits.binary t op left ty ⟨f.width, x⟩ ⟨f.width, y⟩) := by
  have hunsigned : t.isUnsigned ty = !f.signed := by simp only [TypeTable.isUnsigned, hshape]
  have hfold : t.arithmetic? op ty (.integer (extend f.signed x)) (.integer (extend f.signed y)) =
      t.integerConstant? ty v := by
    simp [TypeTable.arithmetic?, hunsigned, hv]
  have hbits : Bits.binary t op left ty ⟨f.width, x⟩ ⟨f.width, y⟩ = some ⟨f.width, z⟩ := by
    simp [Bits.binary, hop, hir, Except.toOption, BinOp.bits_mk, hz]
  rw [hfold, hbits]
  exact encodes_low hf hshape v hlow

/-- Arithmetic on words that does not divide by zero. -/
theorem arithmetic_folds (hop : op ∈ [.add, .sub, .mul, .div, .mod]) (hf : t.format? ty = some f)
    (hshape : t.shape ty = .integer f.width f.signed) (hzero : op ∈ [.div, .mod] → y ≠ 0) :
    Folds t ty
      (t.arithmetic? op ty (.integer (extend f.signed x)) (.integer (extend f.signed y)))
      (Bits.binary t op left ty ⟨f.width, x⟩ ⟨f.width, y⟩) := by
  have hle := TypeTable.width_le hf
  have hfloat : t.isFloat ty = false := by simp only [TypeTable.isFloat, hshape]
  have hunsigned : t.isUnsigned ty = !f.signed := by simp only [TypeTable.isUnsigned, hshape]
  have hne : y ≠ 0 → (extend f.signed y == 0) = false := by
    intro hy
    rw [beq_eq_false_iff_ne, ← bne_iff_ne, extend_ne_zero hle, bne_iff_ne]
    exact hy
  obtain ⟨w, signed⟩ := f
  simp only [List.mem_cons, List.not_mem_nil, or_false] at hop
  obtain rfl | rfl | rfl | rfl | rfl := hop
  · exact arithmetic_of_low .add hf hshape rfl (by simp [TypeTable.arithmeticOp, hfloat]) rfl rfl
      (low_add hle signed x y)
  · exact arithmetic_of_low .sub hf hshape rfl (by simp [TypeTable.arithmeticOp, hfloat]) rfl rfl
      (low_sub hle signed x y)
  · exact arithmetic_of_low .mul hf hshape rfl (by simp [TypeTable.arithmeticOp, hfloat]) rfl rfl
      (low_mul hle signed x y)
  · have hy := hzero (by simp)
    cases signed with
    | true =>
      refine arithmetic_of_low .sdiv hf hshape rfl ?_ ?_ (if_neg hy) (low_sdiv hle x y)
      · simp [TypeTable.arithmeticOp, hfloat, hunsigned]
      · simp [TypeTable.integerArithmetic?, hne hy]
    | false =>
      refine arithmetic_of_low .udiv hf hshape rfl ?_ ?_ (if_neg hy) (low_udiv hle x y)
      · simp [TypeTable.arithmeticOp, hfloat, hunsigned]
      · simp [TypeTable.integerArithmetic?, hne hy]
  · have hy := hzero (by simp)
    cases signed with
    | true =>
      refine arithmetic_of_low .srem hf hshape rfl ?_ ?_ (if_neg hy) (low_srem hle x y)
      · simp [TypeTable.arithmeticOp, hfloat, hunsigned]
      · simp [TypeTable.integerArithmetic?, hne hy]
    | false =>
      refine arithmetic_of_low .urem hf hshape rfl ?_ ?_ (if_neg hy) (low_urem hle x y)
      · simp [TypeTable.arithmeticOp, hfloat, hunsigned]
      · simp [TypeTable.integerArithmetic?, hne hy]

theorem compareConstants?_eq (hf : t.format? left = some f) :
    t.compareConstants? left (.integer (extend f.signed x)) (.integer (extend f.signed y)) =
      some (order f.signed x y) := by
  have hle := TypeTable.width_le hf
  obtain ⟨hs, rfl⟩ | ⟨hs, -⟩ := TypeTable.format?_eq_some hf
  · simp only [TypeTable.compareConstants?, TypeTable.isUnsigned, hs]
    exact congrArg some (compare_bit x y)
  · obtain ⟨w, signed⟩ := f
    simp only [TypeTable.compareConstants?, TypeTable.isUnsigned, hs]
    cases signed
    · exact congrArg some (compare_unsigned hle x y)
    · exact congrArg some (compare_signed hle x y)

/-- Whether a comparison holds of operands in the given order. -/
def BinaryOp.holds (op : BinaryOp) (o : Ordering) : Bool :=
  match op with
  | equal => o.isEq
  | notEqual => o.isNe
  | less => o.isLT
  | greater => o.isGT
  | lessEqual => o.isLE
  | _ => o.isGE

theorem comparison?_eq (hop : op.isComparison = true) (hf : t.format? left = some f) :
    t.comparison? op left (.integer (extend f.signed x)) (.integer (extend f.signed y)) =
      some (.ofBool (op.holds (order f.signed x y))) := by
  have hpointer : t.isPointer left = false := by
    obtain ⟨hs, -⟩ | ⟨hs, -⟩ := TypeTable.format?_eq_some hf <;> simp only [TypeTable.isPointer, hs]
  unfold TypeTable.comparison?
  rw [compareConstants?_eq hf]
  simp only [hpointer]
  cases op <;> rfl

theorem binary_comparison (hop : op.isComparison = true) (hf : t.format? left = some f) :
    Bits.binary t op left ty ⟨f.width, x⟩ ⟨f.width, y⟩ =
      some (.ofBool (op.holds (order f.signed x y))) := by
  have hkind : t.isFloat left = false ∧ t.isSigned left = f.signed := by
    obtain ⟨hs, rfl⟩ | ⟨hs, -⟩ := TypeTable.format?_eq_some hf <;>
      simp [TypeTable.isFloat, TypeTable.isSigned, hs]
  have hgt : (order f.signed x y).isGT = if f.signed then y.slt x else y.ult x := by
    rw [← Ordering.isLT_swap, order_swap, order_isLT]
  have hge : (order f.signed x y).isGE = if f.signed then y.sle x else y.ule x := by
    rw [← Ordering.isLE_swap, order_swap, order_isLE]
  have hne : (order f.signed x y).isNe = (x != y) := by
    rw [bne, ← order_isEq f.signed x y]
    cases order f.signed x y <;> rfl
  simp only [Bits.binary, hop, if_true, BinOp.bits_mk, Option.bind_eq_bind]
  cases op with
  | equal => simp [TypeTable.comparisonOp?, hkind, BinOp.apply, BinaryOp.holds, order_isEq]
  | notEqual => simp [TypeTable.comparisonOp?, hkind, BinOp.apply, BinaryOp.holds, hne]
  | less =>
    simp only [TypeTable.comparisonOp?, hkind, BinaryOp.holds, order_isLT]
    cases f.signed <;> rfl
  | greater =>
    simp only [TypeTable.comparisonOp?, hkind, BinaryOp.holds, hgt]
    cases f.signed <;> rfl
  | lessEqual =>
    simp only [TypeTable.comparisonOp?, hkind, BinaryOp.holds, order_isLE]
    cases f.signed <;> rfl
  | greaterEqual =>
    simp only [TypeTable.comparisonOp?, hkind, BinaryOp.holds, hge]
    cases f.signed <;> rfl
  | _ => cases hop

theorem comparison_folds (hop : op.isComparison = true) (hf : t.format? left = some f)
    (hty : t.shape ty = .bool) :
    Folds t ty
      (t.comparison? op left (.integer (extend f.signed x)) (.integer (extend f.signed y)))
      (Bits.binary t op left ty ⟨f.width, x⟩ ⟨f.width, y⟩) :=
  ⟨_, _, comparison?_eq hop hf, binary_comparison hop hf, encodes_bool _ hty⟩

end Binary

/-! ### Expressions -/

namespace Expr

/-- The value is known, and is the one that is computed. -/
def Known (t : TypeTable) (e : Expr) : Prop := Folds t e.ty (e.constant? t) (e.bits t)

variable {e child left right cond thenExpr elseExpr : Expr} {note : Note}

theorem Known.isConstant (h : e.Known t) : e.isConstant t = true := by
  obtain ⟨c, -, hc, -⟩ := h
  rw [Expr.isConstant, hc]
  rfl

theorem unary_known {op : UnaryOp} (h : child.Known t)
    (hop : op ∈ [.minus, .logicalNot, .cast, .explicitCast]) (hty : t.format? note.ty = some f)
    (hrule : UnaryRule t op child.ty note.ty) : (unary op child note).Known t := by
  obtain ⟨c, a, hc, ha, henc⟩ := h
  show Folds t note.ty _ _
  simpa [constant?, bits, hc, ha] using unary_folds henc hty hop hrule

/-- Operands of a known division are such that it has a result. -/
theorem ne_zero_of_ruled {op : BinaryOp} {g : Format} {y : BitVec g.width}
    (hzero : Typing.isZeroDivision t op ⟨left, right, ty⟩ = false) (hop : op ∈ [.div, .mod])
    (hl : left.isConstant t = true) (hr : right.constant? t = some (.integer (extend g.signed y)))
    (hint : t.isInteger right.ty = true) : y ≠ 0 := by
  rintro rfl
  have hdiv : (op == .div || op == .mod) = true := by
    simp only [List.mem_cons, List.not_mem_nil, or_false] at hop
    obtain rfl | rfl := hop <;> rfl
  simp only [Typing.isZeroDivision, hdiv, hl, hr, hint, extend_zero, beq_self_eq_true] at hzero
  cases hzero

/-- Two operands of the same shape are words of the same width. -/
theorem encodes_pair {cl cr : Constant} {al ar : Bits} (hl : Encodes t src cl al)
    (hr : Encodes t dst cr ar) (hshape : t.shape dst = t.shape src) :
    ∃ f, t.format? src = some f ∧ t.format? dst = some f ∧ ∃ x y : BitVec f.width,
      al = ⟨f.width, x⟩ ∧ cl = .integer (extend f.signed x) ∧
      ar = ⟨f.width, y⟩ ∧ cr = .integer (extend f.signed y) := by
  have hformat : t.format? dst = t.format? src := by rw [TypeTable.format?, TypeTable.format?, hshape]
  obtain ⟨f, hf, x, hal, hcl⟩ := hl
  obtain ⟨g, hg, y, har, hcr⟩ := hr
  cases (hg.symm.trans hformat).trans hf
  exact ⟨f, hf, hg, x, y, hal, hcl, har, hcr⟩

section Binary

variable {op : BinaryOp} {cl cr : Constant} {al ar : Bits}

theorem constant?_binary (hl : left.constant? t = some cl) (hr : right.constant? t = some cr)
    (hassign : op.isAssignment = false) (hindex : op ≠ .index) :
    (binary op left right note).constant? t = t.binaryConstant? op left.ty note.ty cl cr := by
  have hindex' : (op == .index) = false := by simpa using hindex
  simp [constant?, hassign, hindex', hl, hr]

theorem bits_binary (hl : left.bits t = some al) (hr : right.bits t = some ar)
    (hop : op.isLogical = false) :
    (binary op left right note).bits t = Bits.binary t op left.ty note.ty al ar := by
  cases op with
  | logicalAnd | logicalOr => cases hop
  | _ => simp [bits, hl, hr]

theorem arithmetic_known (hop : op ∈ [.add, .sub, .mul, .div, .mod]) (hl : left.Known t)
    (hr : right.Known t) (hrule : BinaryRule t op left.ty right.ty note.ty)
    (hzero : Typing.isZeroDivision t op ⟨left, right, note.ty⟩ = false) :
    (binary op left right note).Known t := by
  have hconst := hl.isConstant
  obtain ⟨cl, al, hcl, hal, hleft⟩ := hl
  obtain ⟨cr, ar, hcr, har, hright⟩ := hr
  obtain ⟨g, hg, -⟩ := id hleft
  have hkind : op.isAssignment = false ∧ op ≠ .index ∧ op.isLogical = false ∧
      (t.binaryConstant? op left.ty note.ty cl cr = t.arithmetic? op note.ty cl cr) := by
    simp only [List.mem_cons, List.not_mem_nil, or_false] at hop
    obtain rfl | rfl | rfl | rfl | rfl := hop <;> exact ⟨rfl, nofun, rfl, rfl⟩
  obtain ⟨hassign, hindex, hlogical, hfold⟩ := hkind
  have hpointer := TypeTable.isPointer_of_isArithmetic (TypeTable.isArithmetic_of_format hg)
  obtain ⟨hty, hshape, hbool⟩ := (hrule.number hop hpointer).shapes
  obtain ⟨f, hf, hfr, x, y, rfl, rfl, rfl, rfl⟩ := encodes_pair hleft hright hshape
  obtain ⟨hs, -⟩ | ⟨hs, -⟩ := TypeTable.format?_eq_some hf
  · rw [TypeTable.isBool_iff.2 hs] at hbool
    cases hbool
  have hnote : t.format? note.ty = some f := by rw [TypeTable.format?, hty]; exact hf
  have hint : t.isInteger right.ty = true := TypeTable.isInteger_iff.2 ⟨_, _, hshape.trans hs⟩
  rw [Known, constant?_binary hcl hcr hassign hindex, bits_binary hal har hlogical, hfold]
  exact arithmetic_folds hop hnote (hty.trans hs)
    fun hdiv => ne_zero_of_ruled hzero hdiv hconst hcr hint

theorem comparison_known (hop : op.isComparison = true) (hl : left.Known t) (hr : right.Known t)
    (hrule : BinaryRule t op left.ty right.ty note.ty) : (binary op left right note).Known t := by
  obtain ⟨cl, al, hcl, hal, hleft⟩ := hl
  obtain ⟨cr, ar, hcr, har, hright⟩ := hr
  obtain ⟨g, hg, -⟩ := id hleft
  have hkind : op.isAssignment = false ∧ op ≠ .index ∧ op.isLogical = false ∧
      (t.binaryConstant? op left.ty note.ty cl cr = t.comparison? op left.ty cl cr) ∧
      t.shape note.ty = .bool ∧ t.shape right.ty = t.shape left.ty := by
    have harith := TypeTable.isArithmetic_of_format hg
    have hpointer := TypeTable.isPointer_of_isArithmetic harith
    cases op with
    | equal | notEqual | less | greater | lessEqual | greaterEqual =>
      exact ⟨rfl, nofun, rfl, rfl, hrule.1.shape_eq, (TypeTable.shape_of_equals (hrule.2 hpointer) (.inl harith)).symm⟩
    | _ => cases hop
  obtain ⟨hassign, hindex, hlogical, hfold, hty, hshape⟩ := hkind
  obtain ⟨f, hf, -, x, y, rfl, rfl, rfl, rfl⟩ := encodes_pair hleft hright hshape
  rw [Known, constant?_binary hcl hcr hassign hindex, bits_binary hal har hlogical, hfold]
  exact comparison_folds hop hf hty

theorem logical_known (hop : op.isLogical = true) (hl : left.Known t) (hr : right.Known t)
    (hrule : BinaryRule t op left.ty right.ty note.ty) : (binary op left right note).Known t := by
  obtain ⟨cl, al, hcl, hal, hleft⟩ := hl
  obtain ⟨cr, ar, hcr, har, hright⟩ := hr
  have hbits : ∀ b, t.Plain .bool note.ty → Encodes t note.ty (.ofBool b) (.ofBool b) :=
    fun b hty => encodes_bool b hty.shape_eq
  cases op with
  | logicalAnd =>
    rw [Known, constant?_binary hcl hcr (rfl : BinaryOp.logicalAnd.isAssignment = false) nofun]
    refine ⟨_, _, rfl, ?_, hbits _ hrule.2.2⟩
    rw [hleft.isTrue_eq, hright.isTrue_eq]
    cases h : al.isTrue <;> simp [bits, hal, har, h]
  | logicalOr =>
    rw [Known, constant?_binary hcl hcr (rfl : BinaryOp.logicalOr.isAssignment = false) nofun]
    refine ⟨_, _, rfl, ?_, hbits _ hrule.2.2⟩
    rw [hleft.isTrue_eq, hright.isTrue_eq]
    cases h : al.isTrue <;> simp [bits, hal, har, h]
  | _ => cases hop

theorem binary_known (hl : left.Known t) (hr : right.Known t) (hassign : op.isAssignment = false)
    (hindex : op ≠ .index) (hrule : BinaryRule t op left.ty right.ty note.ty)
    (hzero : Typing.isZeroDivision t op ⟨left, right, note.ty⟩ = false) :
    (binary op left right note).Known t := by
  cases op with
  | add | sub | mul | div | mod => exact arithmetic_known (by simp) hl hr hrule hzero
  | logicalAnd | logicalOr => exact logical_known rfl hl hr hrule
  | equal | notEqual | less | greater | lessEqual | greaterEqual =>
    exact comparison_known rfl hl hr hrule
  | index => exact absurd rfl hindex
  | _ => cases hassign

end Binary

theorem choice_known {cond thenExpr elseExpr : Expr} (hcond : cond.Known t)
    (hthen : ∀ c, cond.constant? t = some c → c.isTrue = true → thenExpr.Known t)
    (helse : ∀ c, cond.constant? t = some c → c.isTrue = false → elseExpr.Known t)
    (hty : t.format? note.ty = some f)
    (hrule : ChoiceRule t cond.ty thenExpr.ty elseExpr.ty note.ty) :
    (conditional cond thenExpr elseExpr note).Known t := by
  obtain ⟨c, a, hc, ha, henc⟩ := hcond
  have harith := TypeTable.isArithmetic_of_format hty
  have hthenShape := TypeTable.shape_of_equals hrule.2.1 (.inr harith)
  have helseShape := TypeTable.shape_of_equals hrule.2.2 (.inr harith)
  cases htrue : c.isTrue with
  | true =>
    obtain ⟨c₁, a₁, hc₁, ha₁, henc₁⟩ := hthen c hc htrue
    refine ⟨c₁, a₁, ?_, ?_, henc₁.congr hthenShape.symm⟩
    · simp [constant?, hc, htrue, hc₁]
    · simp [bits, ha, ← henc.isTrue_eq, htrue, ha₁]
  | false =>
    obtain ⟨c₁, a₁, hc₁, ha₁, henc₁⟩ := helse c hc htrue
    refine ⟨c₁, a₁, ?_, ?_, henc₁.congr helseShape.symm⟩
    · simp [constant?, hc, htrue, hc₁]
    · simp [bits, ha, ← henc.isTrue_eq, htrue, ha₁]

/-- Every value of a number that is known is the one that is computed. -/
theorem Numeric.known : ∀ {e : Expr}, e.Coherent t → e.Numeric t → e.isConstant t = true → e.Known t
  | literal (.integer v) note, hrule, hnum, _ => by
    obtain ⟨f, hf⟩ : ∃ f, t.format? note.ty = some f := Option.isSome_iff_exists.1 hnum.self.1
    obtain ⟨ir, hir, hwidth, -⟩ := TypeTable.layout_of_format hf
    obtain ⟨hs, -⟩ | ⟨hs, -⟩ := TypeTable.format?_eq_some hf
    · obtain ⟨_, _, hs'⟩ := TypeTable.isInteger_iff.1 (All.self hrule).2
      cases hs.symm.trans hs'
    · have hbits : (literal (.integer v) note).bits t =
          some ⟨f.width, v.toBitVec.setWidth f.width⟩ := by
        simp [bits, hir, Except.toOption, hwidth]
      rw [Known, hbits]
      exact encodes_low hf hs v rfl
  | literal (.bool b) note, hrule, _, _ =>
    ⟨_, _, rfl, rfl, encodes_bool b (TypeTable.isBool_iff.1 (All.self hrule).2)⟩
  | literal (.float _) _, _, hnum, _ | literal .nullptr _, _, hnum, _
  | literal (.string _) _, _, hnum, _ => by cases hnum.self.2
  | identifier _ _ _ none _, _, _, h => by cases h
  | identifier _ _ _ (some value) note, hrule, hnum, h => by
    have hty : value.ty = note.ty := (All.self hrule).2
    obtain ⟨c, a, hc, ha, henc⟩ := Numeric.known hrule.2 hnum.2 h
    exact ⟨c, a, hc, ha, henc.congr (congrArg t.shape hty.symm)⟩
  | proxy target note, hrule, hnum, h => by
    have hty : target.ty = note.ty := (All.self hrule).2
    obtain ⟨c, a, hc, ha, henc⟩ := Numeric.known hrule.2 hnum.2 h
    exact ⟨c, a, hc, ha, henc.congr (congrArg t.shape hty.symm)⟩
  | unary op child note, hrule, hnum, h => by
    obtain ⟨f, hf⟩ := Option.isSome_iff_exists.1 hnum.self.1
    obtain ⟨c, hc⟩ := Option.isSome_iff_exists.1 h
    obtain ⟨c₁, hc₁, hc⟩ := Option.bind_eq_some_iff.1 hc
    have hop : op ∈ [.minus, .logicalNot, .cast, .explicitCast] := by
      cases op with
      | minus | logicalNot | cast | explicitCast => simp
      | _ => cases hc
    exact unary_known (Numeric.known hrule.2 hnum.2 (by rw [Expr.isConstant, hc₁]; rfl)) hop hf
      (All.self hrule).2
  | binary op left right note, hrule, hnum, h => by
    obtain ⟨c, hc⟩ := Option.isSome_iff_exists.1 h
    rw [constant?] at hc
    split at hc
    · cases hc
    rename_i hop
    obtain ⟨hassign, hindex⟩ := Bool.or_eq_false_iff.1 (Bool.eq_false_iff.2 hop)
    obtain ⟨cl, hcl, hc⟩ := Option.bind_eq_some_iff.1 hc
    obtain ⟨cr, hcr, -⟩ := Option.bind_eq_some_iff.1 hc
    exact binary_known (Numeric.known hrule.2.1 hnum.2.1 (by rw [Expr.isConstant, hcl]; rfl))
      (Numeric.known hrule.2.2 hnum.2.2 (by rw [Expr.isConstant, hcr]; rfl)) hassign
      (by simpa using hindex) (All.self hrule).2.1 (All.self hrule).2.2
  | conditional cond thenExpr elseExpr note, hrule, hnum, h => by
    obtain ⟨f, hf⟩ := Option.isSome_iff_exists.1 hnum.self.1
    obtain ⟨c, hc⟩ := Option.isSome_iff_exists.1 h
    obtain ⟨c₁, hc₁, hc⟩ := Option.bind_eq_some_iff.1 hc
    refine choice_known (Numeric.known hrule.2.1 hnum.2.1 (by rw [Expr.isConstant, hc₁]; rfl)) ?_ ?_ hf
      (All.self hrule).2
    · intro c₂ hc₂ htrue
      cases hc₁.symm.trans hc₂
      rw [htrue] at hc
      exact Numeric.known hrule.2.2.1 hnum.2.2.1 (Option.isSome_iff_exists.2 ⟨c, hc⟩)
    · intro c₂ hc₂ htrue
      cases hc₁.symm.trans hc₂
      rw [htrue] at hc
      exact Numeric.known hrule.2.2.2 hnum.2.2.2 (Option.isSome_iff_exists.2 ⟨c, hc⟩)
  | call .., _, _, h => by cases h
  | member .., _, _, h => by cases h
  | aggregate .., _, hnum, _ => by cases hnum.self.2

end Expr

theorem folding_agrees_with_code {session : Session} {es : List Expr} (hreach : session.Reachable es)
    {e : Expr} (he : e ∈ es) (hnum : e.Numeric session.types) :
    (∀ c, e.constant? session.types = some c →
      ∃ f, session.types.format? e.ty = some f ∧ ∃ x : BitVec f.width,
        e.bits session.types = some ⟨f.width, x⟩ ∧ c = .integer (extend f.signed x)) ∧
    (∀ op child note, e = .unary op child note → op ∈ [.minus, .logicalNot, .cast, .explicitCast] →
      child.isConstant session.types = true → e.isConstant session.types = true) ∧
    (∀ op left right note, e = .binary op left right note → op.isAssignment = false → op ≠ .index →
      left.isConstant session.types = true → right.isConstant session.types = true →
      e.isConstant session.types = true) := by
  have hrule := hreach.sound.2 e he
  refine ⟨fun c hc => ?_, ?_, ?_⟩
  · obtain ⟨c', a, hc', ha, f, hf, x, rfl, rfl⟩ := Expr.Numeric.known hrule hnum
      (Option.isSome_iff_exists.2 ⟨c, hc⟩)
    cases hc.symm.trans hc'
    exact ⟨f, hf, x, ha, rfl⟩
  · rintro op child note rfl hop hchild
    obtain ⟨f, hf⟩ := Option.isSome_iff_exists.1 hnum.self.1
    exact (Expr.unary_known (Expr.Numeric.known hrule.2 hnum.2 hchild) hop hf
      (Expr.All.self hrule).2).isConstant
  · rintro op left right note rfl hassign hindex hl hr
    exact (Expr.binary_known (Expr.Numeric.known hrule.2.1 hnum.2.1 hl)
      (Expr.Numeric.known hrule.2.2 hnum.2.2 hr) hassign hindex (Expr.All.self hrule).2.1
      (Expr.All.self hrule).2.2).isConstant

namespace Halves

/-- Half of the greatest unsigned number of 64 bits is cut to 8 bits. -/
def history : Session.History := .run
  [.types [.integer 64 false, .integer 8 true], .typedInteger (-1) ⟨0⟩, .typedInteger 2 ⟨0⟩, .binary .div 0 1,
    .cast 2 ⟨1⟩]

/-- All bits of it are set. -/
def cut : Expr := history.expr 3

end Halves

open Halves in
theorem half_of_greatest_folds :
    history.session.Reachable history.exprs ∧ cut ∈ history.exprs ∧ cut.Numeric history.session.types ∧
      cut.bits history.session.types = some ⟨8, 255⟩ ∧
      cut.constant? history.session.types = some (.integer (-1)) := by
  have hreachable : history.session.Reachable history.exprs := Session.History.run_reachable _
  have hmem : cut ∈ history.exprs := Session.History.expr_mem (by decide +kernel)
  have hnum : cut.Numeric history.session.types := by decide +kernel
  have hconst : cut.isConstant history.session.types = true := by decide +kernel
  have hformat : history.session.types.format? cut.ty = some ⟨8, true⟩ := by decide +kernel
  have hbits : cut.bits history.session.types = some ⟨8, 255⟩ := by decide +kernel
  refine ⟨hreachable, hmem, hnum, hbits, ?_⟩
  obtain ⟨c, hc⟩ := Option.isSome_iff_exists.1 hconst
  obtain ⟨f, hf, x, hx, rfl⟩ := (folding_agrees_with_code hreachable hmem hnum).1 c hc
  cases hformat.symm.trans hf
  cases hbits.symm.trans hx
  exact hc

end TypedCore
