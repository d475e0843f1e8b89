import Mathlib.Algebra.Group.Nat.Defs
import TypedCore.Expr.Constant
import TypedCore.Ir.Instruction

/-!
# Numbers of a width

What the instructions of the intermediate representation do to words of a given width, and how this
shows in the 64 bits in which constants are kept. `extend signed x` is the number that a word `x` stands
for, sign- or zero-extended; `wrap` takes any number to the one that its low bits stand for, so that
arithmetic in 64 bits followed by `wrap` is arithmetic on words.
-/

namespace TypedCore

/-- A word of some width. -/
structure Bits where
  width : Nat
  value : BitVec width
deriving DecidableEq

namespace Bits

/-- A single bit. -/
def ofBool (b : Bool) : Bits := ⟨1, BitVec.ofBool b⟩

def zero (width : Nat) : Bits := ⟨width, 0⟩

def isTrue (a : Bits) : Bool := a.value != 0

end Bits

namespace Ir

/-- The width of an integer type. -/
def Ty.width? : Ty → Option Nat
  | i1 => some 1
  | i8 => some 8
  | i16 => some 16
  | i32 => some 32
  | i64 => some 64
  | _ => none

/-- An operation on two words of the same width. Nothing can be divided by zero. -/
def BinOp.apply (op : BinOp) {w : Nat} (a b : BitVec w) : Option Bits :=
  match op with
  | add => some ⟨w, a + b⟩
  | sub => some ⟨w, a - b⟩
  | mul => some ⟨w, a * b⟩
  | sdiv => if b = 0 then none else some ⟨w, a.sdiv b⟩
  | udiv => if b = 0 then none else some ⟨w, a / b⟩
  | srem => if b = 0 then none else some ⟨w, a.srem b⟩
  | urem => if b = 0 then none else some ⟨w, a % b⟩
  | eq => some (.ofBool (a == b))
  | ne => some (.ofBool (a != b))
  | slt => some (.ofBool (a.slt b))
  | sle => some (.ofBool (a.sle b))
  | sgt => some (.ofBool (b.slt a))
  | sge => some (.ofBool (b.sle a))
  | ult => some (.ofBool (a.ult b))
  | ule => some (.ofBool (a.ule b))
  | ugt => some (.ofBool (b.ult a))
  | uge => some (.ofBool (b.ule a))
  | _ => none

def BinOp.bits (op : BinOp) (a b : Bits) : Option Bits :=
  if h : b.width = a.width then op.apply a.value (b.value.cast h) else none

/-- Negation, and the conversions to a word of type `ty`. -/
def UnOp.bits (op : UnOp) (a : Bits) (ty : Ty) : Option Bits := do
  let w ← ty.width?
  match op with
  | neg => some ⟨a.width, -a.value⟩
  | zext => some ⟨w, a.value.setWidth w⟩
  | sext => some ⟨w, a.value.signExtend w⟩
  | trunc => some ⟨w, a.value.setWidth w⟩
  | _ => none

theorem BinOp.bits_mk (op : BinOp) {w : Nat} (a b : BitVec w) : op.bits ⟨w, a⟩ ⟨w, b⟩ = op.apply a b := by
  simp [BinOp.bits]

end Ir

/-! ### The number that a word stands for -/

def extend (signed : Bool) {w : Nat} (x : BitVec w) : Int64 :=
  Int64.ofBitVec (if signed then x.signExtend 64 else x.setWidth 64)

variable {w : Nat} {signed : Bool} {x y : BitVec w}

theorem toInt_setWidth_of_le (hw : w ≤ 64) (v : Int64) :
    (v.toBitVec.setWidth w).toInt = v.toInt.bmod (2 ^ w) := by
  have hv : v.toInt = (v.toBitVec.toNat : Int).bmod (2 ^ 64) := BitVec.toInt_eq_toNat_bmod _
  rw [BitVec.toInt_setWidth, hv, Int.bmod_bmod_of_dvd (Nat.pow_dvd_pow 2 hw)]

/-- The low bits of a number are those of the word it stands for, extended or cut. -/
theorem low_of_signed {w' : Nat} (hw' : w' ≤ 64) (x : BitVec w) :
    (extend true x).toBitVec.setWidth w' = x.signExtend w' := by
  have hx : (extend true x).toInt = x.toInt.bmod (2 ^ 64) := BitVec.toInt_ofInt _
  refine BitVec.eq_of_toInt_eq ?_
  rw [toInt_setWidth_of_le hw', hx, Int.bmod_bmod_of_dvd (Nat.pow_dvd_pow 2 hw')]
  exact (BitVec.toInt_ofInt _).symm

theorem low_of_unsigned {w' : Nat} (hw' : w' ≤ 64) (x : BitVec w) :
    (extend false x).toBitVec.setWidth w' = x.setWidth w' :=
  BitVec.setWidth_setWidth_of_le x hw'

/-- The low bits of a number give back the word. -/
theorem setWidth_extend (hw : w ≤ 64) (signed : Bool) (x : BitVec w) :
    (extend signed x).toBitVec.setWidth w = x := by
  cases signed
  · rw [low_of_unsigned hw, BitVec.setWidth_eq]
  · rw [low_of_signed hw, BitVec.signExtend_eq]

theorem extend_inj (hw : w ≤ 64) : extend signed x = extend signed y ↔ x = y := by
  refine ⟨fun h => ?_, fun h => h ▸ rfl⟩
  rw [← setWidth_extend hw signed x, h, setWidth_extend hw signed y]

theorem extend_zero (signed : Bool) (w : Nat) : extend signed (0 : BitVec w) = 0 := by
  cases signed with
  | false => simp [extend]
  | true =>
    show Int64.ofBitVec ((0 : BitVec w).signExtend 64) = 0
    rw [BitVec.signExtend_eq_setWidth_of_msb_false (by simp)]
    simp

theorem toInt_extend (hw : w ≤ 64) (x : BitVec w) : (extend true x).toInt = x.toInt :=
  BitVec.toInt_signExtend_of_le hw

theorem toNat_extend (hw : w ≤ 64) (x : BitVec w) : (extend false x).toBitVec.toNat = x.toNat := by
  have hlt : x.toNat < 2 ^ 64 := Nat.lt_of_lt_of_le x.isLt (Nat.pow_le_pow_right (by decide) hw)
  show (x.setWidth 64).toNat = x.toNat
  rw [BitVec.toNat_setWidth, Nat.mod_eq_of_lt hlt]

/-- A number is cut to its low bits. -/
theorem wrap_eq_extend (hw : w ≤ 64) (v : Int64) (signed : Bool) :
    wrap v w signed = extend signed (v.toBitVec.setWidth w) := by
  have hdvd : 2 ^ w ∣ 2 ^ 64 := Nat.pow_dvd_pow 2 hw
  have hv : v.toInt = (v.toBitVec.toNat : Int).bmod (2 ^ 64) := BitVec.toInt_eq_toNat_bmod _
  unfold wrap extend modulus
  split
  · obtain rfl : w = 64 := by omega
    cases signed <;> simp
  · refine Int64.toBitVec_inj.1 ?_
    cases signed with
    | true =>
      exact (congrArg (BitVec.ofInt 64) (toInt_setWidth_of_le hw v)).symm
    | false =>
      have hlow : v.toInt % (2 ^ w : Nat) = (v.toBitVec.toNat % 2 ^ w : Nat) := by
        rw [hv, ← Int.emod_emod_of_dvd _ (Int.natCast_dvd_natCast.2 hdvd), Int.bmod_emod,
          Int.emod_emod_of_dvd _ (Int.natCast_dvd_natCast.2 hdvd), Int.natCast_emod]
      refine (congrArg (BitVec.ofInt 64) hlow).trans (BitVec.eq_of_toNat_eq ?_)
      show _ = ((v.toBitVec.setWidth w).setWidth 64).toNat
      rw [BitVec.ofInt_natCast, BitVec.toNat_ofNat, BitVec.toNat_setWidth, BitVec.toNat_setWidth]

/-! ### Arithmetic -/

theorem low_neg (hw : w ≤ 64) (signed : Bool) (x : BitVec w) :
    (-extend signed x).toBitVec.setWidth w = -x := by
  rw [Int64.toBitVec_neg, BitVec.setWidth_neg_of_le hw, setWidth_extend hw]

theorem low_add (hw : w ≤ 64) (signed : Bool) (x y : BitVec w) :
    (extend signed x + extend signed y).toBitVec.setWidth w = x + y := by
  rw [Int64.toBitVec_add, BitVec.setWidth_add _ _ hw, setWidth_extend hw, setWidth_extend hw]

theorem low_sub (hw : w ≤ 64) (signed : Bool) (x y : BitVec w) :
    (extend signed x - extend signed y).toBitVec.setWidth w = x - y := by
  rw [Int64.toBitVec_sub, BitVec.sub_eq_add_neg, BitVec.setWidth_add _ _ hw,
    BitVec.setWidth_neg_of_le hw, setWidth_extend hw, setWidth_extend hw, ← BitVec.sub_eq_add_neg]

theorem low_mul (hw : w ≤ 64) (signed : Bool) (x y : BitVec w) :
    (extend signed x * extend signed y).toBitVec.setWidth w = x * y := by
  rw [Int64.toBitVec_mul, BitVec.setWidth_mul _ _ hw, setWidth_extend hw, setWidth_extend hw]

/-- The quotient of zero-extended words fits into the words. -/
theorem low_udiv (hw : w ≤ 64) (x y : BitVec w) :
    ((extend false x).toUInt64 / (extend false y).toUInt64).toInt64.toBitVec.setWidth w = x / y := by
  refine BitVec.eq_of_toNat_eq ?_
  show (((extend false x).toBitVec / (extend false y).toBitVec).setWidth w).toNat = _
  rw [BitVec.toNat_setWidth, BitVec.toNat_udiv, toNat_extend hw, toNat_extend hw, ← BitVec.toNat_udiv,
    Nat.mod_eq_of_lt (x / y).isLt]

theorem low_urem (hw : w ≤ 64) (x y : BitVec w) :
    ((extend false x).toUInt64 % (extend false y).toUInt64).toInt64.toBitVec.setWidth w = x % y := by
  refine BitVec.eq_of_toNat_eq ?_
  show (((extend false x).toBitVec % (extend false y).toBitVec).setWidth w).toNat = _
  rw [BitVec.toNat_setWidth, BitVec.toNat_umod, toNat_extend hw, toNat_extend hw, ← BitVec.toNat_umod,
    Nat.mod_eq_of_lt (x % y).isLt]

/-- The least number divided by `-1` wraps around in words as it does in 64 bits. -/
theorem low_sdiv (hw : w ≤ 64) (x y : BitVec w) :
    (extend true x / extend true y).toBitVec.setWidth w = x.sdiv y := by
  refine BitVec.eq_of_toInt_eq ?_
  rw [toInt_setWidth_of_le hw, Int64.toInt_div, toInt_extend hw, toInt_extend hw, BitVec.toInt_sdiv,
    Int.bmod_bmod_of_dvd (Nat.pow_dvd_pow 2 hw)]

theorem low_srem (hw : w ≤ 64) (x y : BitVec w) :
    (extend true x % extend true y).toBitVec.setWidth w = x.srem y := by
  refine BitVec.eq_of_toInt_eq ?_
  rw [toInt_setWidth_of_le hw, Int64.toInt_mod, toInt_extend hw, toInt_extend hw, ← BitVec.toInt_srem,
    BitVec.toInt_bmod_cancel]

/-! ### Tests -/

theorem extend_ofBool (b : Bool) : extend false (BitVec.ofBool b) = if b then 1 else 0 := by
  cases b <;> rfl

theorem extend_ne_zero (hw : w ≤ 64) : (extend signed x != 0) = (x != 0) := by
  rw [Bool.eq_iff_iff, bne_iff_ne, bne_iff_ne, ne_eq, ← extend_zero signed w, extend_inj hw]

/-! ### Order -/

/-- The order of two words. -/
def order (signed : Bool) (x y : BitVec w) : Ordering :=
  if signed then compare x.toInt y.toInt else compare x.toNat y.toNat

theorem compare_signed (hw : w ≤ 64) (x y : BitVec w) :
    compare (extend true x).toInt (extend true y).toInt = order true x y := by
  rw [toInt_extend hw, toInt_extend hw]
  rfl

theorem compare_unsigned (hw : w ≤ 64) (x y : BitVec w) :
    compare (extend false x).toUInt64 (extend false y).toUInt64 = order false x y := by
  show compareOfLessAndEq _ _ = compareOfLessAndEq _ _
  unfold compareOfLessAndEq
  have hx : (extend false x).toUInt64.toNat = x.toNat := toNat_extend hw x
  have hy : (extend false y).toUInt64.toNat = y.toNat := toNat_extend hw y
  simp only [UInt64.lt_iff_toNat_lt, ← UInt64.toNat_inj, hx, hy]

/-- Single bits may be compared as signed numbers. -/
theorem compare_bit (x y : BitVec 1) :
    compare (extend false x).toInt (extend false y).toInt = order false x y := by
  obtain rfl | rfl := x.eq_zero_or_eq_one <;> obtain rfl | rfl := y.eq_zero_or_eq_one <;> rfl

section Order

variable (signed x y)

theorem order_isEq : (order signed x y).isEq = (x == y) := by
  rw [Bool.eq_iff_iff, Ordering.isEq_iff_eq_eq, beq_iff_eq]
  cases signed
  · exact Nat.compare_eq_eq.trans BitVec.toNat_inj
  · exact Int.compare_eq_eq.trans BitVec.toInt_inj

theorem order_isLT : (order signed x y).isLT = if signed then x.slt y else x.ult y := by
  rw [Bool.eq_iff_iff, Ordering.isLT_iff_eq_lt]
  cases signed
  · exact Nat.compare_eq_lt.trans BitVec.ult_iff_toNat_lt.symm
  · exact Int.compare_eq_lt.trans BitVec.slt_iff_toInt_lt.symm

theorem order_isLE : (order signed x y).isLE = if signed then x.sle y else x.ule y := by
  rw [Bool.eq_iff_iff]
  cases signed
  · exact Nat.isLE_compare.trans BitVec.ule_iff_toNat_le.symm
  · exact Int.isLE_compare.trans BitVec.sle_iff_toInt_le.symm

theorem order_swap : (order signed x y).swap = order signed y x := by
  cases signed
  · exact Nat.compare_swap _ _
  · exact Int.compare_swap _ _

end Order

end TypedCore
