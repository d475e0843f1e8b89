import TypedCore.Proofs.Folding.Kinds

/-!
# Warnings about narrow numbers

A known number that is converted to a narrower type is reported unless it survives the conversion. Whether it does is
read off the 64 bits in which it is kept. For all but a few numbers that is whether the narrower type has the number
(`Representable`). The exceptions (`Overlooked`) are the largest unsigned numbers of 64 bits where a signed type is
wanted: as 64 bits they look like small negative numbers, and these survive.
-/

namespace TypedCore

/-! ### Numbers and the bits they are kept in -/

/-- The number that 64 bits stand for in a type of the given signedness. -/
def number (signed : Bool) (v : Int64) : Int := if signed then v.toInt else v.toUInt64.toNat

/-- The numbers of an integer type. -/
def Representable (bits : Nat) (signed : Bool) (n : Int) : Prop :=
  if signed then -2 ^ bits ≤ 2 * n ∧ 2 * n < 2 ^ bits else 0 ≤ n ∧ n < 2 ^ bits

instance (bits : Nat) (signed : Bool) (n : Int) : Decidable (Representable bits signed n) :=
  inferInstanceAs (Decidable (if signed then _ else _))

/-- An unsigned number that has the bits of a negative number of the signed type that is wanted. -/
def Overlooked (signed : Bool) (bits' : Nat) (signed' : Bool) (n : Int) : Prop :=
  signed = false ∧ signed' = true ∧ 2 ^ 65 ≤ 2 * n + 2 ^ bits'

instance (signed : Bool) (bits' : Nat) (signed' : Bool) (n : Int) : Decidable (Overlooked signed bits' signed' n) :=
  inferInstanceAs (Decidable (_ ∧ _ ∧ _))

variable {v : Int64} {bits : Nat} {signed signed' : Bool}

/-- The two readings differ by the number of words of 64 bits. -/
theorem number_unsigned (v : Int64) :
    0 ≤ v.toInt ∧ number false v = v.toInt ∨ v.toInt < 0 ∧ number false v = v.toInt + 2 ^ 64 := by
  show 0 ≤ v.toBitVec.toInt ∧ (v.toBitVec.toNat : Int) = v.toBitVec.toInt ∨
    v.toBitVec.toInt < 0 ∧ (v.toBitVec.toNat : Int) = v.toBitVec.toInt + 2 ^ 64
  have hlt := v.toBitVec.isLt
  rw [BitVec.toInt_eq_toNat_cond]
  split <;> omega

theorem two_pow_le (hbits : bits < 64) : (2 : Int) ^ bits ≤ 2 ^ 63 := by
  exact_mod_cast Nat.pow_le_pow_right (n := 2) (by decide) (Nat.le_of_lt_succ hbits)

/-- Bits survive if they are those of a number of the type, read with its sign. -/
theorem wrap_eq_self_iff (hbits : bits < 64) : wrap v bits signed = v ↔ Representable bits signed v.toInt := by
  have hpow := two_pow_le hbits
  have hpos : 0 < modulus bits := Nat.two_pow_pos bits
  have hcast : (modulus bits : Int) = 2 ^ bits := Int.natCast_pow 2 bits
  rw [wrap, if_neg (Nat.not_le.2 hbits)]
  cases signed with
  | true =>
    have hle := Int.le_bmod (x := v.toInt) hpos
    have hlt := Int.bmod_lt (x := v.toInt) hpos
    rw [if_pos rfl, ← Int64.toInt_inj, Int64.toInt_ofInt_of_le (by omega) (by omega), Int.bmod_eq_iff hpos]
    simp only [Int.sub_self, Int.dvd_zero, and_true, Representable, if_true]
    omega
  | false =>
    have hne : (modulus bits : Int) ≠ 0 := by omega
    have hle := Int.emod_nonneg v.toInt hne
    have hlt := Int.emod_lt_of_pos v.toInt (show 0 < (modulus bits : Int) by omega)
    rw [if_neg Bool.false_ne_true, ← Int64.toInt_inj, Int64.toInt_ofInt_of_le (by omega) (by omega)]
    simp only [Representable, if_neg Bool.false_ne_true]
    constructor
    · omega
    · exact fun h => Int.emod_eq_of_lt h.1 (by omega)

/-- Bits survive if the type has the number, or if it is overlooked that the type does not have it. -/
theorem survives_iff (hbits : bits < 64) : wrap v bits signed' = v ↔
    Representable bits signed' (number signed v) ∨ Overlooked signed bits signed' (number signed v) := by
  rw [wrap_eq_self_iff hbits]
  have hpow := two_pow_le hbits
  have hle := v.le_toInt
  have hlt := v.toInt_lt
  cases signed with
  | true => simp [Overlooked, number]
  | false =>
    have hnumber := number_unsigned v
    cases signed' with
    | true =>
      simp only [Representable, Overlooked, if_true, true_and]
      omega
    | false =>
      have hseen : ¬ Overlooked false bits false (number false v) := fun h => Bool.false_ne_true h.2.1
      simp only [Representable, if_neg Bool.false_ne_true, hseen, or_false]
      omega

/-- A number that the type has comes out of the conversion as it is. -/
theorem number_wrap (hbits : bits < 64) (h : Representable bits signed' (number signed v)) :
    number signed' (wrap v bits signed') = number signed v := by
  rw [(survives_iff hbits).2 (.inl h)]
  have hpow := two_pow_le hbits
  have hle := v.le_toInt
  have hnumber := number_unsigned v
  have hsigned : number true v = v.toInt := rfl
  cases signed <;> cases signed' <;> simp only [Representable, if_true, if_neg Bool.false_ne_true] at h <;> omega

/-- A number that is overlooked comes out as a negative one. -/
theorem number_wrap_overlooked (hbits : bits < 64) (h : Overlooked signed bits signed' (number signed v)) :
    number signed' (wrap v bits signed') = number signed v - 2 ^ 64 := by
  rw [(survives_iff hbits).2 (.inr h)]
  obtain ⟨rfl, rfl, h⟩ := h
  have hpow := two_pow_le hbits
  have hlt := v.toInt_lt
  have hsigned : number true v = v.toInt := rfl
  have hnumber := number_unsigned v
  omega

theorem not_representable_of_overlooked {n : Int} (hbits : bits < 64) (h : Overlooked signed bits signed' n) :
    ¬ Representable bits signed' n := by
  obtain ⟨-, rfl, h⟩ := h
  have hpow := two_pow_le hbits
  simp only [Representable, if_true]
  omega

/-! ### Conversions -/

namespace TypeM

/-- Integers convert to integers of every width. -/
theorem convert_integers {t : TypeTable} {src dst : TypeId} {bits bits' : Nat} {signed signed' : Bool}
    (hsrc : t.Has src) (hdst : t.Has dst) (hs : t.shape src = .integer bits signed)
    (hs' : t.shape dst = .integer bits' signed') :
    Yields t (implicitConvert src dst) fun r _ => r = some ⟨dst, false⟩ := by
  rw [implicitConvert, convert]
  refine .get fun t₁ h₁ => .after (withConst_keeps _ _ _) (withConst_grows _ _) fun a t₂ h₂ =>
    .after (withConst_keeps _ _ _) (withConst_grows _ _) fun b t₃ h₃ =>
    .get fun t₄ h₄ => .ite (fun _ => .pure fun _ _ => rfl) fun _ => ?_
  have hshape := (hdst.shape_eq h₁).trans hs'
  have harith : t₁.isArithmetic src = true := by
    rw [TypeTable.isArithmetic, TypeTable.isIntegral, TypeTable.isInteger, hsrc.shape_eq h₁, hs]
    simp
  split
  all_goals simp_all
  exact .pure fun _ _ => rfl

end TypeM

/-- What is reported where part of a number may get lost. -/
def narrowed (t : TypeTable) (e : Expr) (ty : TypeId) : Diagnostic :=
  ⟨.warning, s!"conversion from '{t.name e.ty}' to '{t.name ty}'" ++ " may change value", e.span⟩

namespace Node

open Session

variable {s : Session} {e : Expr} {ty : TypeId} {bits' : Nat}

/-- A number that is converted to a narrower type is reported unless its bits survive. -/
theorem implicitCast_known (hcan : s.types.Canonical) (he : e.Elaborated s.types)
    (hwarn : s.options.warnNarrowing = true) (hty : s.types.Has ty) (hsrc : s.types.shape e.ty = .integer bits signed)
    (hdst : s.types.shape ty = .integer bits' signed') (hlt : bits' < bits)
    (hc : e.constant? s.types = some (.integer v)) :
    ∃ s', Ends (implicitCast e ty) s (.ok (.unary .cast e ⟨ty, e.span⟩)) s' ∧ s.types ≤ s'.types ∧
      s'.log = if wrap v bits' signed' = v then s.log else s.log.report (narrowed s'.types e ty) := by
  have hne : ¬ s.types.equals e.ty ty = true := by
    intro heq
    have hshape := TypeTable.shape_eq_of_parts_nil heq (by rw [hsrc]; rfl)
    rw [hsrc, hdst] at hshape
    cases hshape
    exact Nat.lt_irrefl _ hlt
  have hfun : s.types.isFunction e.ty = false := by rw [TypeTable.isFunction, hsrc]
  have hconv := (TypeM.convert_integers he.has hty hsrc hdst le_rfl hcan).2
  have hle : s.types ≤ (TypeM.implicitConvert e.ty ty s.types).2 := (TypeM.convert_grows _ _ _ _).le
  generalize hrun : TypeM.implicitConvert e.ty ty s.types = run at hconv hle
  obtain ⟨r, t⟩ := run
  obtain rfl : r = some ⟨ty, false⟩ := hconv
  have hnarrow : Typing.isNarrowing t e ty = !(wrap v bits' signed' == v) := by
    have hc' := (Expr.constant?_of_le hle he.coherent.inRange).trans hc
    simp [Typing.isNarrowing, Typing.isNarrower, Typing.survives, he.has.shape_eq hle, hty.shape_eq hle, hsrc, hdst,
      hc', hlt]
  refine ⟨{ s with types := t, log := if wrap v bits' signed' = v then s.log else s.log.report (narrowed t e ty) },
    check_ok_iff.2 ?_, hle, rfl⟩
  unfold Typing.implicitCast
  rw [currentTypes_bind_iff, if_neg hne, hfun, Bool.false_and, if_neg Bool.false_ne_true]
  refine Ends.bind_ok_iff.2 ⟨e, s, Ends.pure_iff.2 ⟨rfl, rfl⟩, ?_⟩
  refine Ends.bind_ok_iff.2 ⟨some ⟨ty, false⟩, { s with types := t }, ?_, ?_⟩
  · rw [onTypes_iff, hrun]
    exact ⟨rfl, rfl⟩
  · rw [currentTypes_bind_iff]
    simp only [Bool.false_eq_true, if_false]
    rw [Ends.get_bind_iff, hwarn, hnarrow, Bool.true_and]
    by_cases hv : wrap v bits' signed' = v
    · rw [if_neg (by simp [hv]), if_pos hv]
      exact Ends.pure_iff.2 ⟨rfl, rfl⟩
    · rw [if_pos (by simpa using hv), if_neg hv]
      exact Ends.modify_bind_iff.2 (Ends.pure_iff.2 ⟨rfl, rfl⟩)

end Node

/-- Warnings about known numbers are right but for those that are overlooked. With warnings about narrow numbers on, an
integer without braces that is known is converted to every narrower integer type; a warning is reported unless the type
has the number, or it is overlooked that it does not. A number that the type has comes out of the conversion as it is,
and one that is overlooked comes out less by the number of words of 64 bits. -/
theorem narrowing_warning_iff {s : Session} {es : List Expr} (h : s.Reachable es) {e : Expr} (he : e ∈ es)
    (hplain : e.All fun n => n.isAggregate = false) (hwarn : s.options.warnNarrowing = true) {ty : TypeId}
    (hty : s.types.Has ty) {bits bits' : Nat} {signed signed' : Bool} (hsrc : s.types.shape e.ty = .integer bits signed)
    (hdst : s.types.shape ty = .integer bits' signed') (hbits : bits ≤ 64) (hlt : bits' < bits) {c : Constant}
    (hc : e.constant? s.types = some c) :
    ∃ v cast s' v', c = .integer v ∧ Ends (Node.implicitCast e ty) s (.ok cast) s' ∧ cast.ty = ty ∧
      cast.constant? s'.types = some (.integer v') ∧
      (s'.log = if Representable bits' signed' (number signed v) ∨ Overlooked signed bits' signed' (number signed v)
        then s.log else s.log.report (narrowed s'.types e ty)) ∧
      (Representable bits' signed' (number signed v) → number signed' v' = number signed v) ∧
      (Overlooked signed bits' signed' (number signed v) →
        ¬ Representable bits' signed' (number signed v) ∧ number signed' v' = number signed v - 2 ^ 64) := by
  have helaborated := h.elaborated e he
  have hbits' : bits' < 64 := Nat.lt_of_lt_of_le hlt hbits
  obtain ⟨v, rfl⟩ := Expr.exists_integer helaborated hplain hsrc hc
  obtain ⟨s', hends, hle, hlog⟩ := Node.implicitCast_known h.sound.1.canonical helaborated hwarn hty hsrc hdst hlt hc
  refine ⟨v, _, s', wrap v bits' signed', rfl, hends, rfl, ?_, ?_, number_wrap hbits', fun hover => ⟨?_, ?_⟩⟩
  · have hc' := (Expr.constant?_of_le hle helaborated.coherent.inRange).trans hc
    simp only [Expr.constant?, hc', Option.bind_eq_bind, Option.bind_some, TypeTable.unaryConstant?,
      TypeTable.convertConstant?, hty.shape_eq hle, hdst]
  · have hsurvives : wrap v bits' signed' = v ↔ Representable bits' signed' (number signed v) ∨
        Overlooked signed bits' signed' (number signed v) := survives_iff hbits'
    simp only [hlog, hsurvives]
  · exact not_representable_of_overlooked hbits' hover
  · exact number_wrap_overlooked hbits' hover

namespace Narrow

open Session

/-- Unsigned numbers of 64 bits, and signed ones of 8 and 32. -/
def session : Session :=
  (History.run [.types [.integer 64 false, .integer 8 true, .integer 32 true]]).session

/-- A number of 64 bits, written with its type. -/
def long (v : Int64) : Expr := .literal (.integer v) ⟨⟨0⟩, default⟩

def expressions : List Expr := [long (-1), long 300]

theorem long_ends (v : Int64) :
    Ends (Node.typedInteger v ⟨0⟩ default) session (.ok (long v)) session := by
  unfold Node.typedInteger
  rw [currentTypes_bind_iff, if_pos (by decide +kernel)]
  exact Ends.pure_iff.2 ⟨rfl, rfl⟩

theorem session_reachable : session.Reachable expressions :=
  .construct (.construct (History.run_reachable _) (.typedInteger _ _ _) (long_ends 300)) (.typedInteger _ _ _)
    (long_ends (-1))

theorem long_shape : session.types.shape ⟨0⟩ = .integer 64 false := by decide +kernel

theorem long_constant (v : Int64) : (long v).constant? session.types = some (.integer v) := by
  simp [long, Expr.constant?, TypeTable.literalConstant?, TypeTable.integerConstant?, long_shape, wrap]

end Narrow

open Narrow in
/-- 300 is reported where a byte is wanted. -/
theorem narrowed_count_reported :
    (session.Reachable expressions ∧ long 300 ∈ expressions ∧ (long 300).All (fun n => n.isAggregate = false) ∧
      session.options.warnNarrowing = true ∧ session.types.Has ⟨1⟩ ∧
      session.types.shape (long 300).ty = .integer 64 false ∧ session.types.shape ⟨1⟩ = .integer 8 true ∧
      (long 300).constant? session.types = some (.integer 300)) ∧
    ∃ cast s', Ends (Node.implicitCast (long 300) ⟨1⟩) session (.ok cast) s' ∧
      s'.log = session.log.report (narrowed s'.types (long 300) ⟨1⟩) := by
  have hmem : long 300 ∈ expressions := by simp [expressions]
  have hbyte : session.types.Has ⟨1⟩ := by decide +kernel
  have hshape : session.types.shape ⟨1⟩ = .integer 8 true := by decide +kernel
  obtain ⟨v, cast, s', v', hv, hends, -, -, hlog, -⟩ := narrowing_warning_iff session_reachable hmem rfl rfl hbyte
    long_shape hshape (by decide) (by decide) (long_constant 300)
  cases hv
  rw [if_neg (by decide +kernel)] at hlog
  exact ⟨⟨session_reachable, hmem, rfl, rfl, hbyte, long_shape, hshape, long_constant 300⟩, cast, s', hends, hlog⟩

open Narrow in
/-- The largest unsigned number of 64 bits is not reported where a signed number of 32 bits is wanted, and becomes
`-1`. -/
theorem largest_number_not_reported :
    (session.Reachable expressions ∧ long (-1) ∈ expressions ∧ session.options.warnNarrowing = true) ∧
    (session.types.shape (long (-1)).ty = .integer 64 false ∧ session.types.shape ⟨2⟩ = .integer 32 true) ∧
    (long (-1)).constant? session.types = some (.integer (-1)) ∧ number false (-1) = 2 ^ 64 - 1 ∧
    ¬ Representable 32 true (number false (-1)) ∧
    ∃ s', Ends (Node.implicitCast (long (-1)) ⟨2⟩) session (.ok (.unary .cast (long (-1)) ⟨⟨2⟩, default⟩)) s' ∧
      s'.log = session.log := by
  have hmem : long (-1) ∈ expressions := by simp [expressions]
  have hint : session.types.Has ⟨2⟩ := by decide +kernel
  have hshape : session.types.shape ⟨2⟩ = .integer 32 true := by decide +kernel
  obtain ⟨s', hends, -, hlog⟩ := Node.implicitCast_known session_reachable.sound.1.canonical
    (session_reachable.elaborated _ hmem) rfl hint long_shape hshape (by decide) (long_constant (-1))
  rw [if_pos (by decide +kernel)] at hlog
  exact ⟨⟨session_reachable, hmem, rfl⟩, ⟨long_shape, hshape⟩, long_constant (-1), by decide +kernel, by decide +kernel,
    s', hends, hlog⟩

end TypedCore
