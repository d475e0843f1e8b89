import TypedCore.Proofs.Types.Shapes
import TypedCore.Proofs.Types.Stability

/-!
# Results of conversions

How a conversion comes to be permitted (`Permits`), and where it ends: at the type that is wanted, and only where
an array without bound is wanted at that array with the dimension of the source. The common type of two operands
is not const.
-/

namespace TypedCore

namespace TypeTable

variable {t t' : TypeTable} {ty ty' a b : TypeId}

theorem shape_unalias (t : TypeTable) (ty : TypeId) : t.shape (t.unalias ty) = t.shape ty :=
  shape_of_not_named (t.shape_ne_named ty)

/-! ### Kinds of equal types -/

theorem isArithmetic_congr (h : t.shape a = t'.shape b) : t.isArithmetic a = t'.isArithmetic b := by
  simp only [isArithmetic, isIntegral, isBool, isInteger, isFloat, h]

theorem dim?_congr (h : t.shape a = t'.shape b) : t.dim? a = t'.dim? b := by
  rw [dim?, dim?, h]

/-- Numbers of equal types are of one shape. -/
theorem shape_of_equals (h : t.equals a b = true)
    (harith : t.isArithmetic a = true ∨ t.isArithmetic b = true) : t.shape a = t.shape b := by
  rw [equals] at h
  split at h
  · rename_i hu
    rw [shape, shape, hu]
  · split at h
    · cases h
    · split at h
      all_goals simp_all [isArithmetic, isIntegral, isBool, isInteger, isFloat]

theorem dim?_of_equals (h : t.equals a b = true) : t.dim? a = t.dim? b := by
  rw [equals] at h
  split at h
  · rename_i hu
    rw [dim?, dim?, shape, shape, hu]
  · split at h
    · cases h
    · split at h
      all_goals simp_all [dim?]

theorem not_isArithmetic_of_isArray (h : t.isArray a = true) : ¬ t.isArithmetic a = true := by
  unfold isArray at h
  split at h
  · simp_all [isArithmetic, isIntegral, isBool, isInteger, isFloat]
  · cases h

theorem not_isArithmetic_of_isPointer (h : t.isPointer a = true) : ¬ t.isArithmetic a = true := by
  unfold isPointer at h
  split at h
  · simp_all [isArithmetic, isIntegral, isBool, isInteger, isFloat]
  · cases h

theorem isArithmetic_of_isIntegral (h : t.isIntegral a = true) : t.isArithmetic a = true := by
  rw [isArithmetic, h, Bool.true_or]

theorem isArithmetic_of_isFloat (h : t.isFloat a = true) : t.isArithmetic a = true := by
  rw [isArithmetic, h, Bool.or_true]

theorem isBool_of_number (h : t.isInteger a = true ∨ t.isFloat a = true) : t.isBool a = false := by
  by_contra hbool
  have hs := isBool_iff.1 (Bool.not_eq_false _ ▸ hbool)
  simp [isInteger, isFloat, hs] at h

theorem isPointer_of_isArithmetic (h : t.isArithmetic a = true) : t.isPointer a = false :=
  Bool.eq_false_iff.2 fun hp => not_isArithmetic_of_isPointer hp h

theorem dim?_of_isPointer (h : t.isPointer a = true) : t.dim? a = none := by
  unfold isPointer at h
  split at h
  · rename_i hs
    rw [dim?, hs]
  · cases h

theorem isArray_of_isPointer (h : t.isPointer a = true) : t.isArray a = false := by
  unfold isPointer at h
  split at h
  · rename_i hs
    rw [isArray, hs]
  · cases h

theorem dim?_of_isFunction (h : t.isFunction a = true) : t.dim? a = none := by
  unfold isFunction at h
  split at h
  · rename_i hs
    rw [dim?, hs]
  · cases h

theorem dim?_of_isStruct (h : t.isStruct a = true) : t.dim? a = none := by
  unfold isStruct at h
  split at h
  · rename_i hs
    rw [dim?, hs]
  · cases h

theorem dim?_of_not_isArray (h : t.isArray a = false) : t.dim? a = none := by
  unfold isArray at h
  unfold dim?
  split <;> simp_all

theorem dim?_of_isArithmetic (h : t.isArithmetic a = true) : t.dim? a = none := by
  unfold dim?
  split
  · rename_i hs
    simp [isArithmetic, isIntegral, isBool, isInteger, isFloat, hs] at h
  · rfl

/-! ### Arrays without bound -/

/-- `ty` is an array without bound, and `ty'` is that array with the dimension `dim`. -/
def Bounds (t : TypeTable) (ty : TypeId) (dim : Nat) (ty' : TypeId) : Prop :=
  ∃ element, t.shape ty = .array element 0 ∧ t.shape ty' = .array element dim ∧ t.isConst ty' = t.isConst ty

namespace Bounds

variable {dim : Nat}

theorem mono (h : t.Bounds ty dim ty') (hty : t.Has ty) (hty' : t.Has ty') (ht : t ≤ t') :
    t'.Bounds ty dim ty' := by
  obtain ⟨element, hs, hs', hconst⟩ := h
  exact ⟨element, (hty.shape_eq ht).trans hs, (hty'.shape_eq ht).trans hs',
    by rw [hty'.isConst_eq ht, hty.isConst_eq ht, hconst]⟩

theorem dim?_eq (h : t.Bounds ty dim ty') : t.dim? ty = some 0 := by
  obtain ⟨element, hs, -⟩ := h
  rw [dim?, hs]

/-- With dimension 0 an array is again without bound. -/
theorem equals (h : t.Bounds ty 0 ty') : t.equals ty' ty = true := by
  obtain ⟨element, hs, hs', hconst⟩ := h
  have hsame : t.equals element element = true := by rw [equals_eq, if_pos rfl]
  rw [equals_eq]
  split
  · rfl
  · rw [if_neg (not_not_intro hconst), hs, hs']
    simp [Shape.sameParts, hsame]

end Bounds

/-! ### Common types -/

/-- What is known of a common type of `a` and `b`. -/
structure Common (t : TypeTable) (a b ty : TypeId) : Prop where
  has : t.Has ty
  isConst_eq : t.isConst ty = false
  isArithmetic : t.isArithmetic a = true → t.isArithmetic b = true → t.isArithmetic ty = true
  dim?_eq : ∀ dim, t.dim? ty = some dim → t.dim? a = some dim ∧ t.dim? b = some dim

namespace Common

theorem symm (h : t.Common a b ty) : t.Common b a ty :=
  ⟨h.has, h.isConst_eq, fun hb ha => h.isArithmetic ha hb, fun dim hdim => (h.dim?_eq dim hdim).symm⟩

/-- Only the shapes of the operands count. -/
theorem congr {a' b' : TypeId} (h : t.Common a b ty) (ha : t.shape a = t.shape a') (hb : t.shape b = t.shape b') :
    t.Common a' b' ty where
  has := h.has
  isConst_eq := h.isConst_eq
  isArithmetic ha' hb' := h.isArithmetic ((isArithmetic_congr ha).trans ha') ((isArithmetic_congr hb).trans hb')
  dim?_eq dim hdim := by
    rw [← dim?_congr ha, ← dim?_congr hb]
    exact h.dim?_eq dim hdim

theorem mono (h : t.Common a b ty) (ha : t.Has a) (hb : t.Has b) (ht : t ≤ t') : t'.Common a b ty where
  has := h.has.mono ht
  isConst_eq := (h.has.isConst_eq ht).trans h.isConst_eq
  isArithmetic ha' hb' := by
    rw [isArithmetic_congr (ha.shape_eq ht)] at ha'
    rw [isArithmetic_congr (hb.shape_eq ht)] at hb'
    rw [isArithmetic_congr (h.has.shape_eq ht)]
    exact h.isArithmetic ha' hb'
  dim?_eq dim hdim := by
    rw [h.has.dim?_eq ht] at hdim
    rw [ha.dim?_eq ht, hb.dim?_eq ht]
    exact h.dim?_eq dim hdim

/-- A type that is no array, and a number if both operands are. -/
theorem of_dim? (hty : t.Has ty) (hconst : t.isConst ty = false) (hdim : t.dim? ty = none)
    (harith : t.isArithmetic a = true → t.isArithmetic b = true → t.isArithmetic ty = true) : t.Common a b ty :=
  ⟨hty, hconst, harith, fun dim h => by rw [hdim] at h; cases h⟩

variable {x : TypeId}

/-- The type of an operand without its flag, if the operands are equal apart from that, -/
theorem of_equals {y : TypeId} (hx : t.Qualified a false x) (hy : t.Qualified b false y)
    (h : t.equals x y = true) : t.Common a b x := by
  obtain ⟨hshape, hconst, -⟩ := hx.spelling
  refine ⟨hx.has, hconst, fun ha _ => (isArithmetic_congr hshape).trans ha, fun dim hdim => ?_⟩
  rw [← dim?_congr hshape, ← dim?_congr hy.spelling.1, ← dim?_of_equals h]
  exact ⟨hdim, hdim⟩

/-- if it is a number, -/
theorem of_isArithmetic (hx : t.Qualified a false x) (h : t.isArithmetic a = true) : t.Common a b x := by
  obtain ⟨hshape, hconst, -⟩ := hx.spelling
  rw [← isArithmetic_congr hshape] at h
  exact of_dim? hx.has hconst (dim?_of_isArithmetic h) fun _ _ => h

/-- or if it is a pointer. -/
theorem of_isPointer (hx : t.Qualified a false x) (h : t.isPointer a = true) : t.Common a b x := by
  obtain ⟨hshape, hconst, -⟩ := hx.spelling
  refine of_dim? hx.has hconst ?_ fun ha _ => absurd ha (not_isArithmetic_of_isPointer h)
  rw [dim?_congr hshape, dim?_of_isPointer h]

end Common

end TypeTable

namespace TypeM

open TypeTable

variable {t t' : TypeTable} {ty ty' src dst a b : TypeId} {dim? : Option Nat}

/-! ### Conversions -/

/-- Where `ty` is wanted and `dim?` is the dimension of the source, `ty'` is taken. -/
structure Serves (t : TypeTable) (dim? : Option Nat) (ty' ty : TypeId) : Prop where
  has : t.Has ty'
  eq_or_bounds : ty' = ty ∨ ∃ dim, dim? = some dim ∧ t.Bounds ty dim ty'

theorem Serves.refl (h : t.Has ty) : Serves t dim? ty ty := ⟨h, .inl rfl⟩

theorem Serves.mono (h : Serves t dim? ty' ty) (hty : t.Has ty) (ht : t ≤ t') : Serves t' dim? ty' ty :=
  ⟨h.has.mono ht, h.eq_or_bounds.imp_right fun ⟨dim, hdim, hbounds⟩ =>
    ⟨dim, hdim, hbounds.mono hty h.has ht⟩⟩

/-- An array without bound is given one. -/
theorem bindArray_bounds {dim : Nat} {element : TypeId} (h : bindArray ty dim t = (ty', t')) (hc : t.Canonical)
    (hty : t.Has ty) (hs : t.shape ty = .array element 0) :
    t'.Canonical ∧ t'.Has ty' ∧ t'.Bounds ty dim ty' := by
  have hle := (bindArray_grows ty dim).le h
  obtain ⟨_, _, hget, h⟩ := bind_eq.1 h
  cases hget
  rw [hs] at h
  obtain ⟨bound, t₁, hbound, h⟩ := bind_eq.1 h
  have hparts : ∀ p ∈ (Shape.array element dim).parts, t.Has p := fun p hp => hty.part (by rw [hs]; exact hp)
  obtain ⟨hc₁, hhas, hplain⟩ := intern_plain hbound hc hparts nofun
  obtain ⟨hc', hqualified⟩ := withConst_qualified h hc₁ hhas
  obtain ⟨hshape', hconst, -⟩ := hqualified.spelling
  refine ⟨hc', hqualified.has, element, ?_, ?_, ?_⟩
  · rw [hty.shape_eq hle, hs]
  · rw [hshape', hhas.shape_eq ((withConst_grows _ _).le h), hplain.shape_eq]
  · rw [hconst, hty.isConst_eq hle]

/-- Other types stay as they are. -/
theorem bindArray_eq {dim : Nat} (h : bindArray ty dim t = (ty', t'))
    (hs : ∀ element, t.shape ty ≠ .array element 0) : ty' = ty ∧ t' = t := by
  obtain ⟨_, _, hget, h⟩ := bind_eq.1 h
  cases hget
  cases hshape : t.shape ty with
  | array element n =>
    cases n with
    | zero => exact absurd hshape (hs element)
    | succ n =>
      rw [hshape] at h
      cases h
      exact ⟨rfl, rfl⟩
  | _ =>
    rw [hshape] at h
    cases h
    exact ⟨rfl, rfl⟩

theorem bindArray_serves {dim : Nat} (h : bindArray ty dim t = (ty', t')) (hc : t.Canonical) (hty : t.Has ty) :
    t'.Canonical ∧ Serves t' (some dim) ty' ty := by
  by_cases hs : ∃ element, t.shape ty = .array element 0
  · obtain ⟨element, hs⟩ := hs
    obtain ⟨hc', hhas, hbounds⟩ := bindArray_bounds h hc hty hs
    exact ⟨hc', hhas, .inr ⟨dim, rfl, hbounds⟩⟩
  · obtain ⟨rfl, rfl⟩ := bindArray_eq h (not_exists.1 hs)
    exact ⟨hc, .refl hty⟩

theorem bindArray_yields {dim : Nat} (hty : t.Has ty) :
    Yields t (bindArray ty dim) fun ty' t' => Serves t' (some dim) ty' ty :=
  .of_spec fun _ _ _ ht hc h => bindArray_serves h hc (hty.mono ht)

theorem bindArray_yields_bounds {element : TypeId} {dim : Nat} (hdst : t.Has dst)
    (hs : t.shape dst = .array element 0) :
    Yields t (bindArray dst dim) fun ty t' => t'.Has ty ∧ t'.Bounds dst dim ty :=
  .of_spec fun _ _ _ ht hc h => bindArray_bounds h hc (hdst.mono ht) ((hdst.shape_eq ht).trans hs)

/-! Conversions keep a table canonical whatever they are asked for. -/

theorem equalsUnqualified_keeps (t₀ : TypeTable) (a b : TypeId) : Keeps t₀ (equalsUnqualified a b) :=
  .after (withConst_keeps _ _ _) (withConst_grows _ _) fun _ _ _ =>
    .after (withConst_keeps _ _ _) (withConst_grows _ _) fun _ _ _ => .get fun _ _ => .pure fun _ _ => trivial

theorem throughPointer_keeps (t₀ : TypeTable) (outer : Conversion) (f g : TypeId) :
    ∀ inner, Keeps t₀ (throughPointer outer f g inner)
  | none => .pure fun _ _ => trivial
  | some _ => .after (equalsUnqualified_keeps _ _ _) (equalsUnqualified_grows _ _) fun _ _ _ =>
    .ite (fun _ => .pure fun _ _ => trivial) fun _ => .pure fun _ _ => trivial

theorem bindArray_keeps (t₀ : TypeTable) (ty : TypeId) (dim : Nat) : Keeps t₀ (bindArray ty dim) := by
  refine .of_spec fun t ty' t' _ hc h => ⟨?_, trivial⟩
  by_cases hs : ∃ element, t.shape ty = .array element 0
  · obtain ⟨element, hs⟩ := hs
    exact (bindArray_bounds h hc (has_of_shape (by rw [hs]; exact nofun)) hs).1
  · obtain ⟨-, rfl⟩ := bindArray_eq h (not_exists.1 hs)
    exact hc

theorem convert_keeps (t₀ : TypeTable) (nested : Bool) (src dst : TypeId) : Keeps t₀ (convert nested src dst) := by
  have hpure {t : TypeTable} (r : Option Conversion) : Keeps t (pure r : TypeM (Option Conversion)) :=
    .pure fun _ _ => trivial
  induction hn : src.index using Nat.strongRecOn generalizing t₀ nested src dst with
  | ind n ih =>
    subst hn
    have hpart {t t₁ : TypeTable} {p : TypeId} (nested : Bool) (g : TypeId) (hp : p ∈ (t.shape src).parts) :
        Keeps t₁ (convert nested p g) := ih _ (t.shape_part_lt hp) _ _ _ _ rfl
    rw [convert]
    refine .get fun t _ => .after (withConst_keeps _ _ _) (withConst_grows _ _) fun _ _ _ =>
      .after (withConst_keeps _ _ _) (withConst_grows _ _) fun _ _ _ => .get fun _ _ =>
      .ite (fun _ => hpure _) fun _ => ?_
    split
    · exact hpure _
    · exact hpure _
    · exact hpure _
    · exact hpure _
    · rename_i f g hsrc _
      refine .ite (fun _ => hpure _) fun _ => .after (hpart (t := t) _ _ (by simp [hsrc, Shape.parts]))
        (convert_grows _ _ _) fun _ _ _ => throughPointer_keeps _ _ _ _ _
    · rename_i f n g hsrc _
      exact .after (hpart (t := t) _ _ (by simp [hsrc, Shape.parts])) (convert_grows _ _ _) fun _ _ _ =>
        throughPointer_keeps _ _ _ _ _
    · rename_i f m g n hsrc _
      refine .ite (fun _ => hpure _) fun _ => .after (hpart (t := t) _ _ (by simp [hsrc, Shape.parts]))
        (convert_grows _ _ _) fun inner _ _ => ?_
      cases inner with
      | none => exact hpure _
      | some inner =>
        exact .ite (fun _ => .after (bindArray_keeps _ _ _) (bindArray_grows _ _) fun _ _ _ => hpure _)
          fun _ => hpure _
    · exact hpure _

/-- The two are what pointers point to, and a const flag gets lost between them. -/
def losesConst (t : TypeTable) (nested : Bool) (src dst : TypeId) : Bool := nested && t.isConst src && !t.isConst dst

/-- How a conversion from `src` to `dst` comes to be permitted. It is asked for in the table `t`, and `t'` is the
table after it. -/
inductive Permits (t : TypeTable) (nested : Bool) (src dst : TypeId) (t' : TypeTable) : Conversion → Prop
  /-- The two are equal without their flags. -/
  | same {u : TypeTable} {a b : TypeId} (hle : t ≤ u) (hle' : u ≤ t') (ha : u.shape a = t.shape src)
      (hb : u.shape b = t.shape dst) (heq : u.equals a b = true) :
      Permits t nested src dst t' ⟨dst, losesConst t nested src dst⟩
  | truth (hdst : t.shape dst = .bool) (hsrc : (t.isIntegral src || t.isPointer src) = true) :
      Permits t nested src dst t' ⟨dst, losesConst t nested src dst⟩
  | integer {bits : Nat} {signed : Bool} (hdst : t.shape dst = .integer bits signed)
      (hsrc : t.isArithmetic src = true) : Permits t nested src dst t' ⟨dst, losesConst t nested src dst⟩
  | float {width : FloatWidth} (hdst : t.shape dst = .float width) (hsrc : t.isArithmetic src = true) :
      Permits t nested src dst t' ⟨dst, losesConst t nested src dst⟩
  | null {g : TypeId} (hsrc : t.shape src = .pointer none) (hdst : t.shape dst = .pointer (some g)) :
      Permits t nested src dst t' ⟨dst, losesConst t nested src dst⟩
  | void {f g : TypeId} (hsrc : t.shape src = .pointer (some f)) (hdst : t.shape dst = .pointer (some g))
      (hvoid : (t.isVoid f || t.isVoid g) = true) :
      Permits t nested src dst t' ⟨dst, losesConst t nested src dst || (t.isConst f && !t.isConst g)⟩
  /-- What is pointed to can be converted, and is the same apart from its flag. -/
  | through {u v : TypeTable} {f g : TypeId} {inner : Conversion} (hsrc : t.target? src = some f)
      (hdst : t.shape dst = .pointer (some g)) (hu : t ≤ u ∧ u.Canonical)
      (hinner : (convert true f g u).1 = some inner) (hv : t ≤ v ∧ v.Canonical)
      (hsame : (equalsUnqualified f g v).1 = true) :
      Permits t nested src dst t' ⟨dst, losesConst t nested src dst || inner.discardsConst⟩
  | array {u : TypeTable} {f g : TypeId} {dim : Nat} {inner : Conversion} (hsrc : t.shape src = .array f dim)
      (hdst : t.shape dst = .array g dim) (hu : t ≤ u ∧ u.Canonical)
      (hinner : (convert nested f g u).1 = some inner) :
      Permits t nested src dst t' ⟨dst, losesConst t nested src dst || inner.discardsConst⟩
  /-- An array without bound gets that of the source. -/
  | bound {u : TypeTable} {f g target : TypeId} {dim : Nat} {inner : Conversion} (hsrc : t.shape src = .array f dim)
      (hdst : t.shape dst = .array g 0) (htarget : t'.Has target) (hbounds : t'.Bounds dst dim target)
      (hu : t ≤ u ∧ u.Canonical) (hinner : (convert nested f g u).1 = some inner) :
      Permits t nested src dst t' ⟨target, losesConst t nested src dst || inner.discardsConst⟩

/-- A result that came about in this way, in a table from `t` on. -/
def Permitted (t : TypeTable) (nested : Bool) (src dst : TypeId) (r : Option Conversion) (t' : TypeTable) : Prop :=
  ∃ u, t ≤ u ∧ u ≤ t' ∧ ∀ c, r = some c → Permits u nested src dst t' c

theorem convert_permitted (nested : Bool) (hsrc : t.Has src) (hdst : t.Has dst) :
    Yields t (convert nested src dst) (Permitted t nested src dst) := by
  rw [convert]
  refine .get fun t₁ h₁ => ?_
  have hsrc₁ := hsrc.mono h₁
  have hdst₁ := hdst.mono h₁
  have hnone {t₀ : TypeTable} (h₀ : t₁ ≤ t₀) : Yields t₀ (pure none) (Permitted t nested src dst) :=
    .pure fun _ h => ⟨t₁, h₁, h₀.trans h, by rintro _ ⟨⟩⟩
  have hsome {t₀ : TypeTable} {c : Conversion} (h₀ : t₁ ≤ t₀)
      (hc : ∀ t', t₀ ≤ t' → Permits t₁ nested src dst t' c) :
      Yields t₀ (pure (some c)) (Permitted t nested src dst) := by
    refine .pure fun t' h => ⟨t₁, h₁, h₀.trans h, fun c' hc' => ?_⟩
    cases hc'
    exact hc t' h
  have hguarded {t₀ : TypeTable} {b : Bool} {c : Conversion} (h₀ : t₁ ≤ t₀)
      (hc : b = true → ∀ t', t₀ ≤ t' → Permits t₁ nested src dst t' c) :
      Yields t₀ (pure (if b then some c else none)) (Permitted t nested src dst) := by
    cases b
    · exact hnone h₀
    · exact hsome h₀ (hc rfl)
  have hinner {t₀ : TypeTable} (b : Bool) (f g : TypeId) (h₀ : t₁ ≤ t₀) :
      Yields t₀ (convert b f g) fun r _ => ∃ u, (t₁ ≤ u ∧ u.Canonical) ∧ (convert b f g u).1 = r :=
    fun u h hc => ⟨(convert_keeps t₀ b f g h hc).1, u, ⟨h₀.trans h, hc⟩, rfl⟩
  have hthrough {t₀ : TypeTable} {f g : TypeId} (h₀ : t₁ ≤ t₀) (hs : t₁.target? src = some f)
      (hs' : t₁.shape dst = .pointer (some g)) :
      Yields t₀ (convert true f g >>= throughPointer ⟨dst, losesConst t₁ nested src dst⟩ f g)
        (Permitted t nested src dst) := by
    refine .bind (hinner true f g h₀) (convert_grows _ _ _) fun inner t₅ h₅ hinner => ?_
    obtain ⟨u, hu, hconv⟩ := hinner
    cases inner with
    | none => exact hnone (h₀.trans h₅)
    | some inner =>
      refine .bind (R := fun same _ => ∃ v, (t₁ ≤ v ∧ v.Canonical) ∧ (equalsUnqualified f g v).1 = same)
        (fun v h hc => ⟨(equalsUnqualified_keeps t₅ f g h hc).1, v, ⟨(h₀.trans h₅).trans h, hc⟩, rfl⟩)
        (equalsUnqualified_grows _ _) fun same t₆ h₆ hsame =>
        .ite (fun htrue => ?_) fun _ => hnone ((h₀.trans h₅).trans h₆)
      obtain ⟨v, hv, hsame⟩ := hsame
      subst htrue
      exact hsome ((h₀.trans h₅).trans h₆) fun t' _ => .through hs hs' hu hconv hv hsame
  refine .bind (withConst_yields hsrc₁.unalias) (withConst_grows _ _) fun a t₂ h₂ ha =>
    .bind (withConst_yields (hdst₁.unalias.mono h₂)) (withConst_grows _ _) fun b t₃ h₃ hb => .get fun t₄ h₄ => ?_
  have hle := (h₂.trans h₃).trans h₄
  refine .ite (fun heq => hsome hle fun t' h => ?_) fun _ => ?_
  · refine .same hle h ?_ ?_ heq
    · rw [(ha.mono (hsrc₁.unalias.mono h₂) (h₃.trans h₄)).spelling.1, hsrc₁.unalias.shape_eq hle, t₁.shape_unalias]
    · rw [(hb.mono (hdst₁.unalias.mono (h₂.trans h₃)) h₄).spelling.1, hdst₁.unalias.shape_eq hle, t₁.shape_unalias]
  split
  · rename_i hs
    exact hguarded hle fun h _ _ => .truth hs h
  · rename_i hs
    exact hguarded hle fun h _ _ => .integer hs h
  · rename_i hs
    exact hguarded hle fun h _ _ => .float hs h
  · rename_i hs hs'
    exact hsome hle fun _ _ => .null hs hs'
  · rename_i hs hs'
    exact .ite (fun h => hsome hle fun _ _ => .void hs hs' h) fun _ =>
      hthrough hle (by rw [target?, hs]) hs'
  · rename_i hs hs'
    exact hthrough hle (by rw [target?, hs]) hs'
  · rename_i f m g n hs hs'
    refine .ite (fun _ => hnone hle) fun hdim =>
      .bind (hinner nested f g hle) (convert_grows _ _ _) fun inner t₅ h₅ hinner => ?_
    obtain ⟨u, hu, hconv⟩ := hinner
    cases inner with
    | none => exact hnone (hle.trans h₅)
    | some inner =>
      refine .ite (fun hzero => ?_) fun hzero => ?_
      · subst hzero
        have hdst₅ := hdst₁.mono (hle.trans h₅)
        refine .bind (bindArray_yields_bounds hdst₅ ((hdst₁.shape_eq (hle.trans h₅)).trans hs')) (bindArray_grows _ _)
          fun target t₆ h₆ htarget => hsome ((hle.trans h₅).trans h₆) fun t' h => ?_
        obtain ⟨hhas, hbounds⟩ := htarget
        exact .bound hs hs' (hhas.mono h) (hbounds.mono (hdst₅.mono h₆) hhas h) hu hconv
      · obtain rfl : n = m := by simpa [hzero] using hdim
        exact hsome (hle.trans h₅) fun _ _ => .array hs hs' hu hconv
  · exact hnone hle

/-- The target of a conversion serves where `dst` is wanted. -/
def Aims (dim? : Option Nat) (dst : TypeId) (r : Option Conversion) (t : TypeTable) : Prop :=
  ∀ c, r = some c → Serves t dim? c.target dst

theorem convert_aims (nested : Bool) (hsrc : t.Has src) (hdst : t.Has dst) :
    Yields t (convert nested src dst) (Aims (t.dim? src) dst) := by
  refine (convert_permitted nested hsrc hdst).imp fun r t' ⟨u, hu, hu', hr⟩ c hc => ?_
  cases hr c hc with
  | bound hs _ htarget hbounds _ _ =>
    refine ⟨htarget, .inr ⟨_, ?_, hbounds⟩⟩
    rw [← hsrc.dim?_eq hu, TypeTable.dim?, hs]
  | _ => exact .refl (hdst.mono (hu.trans hu'))

theorem explicitCast_yields (hsrc : t.Has src) (hdst : t.Has dst) :
    Yields t (explicitCast src dst) fun r t' => ∀ c, r = some c → t'.Has c.target := by
  refine .bind (withConst_yields hsrc) (withConst_grows _ _) fun plainSrc t₁ h₁ hplainSrc =>
    .bind (withConst_yields (hdst.mono h₁)) (withConst_grows _ _) fun plainDst t₂ h₂ hplainDst =>
    .bind (convert_aims false (hplainSrc.has.mono h₂) hplainDst.has) (convert_grows _ _ _)
      fun conversion t₃ h₃ haims => ?_
  have hdst₃ := hdst.mono ((h₁.trans h₂).trans h₃)
  cases conversion with
  | none =>
    refine .get fun t₄ h₄ => .ite (fun _ => ?_) fun _ => ?_
    · refine .pure fun t₅ h₅ c hc => ?_
      cases hc
      exact hdst₃.mono (h₄.trans h₅)
    · exact .pure fun _ _ _ => nofun
  | some conversion =>
    refine .get fun t₄ h₄ => .pure fun t₅ h₅ c hc => ?_
    cases hc
    show t₅.Has (if _ then _ else _)
    split
    · exact (haims conversion rfl).has.mono (h₄.trans h₅)
    · exact hdst₃.mono (h₄.trans h₅)

/-! ### Common types -/

/-- A type that is entered as the common type of two operands. -/
theorem intern_common {shape : Shape} (ha : t.Has a) (hparts : ∀ p ∈ shape.parts, t.Has p)
    (hnamed : ∀ name target, shape ≠ .named name target) (harray : ∀ element dim, shape ≠ .array element dim)
    (harith : t.isArithmetic a = true → ∀ (t' : TypeTable) ty, t'.shape ty = shape → t'.isArithmetic ty = true)
    (hstruct : ∀ id, shape ≠ .struct id := by intro _ h; cases h) :
    Yields t (some <$> intern shape false) fun r t' => ∀ ty, r = some ty → t'.Common a b ty := by
  refine .map (.of_spec fun t₁ ty t' h₁ hc hintern => ?_)
  obtain ⟨hc', hhas, hplain⟩ := intern_plain hintern hc (fun p hp => (hparts p hp).mono h₁) hnamed
    fun id hid => absurd hid (hstruct id)
  refine ⟨hc', fun ty' hty' => ?_⟩
  cases hty'
  refine .of_dim? hhas hplain.isConst_eq ?_ fun ha' _ => ?_
  · unfold TypeTable.dim?
    split
    · rename_i element dim hs
      exact absurd (hplain.shape_eq.symm.trans hs) (harray element dim)
    · rfl
  · rw [isArithmetic_congr (ha.shape_eq (h₁.trans ((intern_grows shape hstruct).le hintern)))] at ha'
    exact harith ha' _ _ hplain.shape_eq

theorem common_yields (ha : t.Has a) (hb : t.Has b) :
    Yields t (common a b) fun r t' => ∀ ty, r = some ty → t'.Common a b ty := by
  refine .get fun t₁ h₁ => ?_
  generalize hp : (if (t₁.isIntegral a && t₁.isFloat b) = true then (b, a) else (a, b)) = p
  obtain ⟨x, y⟩ := p
  -- the operands may be swapped, which the common type does not depend on
  have hcases : x = a ∧ y = b ∨ x = b ∧ y = a := by
    split at hp
    all_goals
      cases hp
      simp
  have hx : t₁.Has x := by
    rcases hcases with ⟨rfl, -⟩ | ⟨rfl, -⟩
    · exact ha.mono h₁
    · exact hb.mono h₁
  have hy : t₁.Has y := by
    rcases hcases with ⟨-, rfl⟩ | ⟨-, rfl⟩
    · exact hb.mono h₁
    · exact ha.mono h₁
  refine .imp (R := fun r t' => ∀ ty, r = some ty → t'.Common x y ty) ?_ fun r t' h ty hty => ?_
  · refine .bind (withConst_yields hx) (withConst_grows _ _) fun plainX t₂ h₂ hX =>
      .bind (withConst_yields (hy.mono h₂)) (withConst_grows _ _) fun plainY t₃ h₃ hY => ?_
    refine .get fun t₄ h₄ => ?_
    have hx₄ := hx.mono ((h₂.trans h₃).trans h₄)
    have hy₄ := hy.mono ((h₂.trans h₃).trans h₄)
    replace hX := hX.mono (hx.mono h₂) (h₃.trans h₄)
    replace hY := hY.mono (hy.mono (h₂.trans h₃)) h₄
    have hnone : Yields t₄ (pure none) fun r t' => ∀ ty, r = some ty → t'.Common x y ty :=
      .pure fun _ _ _ => nofun
    have hkeep {ty : TypeId} (h : t₄.Common x y ty) :
        Yields t₄ (pure (some ty)) fun r t' => ∀ ty, r = some ty → t'.Common x y ty := by
      refine .pure fun t₅ h₅ ty' hty' => ?_
      cases hty'
      exact h.mono hx₄ hy₄ h₅
    refine .ite (fun heq => hkeep (.of_equals hX hY heq)) fun _ => .ite (fun harr => ?_) fun _ =>
      .ite (fun h => ?_) fun _ => .ite (fun h => ?_) fun _ => .ite (fun _ => ?_) fun _ => .ite (fun h => ?_) fun _ =>
      .ite (fun h => ?_) fun _ => hnone
    · split
      · rename_i u v hu hv
        refine .ite (fun _ => intern_common hx₄ (fun q hq => ?_) nofun nofun fun hx' => ?_) fun _ => hnone
        · obtain rfl := List.mem_singleton.1 hq
          exact hx₄.target hu
        · exact absurd hx' (not_isArithmetic_of_isArray (Bool.and_eq_true_iff.1 harr).1)
      · exact hnone
    · exact hkeep (.of_isArithmetic hX (isArithmetic_of_isFloat (Bool.and_eq_true_iff.1 h).1))
    · obtain ⟨hfx, hfy⟩ := Bool.and_eq_true_iff.1 h
      split
      · exact hkeep (.of_isArithmetic hX (isArithmetic_of_isFloat hfx))
      · exact hkeep (TypeTable.Common.symm (.of_isArithmetic hY (isArithmetic_of_isFloat hfy)))
    · refine .ite (fun _ => intern_common hx₄ nofun nofun nofun fun _ t ty hs => ?_) fun _ =>
        intern_common hx₄ nofun nofun nofun fun _ t ty hs => ?_
      · exact isArithmetic_of_isIntegral (isIntegral_iff.2 (.inl hs))
      · exact isArithmetic_of_isIntegral (isIntegral_iff.2 (.inr ⟨_, _, hs⟩))
    · exact hkeep (.of_isPointer hX (Bool.and_eq_true_iff.1 h).1)
    · exact hkeep (TypeTable.Common.symm (.of_isPointer hY (Bool.and_eq_true_iff.1 h).2))
  · rcases hcases with ⟨rfl, rfl⟩ | ⟨rfl, rfl⟩
    · exact h ty hty
    · exact (h ty hty).symm

end TypeM

end TypedCore
