import TypedCore.Proofs.Types.Conversions

/-!
# Conversions of aggregates

Arrays are converted from arrays of the same dimension only, and structs from themselves: `t.Carries src dst`.
What the elements are converted from and to is not said.
-/

namespace TypedCore

namespace TypeTable

variable {t t' : TypeTable} {src dst a b : TypeId}

/-- Equal types are of the same shape, apart from the parts of pointers, arrays and functions. -/
theorem equals_cases (h : t.equals a b = true) :
    t.shape b = t.shape a ∨
    (∃ x y, t.shape a = .pointer (some x) ∧ t.shape b = .pointer (some y)) ∨
    (∃ x y n, t.shape a = .array x n ∧ t.shape b = .array y n ∧ t.equals x y = true) ∨
    ∃ r ps v, (∃ r' ps' v', t.shape a = .function r' ps' v') ∧ t.shape b = .function r ps v := by
  rw [equals_eq] at h
  split at h
  · rename_i hu
    exact .inl (by rw [shape, shape, hu])
  · split at h
    · cases h
    · unfold Shape.sameParts at h
      split at h
      · rename_i x y ha hb
        exact .inr (.inl ⟨x, y, ha, hb⟩)
      · rename_i x n y m ha hb
        obtain ⟨hn, hxy⟩ := Bool.and_eq_true_iff.1 h
        obtain rfl := of_decide_eq_true hn
        exact .inr (.inr (.inl ⟨x, y, n, ha, hb, hxy⟩))
      · rename_i r ps v r' ps' v' ha hb
        exact .inr (.inr (.inr ⟨r', ps', v', ⟨r, ps, v, ha⟩, hb⟩))
      · rename_i i j ha hb
        obtain rfl : i = j := by simpa using h
        exact .inl (hb.trans ha.symm)
      · cases h

/-- If `dst` is an array, `src` is one of that dimension, and if it is a struct, `src` is the same one. -/
structure Carries (t : TypeTable) (src dst : TypeId) : Prop where
  array : ∀ g n, t.shape dst = .array g n → ∃ f, t.shape src = .array f n
  struct : ∀ id, t.shape dst = .struct id → t.shape src = .struct id

namespace Carries

theorem mono (h : t.Carries src dst) (hsrc : t.Has src) (hdst : t.Has dst) (ht : t ≤ t') : t'.Carries src dst := by
  constructor
  · rw [hsrc.shape_eq ht, hdst.shape_eq ht]
    exact h.array
  · rw [hsrc.shape_eq ht, hdst.shape_eq ht]
    exact h.struct

/-- Only the shapes count. -/
theorem congr {src' dst' : TypeId} (h : t.Carries src dst) (hsrc : t.shape src' = t.shape src)
    (hdst : t.shape dst' = t.shape dst) : t.Carries src' dst' :=
  ⟨fun g n hg => hsrc ▸ h.array g n (hdst ▸ hg), fun id hid => hsrc ▸ h.struct id (hdst ▸ hid)⟩

theorem of_shape {shape : Shape} (hdst : t.shape dst = shape) (harray : ∀ g n, shape ≠ .array g n)
    (hstruct : ∀ id, shape ≠ .struct id) : t.Carries src dst :=
  ⟨fun g n h => absurd (hdst.symm.trans h) (harray g n), fun id h => absurd (hdst.symm.trans h) (hstruct id)⟩

theorem of_array {f g : TypeId} {n : Nat} (hsrc : t.shape src = .array f n) (hdst : t.shape dst = .array g n) :
    t.Carries src dst := by
  constructor
  · intro g' n' h
    cases hdst.symm.trans h
    exact ⟨f, hsrc⟩
  · intro id h
    cases hdst.symm.trans h

theorem of_equals (h : t.equals a b = true) : t.Carries a b := by
  rcases equals_cases h with hshape | ⟨x, y, -, hb⟩ | ⟨x, y, n, ha, hb, -⟩ | ⟨r, ps, v, -, hb⟩
  · exact ⟨fun g n hb => ⟨g, hshape.symm.trans hb⟩, fun id hb => hshape.symm.trans hb⟩
  · exact .of_shape hb nofun nofun
  · exact .of_array ha hb
  · exact .of_shape hb nofun nofun

end Carries

end TypeTable

namespace TypeM

open TypeTable

variable {t t' : TypeTable} {src dst : TypeId}

/-- The target of a conversion takes the aggregates of `src`. -/
def Carried (src : TypeId) (r : Option Conversion) (t : TypeTable) : Prop :=
  ∀ c, r = some c → t.Has c.target ∧ t.Carries src c.target

theorem Carried.none {t : TypeTable} : Yields t (pure none) (Carried src) := .pure fun _ _ _ => nofun

theorem Carried.some {b : Bool} (h : ∀ t', t ≤ t' → t'.Has dst ∧ t'.Carries src dst) :
    Yields t (pure (some ⟨dst, b⟩)) (Carried src) := by
  refine .pure fun t' ht c hc => ?_
  cases hc
  exact h t' ht

theorem convert_carries (nested : Bool) (hsrc : t.Has src) (hdst : t.Has dst) :
    Yields t (convert nested src dst) (Carried src) := by
  refine (convert_permitted nested hsrc hdst).imp fun r t' ⟨u, hu, hu', hr⟩ c hc => ?_
  have hsrc₁ := hsrc.mono hu
  have hdst₁ := hdst.mono hu
  have hscalar {shape : Shape} (hs : u.shape dst = shape) (harray : ∀ g n, shape ≠ .array g n)
      (hstruct : ∀ id, shape ≠ .struct id) : t'.Has dst ∧ t'.Carries src dst :=
    ⟨hdst₁.mono hu', .of_shape ((hdst₁.shape_eq hu').trans hs) harray hstruct⟩
  cases hr c hc with
  | same hle hle' ha hb heq =>
    have hcarries := (Carries.of_equals heq).congr ((hsrc₁.shape_eq hle).trans ha.symm)
      ((hdst₁.shape_eq hle).trans hb.symm)
    exact ⟨hdst₁.mono hu', hcarries.mono (hsrc₁.mono hle) (hdst₁.mono hle) hle'⟩
  | truth hs _ => exact hscalar hs nofun nofun
  | integer hs _ => exact hscalar hs nofun nofun
  | float hs _ => exact hscalar hs nofun nofun
  | null _ hs => exact hscalar hs nofun nofun
  | void _ hs _ => exact hscalar hs nofun nofun
  | through _ hs _ _ _ _ => exact hscalar hs nofun nofun
  | array hs hs' _ _ =>
    exact ⟨hdst₁.mono hu', .of_array ((hsrc₁.shape_eq hu').trans hs) ((hdst₁.shape_eq hu').trans hs')⟩
  | bound hs _ htarget hbounds _ _ =>
    obtain ⟨element, -, hs', -⟩ := hbounds
    exact ⟨htarget, .of_array ((hsrc₁.shape_eq hu').trans hs) hs'⟩

theorem explicitCast_carries (hsrc : t.Has src) (hdst : t.Has dst) :
    Yields t (explicitCast src dst) (Carried src) := by
  refine .bind (withConst_yields hsrc) (withConst_grows _ _) fun plainSrc t₁ h₁ hplainSrc =>
    .bind (withConst_yields (hdst.mono h₁)) (withConst_grows _ _) fun plainDst t₂ h₂ hplainDst => ?_
  have hplainSrc₂ := hplainSrc.mono (hsrc.mono h₁) h₂
  refine .bind ((convert_carries false hplainSrc₂.has hplainDst.has).and
    (convert_aims false hplainSrc₂.has hplainDst.has)) (convert_grows _ _ _)
    fun conversion t₃ h₃ ⟨hcarried, haims⟩ => ?_
  have hle := (h₁.trans h₂).trans h₃
  have hsrc₃ := hsrc.mono hle
  have hdst₃ := hdst.mono hle
  cases conversion with
  | none =>
    refine .get fun t₄ h₄ => .ite (fun h => Carried.some fun t' ht => ⟨hdst₃.mono (h₄.trans ht), ?_⟩)
      fun _ => Carried.none
    have hpointer : t₄.isPointer dst = true := by simp_all
    obtain ⟨target, hs⟩ := isPointer_iff.1 hpointer
    exact .of_shape (((hdst₃.mono h₄).shape_eq ht).trans hs) nofun nofun
  | some conversion =>
    refine .get fun t₄ h₄ => ?_
    obtain ⟨hhas, hcarries⟩ := hcarried conversion rfl
    have hhas₄ := hhas.mono h₄
    have hsrcShape := (hplainSrc₂.mono (hsrc.mono (h₁.trans h₂)) (h₃.trans h₄)).spelling.1
    have hdstShape := (hplainDst.mono (hdst.mono (h₁.trans h₂)) (h₃.trans h₄)).spelling.1
    have hcarries₄ := (hcarries.mono (hplainSrc₂.has.mono h₃) hhas h₄).congr hsrcShape.symm rfl
    split
    · exact Carried.some fun t' ht => ⟨hhas₄.mono ht, hcarries₄.mono (hsrc₃.mono h₄) hhas₄ ht⟩
    · rename_i hbound
      refine Carried.some fun t' ht => ⟨hdst₃.mono (h₄.trans ht), Carries.mono ?_ (hsrc₃.mono h₄) (hdst₃.mono h₄) ht⟩
      rcases ((haims conversion rfl).mono (hplainDst.has.mono h₃) h₄).eq_or_bounds with heq | ⟨dim, -, element, hs, -⟩
      · exact hcarries₄.congr rfl (by rw [heq, hdstShape])
      · simp [isUnboundArray, ← hdstShape, hs] at hbound

end TypeM

end TypedCore
