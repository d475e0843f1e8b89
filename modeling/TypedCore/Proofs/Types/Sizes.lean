import TypedCore.Proofs.Types.Layouts

/-!
# Sizes of layouts

The layout of a type that has a size takes up a number of bytes. This number is zero for exactly the types that have
nothing in them at any depth (`Vacant`): structs without members, and arrays and structs of such.
-/

namespace TypedCore

open Ir (Ty)

namespace TypeTable

variable {t : TypeTable} {ty element : TypeId} {ir : Ty}

/-- There is nothing in the objects of a type. -/
inductive Vacant (t : TypeTable) : TypeId → Prop
  | array {ty element : TypeId} {dim : Nat} (hs : t.shape ty = .array element dim) (h : Vacant t element) : Vacant t ty
  | struct {ty : TypeId} {id : StructId} {ms : List Member} (hs : t.shape ty = .struct id)
      (hms : (t.struct id).members = some ms) (h : ∀ m ∈ ms, Vacant t m.ty) : Vacant t ty

theorem vacant_array_iff {dim : Nat} (hs : t.shape ty = .array element dim) : t.Vacant ty ↔ t.Vacant element := by
  refine ⟨fun h => ?_, .array hs⟩
  cases h with
  | array hs' h =>
    cases hs.symm.trans hs'
    exact h
  | struct hs' => cases hs.symm.trans hs'

theorem vacant_struct_iff {id : StructId} {ms : List Member} (hs : t.shape ty = .struct id)
    (hms : (t.struct id).members = some ms) : t.Vacant ty ↔ ∀ m ∈ ms, t.Vacant m.ty := by
  refine ⟨fun h => ?_, .struct hs hms⟩
  cases h with
  | array hs' => cases hs.symm.trans hs'
  | struct hs' hms' h =>
    cases hs.symm.trans hs'
    cases hms.symm.trans hms'
    exact h

/-- Something is in objects that are neither arrays nor structs. -/
theorem not_vacant (hflat : ∀ element dim, t.shape ty ≠ .array element dim) (hne : ∀ id, t.shape ty ≠ .struct id) :
    ¬ t.Vacant ty := by
  rintro (⟨hs, -⟩ | ⟨hs, -, -⟩)
  · exact hflat _ _ hs
  · exact hne _ hs

theorem size?_int (bits : Nat) : ∃ size, (Ty.int bits).size? = some size ∧ size ≠ 0 := by
  unfold Ty.int
  split
  all_goals exact ⟨_, rfl, by decide⟩

/-- Scalars take up at least a byte. -/
theorem size?_of_scalar {struct : TypeId → StructId → Except Fault Ty} (hsize : t.hasSize ty = true)
    (hflat : ∀ element dim, t.shape ty ≠ .array element dim) (hne : ∀ id, t.shape ty ≠ .struct id)
    (h : t.layoutWith struct ty = .ok ir) : ∃ size, ir.size? = some size ∧ size ≠ 0 := by
  rw [hasSize_eq] at hsize
  have hpointer {target? : Option TypeId} (hs : t.shape ty = .pointer target?) := layoutWith_pointer hs h
  rw [layoutWith_eq] at h
  cases hs : t.shape ty with
  | void | function => simp [hs] at hsize
  | array element dim => exact absurd hs (hflat element dim)
  | struct id => exact absurd hs (hne id)
  | named name target => exact absurd hs (t.shape_ne_named ty name target)
  | bool =>
    rw [hs] at h
    cases h
    exact ⟨1, rfl, by decide⟩
  | integer bits signed =>
    rw [hs] at h
    cases h
    exact size?_int bits
  | float width =>
    rw [hs] at h
    cases width <;> cases h <;> exact ⟨_, rfl, by decide⟩
  | pointer target? =>
    obtain ⟨pointee, rfl⟩ := hpointer hs
    exact ⟨8, rfl, by decide⟩

/-- The fields of a struct take up what each of them does. -/
theorem sizes?_of_fields {ms : List Member} {fields : List Ty}
    (h : List.Forall₂ (fun m field => ∃ size, field.size? = some size ∧ (size = 0 ↔ t.Vacant m.ty)) ms fields) :
    ∃ size, Ty.sizes? fields = some size ∧ (size = 0 ↔ ∀ m ∈ ms, t.Vacant m.ty) := by
  induction h with
  | nil => exact ⟨0, rfl, by simp⟩
  | @cons m field ms fields hfield _ ih =>
    obtain ⟨n, hn, hzero⟩ := hfield
    obtain ⟨k, hk, hzeros⟩ := ih
    refine ⟨n + k, by simp [Ty.sizes?, hn, hk], ?_⟩
    rw [Nat.add_eq_zero_iff, hzero, hzeros, List.forall_mem_cons]

/-- What has a size takes up bytes, and none only if it is vacant. -/
theorem size?_layoutWithin (hroomy : t.Roomy) {depth : Nat} (hsize : t.hasSize ty = true)
    (h : t.layoutWithin depth ty = .ok ir) : ∃ size, ir.size? = some size ∧ (size = 0 ↔ t.Vacant ty) := by
  refine layoutWithin_induction (motive := fun _ ty ir => t.hasSize ty = true →
    ∃ size, ir.size? = some size ∧ (size = 0 ↔ t.Vacant ty)) ?_ ?_ ?_ h hsize
  · intro depth ty id ms fields hs hms hfields _
    rw [vacant_struct_iff hs hms]
    refine sizes?_of_fields (((List.forall₂_and_left _ _).2 ⟨fun m hm => hm, hfields⟩).imp fun m field hm => ?_)
    exact hm.2.2 (hroomy id ms hms m hm.1)
  · intro depth ty element dim part hs ih hsize
    rw [hasSize_eq] at hsize
    simp only [hs, Bool.and_eq_true, decide_eq_true_eq] at hsize
    obtain ⟨size, hpart, hzero⟩ := ih hsize.2
    refine ⟨size * dim, by simp [Ty.size?, hpart], ?_⟩
    rw [vacant_array_iff hs, ← hzero, Nat.mul_eq_zero]
    exact or_iff_left (Nat.ne_of_gt hsize.1)
  · intro depth ty ir hstruct harray h hsize
    obtain ⟨layout, hlayout⟩ := t.exists_layoutWithin depth
    rw [hlayout] at h
    obtain ⟨size, hsome, hpos⟩ := size?_of_scalar hsize harray hstruct h
    exact ⟨size, hsome, fun hzero => absurd hzero hpos, fun hv => absurd hv (not_vacant harray hstruct)⟩

theorem size?_layout (hroomy : t.Roomy) (hsize : t.hasSize ty = true) (h : t.layout ty = .ok ir) :
    ∃ size, ir.size? = some size ∧ (size = 0 ↔ t.Vacant ty) :=
  size?_layoutWithin hroomy hsize h

end TypeTable

end TypedCore
