import TypedCore.Lowering.Layout

/-!
# Kinds and layouts by shape

What the questions about a type and its layout say once its shape is known.
-/

namespace TypedCore.TypeTable

variable {t : TypeTable} {ty : TypeId}

theorem isBool_iff : t.isBool ty = true ↔ t.shape ty = .bool := by simp [isBool]

theorem isInteger_iff : t.isInteger ty = true ↔ ∃ bits signed, t.shape ty = .integer bits signed := by
  unfold isInteger
  split
  · rename_i bits signed h
    exact ⟨fun _ => ⟨bits, signed, h⟩, fun _ => rfl⟩
  · rename_i h
    exact ⟨fun h' => (nomatch h'), fun ⟨bits, signed, h'⟩ => absurd h' (h bits signed)⟩

theorem isPointer_iff : t.isPointer ty = true ↔ ∃ target, t.shape ty = .pointer target := by
  unfold isPointer
  split
  · rename_i target h
    exact ⟨fun _ => ⟨target, h⟩, fun _ => rfl⟩
  · rename_i h
    exact ⟨fun h' => (nomatch h'), fun ⟨target, h'⟩ => absurd h' (h target)⟩

theorem isIntegral_iff :
    t.isIntegral ty = true ↔ t.shape ty = .bool ∨ ∃ bits signed, t.shape ty = .integer bits signed := by
  rw [isIntegral, Bool.or_eq_true, isBool_iff, isInteger_iff]

theorem exists_layoutWith (t : TypeTable) : ∃ struct, t.layout = t.layoutWith struct := by
  unfold layout
  cases t.structs.size <;> exact ⟨_, rfl⟩

theorem layout_bool (h : t.shape ty = .bool) : t.layout ty = .ok .i1 := by
  obtain ⟨struct, hlayout⟩ := t.exists_layoutWith
  rw [hlayout, layoutWith]
  split <;> simp_all

theorem layout_integer {bits : Nat} {signed : Bool} (h : t.shape ty = .integer bits signed) :
    t.layout ty = .ok (.int bits) := by
  obtain ⟨struct, hlayout⟩ := t.exists_layoutWith
  rw [hlayout, layoutWith]
  split <;> simp_all

end TypedCore.TypeTable
