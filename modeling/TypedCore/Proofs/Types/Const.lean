import TypedCore.Proofs.Types.Aggregates

/-!
# Const objects behind pointers

An array that is converted to a pointer makes its elements reachable through it. If they are read-only, then so is
what the pointer points to, or the conversion says that it discards a const flag. The flag of the elements is what
counts: that of the array itself is not looked at.
-/

namespace TypedCore

namespace TypeTable

variable {t t' : TypeTable} {ty a b : TypeId}

theorem isReadOnly_iff : t.isReadOnly ty = true ↔
    t.isConst ty = true ∨ ∃ element dim, t.shape ty = .array element dim ∧ t.isReadOnly element = true := by
  rw [isReadOnly_eq]
  split
  · rename_i element dim hs
    rw [Bool.or_eq_true]
    refine or_congr_right ⟨fun h => ⟨element, dim, hs, h⟩, ?_⟩
    rintro ⟨element', dim', hs', h⟩
    cases hs.symm.trans hs'
    exact h
  · rename_i hs
    refine ⟨.inl, fun h => h.resolve_right ?_⟩
    rintro ⟨element, dim, hs', -⟩
    exact hs element dim hs'

theorem isReadOnly_of_equals (h : t.equals a b = true) : t.isReadOnly a = t.isReadOnly b := by
  induction a using t.parts_induction generalizing b with
  | step a ih =>
    have hconst := isConst_of_equals h
    rw [t.isReadOnly_eq a, t.isReadOnly_eq b, hconst]
    rcases equals_cases h with hshape | ⟨x, y, ha, hb⟩ | ⟨x, y, n, ha, hb, hxy⟩ | ⟨r, ps, v, ⟨_, _, _, ha⟩, hb⟩
    · rw [hshape]
    · rw [ha, hb]
    · have hx : x ∈ (t.shape a).parts := by simp [ha, Shape.parts]
      simp only [ha, hb, ih x hx hxy]
    · rw [ha, hb]

theorem not_equals_of_array_of_pointer {element : TypeId} {target : Option TypeId} {dim : Nat}
    (ha : t.shape a = .array element dim) (hb : t.shape b = .pointer target) : t.equals a b = false := by
  refine Bool.eq_false_iff.2 fun h => ?_
  rcases equals_cases h with h | ⟨x, y, h, -⟩ | ⟨x, y, n, -, h, -⟩ | ⟨r, ps, v, -, h⟩
  · cases hb.symm.trans (h.trans ha)
  · cases ha.symm.trans h
  · cases hb.symm.trans h
  · cases hb.symm.trans h

end TypeTable

namespace TypeM

open TypeTable

variable {t t' : TypeTable} {src dst f g : TypeId}

/-- Arrays that are the same apart from their own flags have the same elements. -/
theorem equalsUnqualified_isReadOnly {element : TypeId} {dim : Nat} (hf : t.Has f) (hg : t.Has g)
    (hs : t.shape f = .array element dim) (helement : t.isReadOnly element = true) :
    Yields t (equalsUnqualified f g) fun same _ => same = true → t.isReadOnly g = true := by
  refine .bind (withConst_yields hf) (withConst_grows _ _) fun f' t₁ h₁ hf' =>
    .bind (withConst_yields (hg.mono h₁)) (withConst_grows _ _) fun g' t₂ h₂ hg' =>
      .get fun t₃ h₃ => .pure fun _ _ hsame => ?_
  have hle := (h₁.trans h₂).trans h₃
  obtain ⟨hshape, hconst, -⟩ := (hf'.mono (hf.mono h₁) (h₂.trans h₃)).spelling
  obtain ⟨hshape', hconst', -⟩ := (hg'.mono (hg.mono (h₁.trans h₂)) h₃).spelling
  have helement₃ : t₃.isReadOnly element = true :=
    ((hf.element hs).isReadOnly_eq hle).trans helement
  have hread : t₃.isReadOnly f' = true :=
    isReadOnly_iff.2 (.inr ⟨element, dim, by rw [hshape, hf.shape_eq hle, hs], helement₃⟩)
  rw [isReadOnly_of_equals hsame] at hread
  rcases isReadOnly_iff.1 hread with hc | ⟨element', dim', hs', helement'⟩
  · rw [hconst'] at hc
    cases hc
  · rw [← hg.isReadOnly_eq hle]
    exact isReadOnly_iff.2 (.inr ⟨element', dim', hshape' ▸ hs', helement'⟩)

/-- Behind a pointer, the flag of what is const does not get lost unnoticed. -/
theorem convert_discards (hsrc : t.Has src) (hdst : t.Has dst) (hconst : t.isConst src = true)
    (hplain : t.isConst dst = false) :
    Yields t (convert true src dst) fun r _ => ∀ c, r = some c → c.discardsConst = true := by
  refine (convert_permitted true hsrc hdst).imp fun r t' ⟨u, hu, _, hr⟩ c hc => ?_
  have hlost : losesConst u true src dst = true := by
    rw [losesConst, hsrc.isConst_eq hu, hdst.isConst_eq hu, hconst, hplain]
    rfl
  cases hr c hc <;> simp [hlost]

/-- A pointer to what was an element leads to what is read-only, or the conversion discards the flag. -/
theorem convert_array_to_pointer {dim : Nat} (hsrc : t.Has src) (hdst : t.Has dst)
    (hs : t.shape src = .array f dim) (hs' : t.shape dst = .pointer (some g)) (hread : t.isReadOnly f = true) :
    Yields t (convert false src dst) fun r _ => ∀ c, r = some c →
      c.target = dst ∧ (t.isReadOnly g = true ∨ c.discardsConst = true) := by
  refine (convert_permitted false hsrc hdst).imp fun r t' ⟨u, hu, _, hr⟩ c hc => ?_
  have hf := hsrc.element hs
  have hg := hdst.pointee hs'
  have hsu := (hsrc.shape_eq hu).trans hs
  have hsu' := (hdst.shape_eq hu).trans hs'
  cases hr c hc with
  | same hle _ ha hb heq =>
    rw [not_equals_of_array_of_pointer (ha.trans hsu) (hb.trans hsu')] at heq
    cases heq
  | truth h _ => cases hsu'.symm.trans h
  | integer h _ => cases hsu'.symm.trans h
  | float h _ => cases hsu'.symm.trans h
  | null h _ => cases hsu.symm.trans h
  | void h _ _ => cases hsu.symm.trans h
  | array _ h _ _ => cases hsu'.symm.trans h
  | bound _ h _ _ _ _ => cases hsu'.symm.trans h
  | @through v w f' g' inner h h' hv hinner hw hsame =>
    rw [target?, hsu] at h
    cases h
    cases hsu'.symm.trans h'
    refine ⟨rfl, ?_⟩
    -- either the element has a flag that gets lost, or it is an array of what is read-only
    rcases isReadOnly_iff.1 hread with hc | ⟨element, n, hs, helement⟩
    · by_cases hcg : t.isConst g = true
      · exact .inl (isReadOnly_iff.2 (.inl hcg))
      · refine .inr ?_
        have hdiscards := (convert_discards hf hg hc (Bool.eq_false_iff.2 hcg) (hu.trans hv.1) hv.2).2 inner hinner
        rw [hdiscards, Bool.or_true]
    · exact .inl ((equalsUnqualified_isReadOnly hf hg hs helement (hu.trans hw.1) hw.2).2 hsame)

end TypeM

end TypedCore
