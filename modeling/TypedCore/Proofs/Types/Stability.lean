import TypedCore.Proofs.Types.Flags

/-!
# Types in later tables

What a type is asked for gets the same answer in every later table. Structs are completed at most once,
so a type that has a size keeps it and members stay where they are.
-/

namespace TypedCore

/-- Equality of shapes whose parts are compared by `same`. Shapes without parts, structs apart, are
not compared. -/
def Shape.sameParts (same : TypeId → TypeId → Bool) : Shape → Shape → Bool
  | .pointer (some x), .pointer (some y) => same x y
  | .array x n, .array y m => n == m && same x y
  | .function r ps v, .function s qs w =>
    v == w && same r s && ps.length == qs.length && (ps.zip qs).all fun p => same p.1 p.2
  | .struct i, .struct j => i == j
  | _, _ => false

theorem Shape.sameParts_congr {same same' : TypeId → TypeId → Bool} {s s' : Shape}
    (h : ∀ x ∈ s.parts, ∀ y ∈ s'.parts, same x y = same' x y) : s.sameParts same s' = s.sameParts same' s' := by
  unfold sameParts
  split
  · exact h _ (by simp [parts]) _ (by simp [parts])
  · rw [h _ (by simp [parts]) _ (by simp [parts])]
  · rename_i r ps v r' qs w
    have hall : ((ps.zip qs).all fun p => same p.1 p.2) = (ps.zip qs).all fun p => same' p.1 p.2 := by
      rw [Bool.eq_iff_iff, List.all_eq_true, List.all_eq_true]
      refine forall₂_congr fun p hp => ?_
      obtain ⟨hx, hy⟩ := List.of_mem_zip hp
      rw [h _ (by simp [parts, hx]) _ (by simp [parts, hy])]
    rw [hall, h r (by simp [parts]) r' (by simp [parts])]
  · rfl
  · rfl

namespace TypeTable

variable {t t' : TypeTable} {ty a b : TypeId}

/-! ### Questions -/

theorem equals_eq (t : TypeTable) (a b : TypeId) : t.equals a b =
    if t.unalias a = t.unalias b then true
    else if t.isConst a ≠ t.isConst b then false
    else (t.shape a).sameParts t.equals (t.shape b) := by
  rw [equals]
  refine if_congr Iff.rfl rfl (if_congr Iff.rfl rfl ?_)
  split
  · rename_i x y ha hb
    simp only [Shape.sameParts, ha, hb]
  · rename_i x n y m ha hb
    simp only [Shape.sameParts, ha, hb]
  · rename_i r ps v s qs w ha hb
    have hzip : (ps.attach.zip qs).map (Prod.map Subtype.val id) = ps.zip qs := by
      rw [← List.zip_map, List.map_id, List.attach_map_subtype_val]
    simp only [Shape.sameParts, ha, hb, ← hzip, List.all_map]
    rfl
  · rename_i i j ha hb
    simp only [Shape.sameParts, ha, hb]
  · rename_i hpointer harray hfunction hstruct
    unfold Shape.sameParts
    split
    · rename_i ha hb
      exact (hpointer _ _ ha hb).elim
    · rename_i ha hb
      exact (harray _ _ _ _ ha hb).elim
    · rename_i ha hb
      exact (hfunction _ _ _ _ _ _ ha hb).elim
    · rename_i ha hb
      exact (hstruct _ _ ha hb).elim
    · rfl

theorem isConst_of_equals {a b : TypeId} (h : t.equals a b = true) : t.isConst a = t.isConst b := by
  rw [equals] at h
  split at h
  · rename_i hu
    rw [TypeTable.isConst, TypeTable.isConst, hu]
  · split at h
    · cases h
    · rename_i hc
      exact not_ne_iff.1 hc

theorem hasSize_eq (t : TypeTable) (ty : TypeId) : t.hasSize ty =
    match t.shape ty with
    | .void => false
    | .function .. => false
    | .array element dim => dim > 0 && t.hasSize element
    | .struct id => (t.struct id).members.isSome
    | _ => true := by
  rw [hasSize]
  split <;> simp_all

theorem isReadOnly_eq (t : TypeTable) (ty : TypeId) : t.isReadOnly ty =
    match t.shape ty with
    | .array element _ => t.isConst ty || t.isReadOnly element
    | _ => t.isConst ty := by
  rw [isReadOnly]
  split <;> simp_all

namespace Has

theorem equals_eq (ha : t.Has a) (hb : t.Has b) (ht : t ≤ t') : t'.equals a b = t.equals a b := by
  induction a using t.parts_induction generalizing b with
  | step a ih =>
    rw [t.equals_eq, t'.equals_eq, ha.unalias_eq ht, hb.unalias_eq ht, ha.isConst_eq ht, hb.isConst_eq ht,
      ha.shape_eq ht, hb.shape_eq ht]
    have hparts : (t.shape a).sameParts t'.equals (t.shape b) = (t.shape a).sameParts t.equals (t.shape b) :=
      Shape.sameParts_congr fun x hx y hy => ih x hx (ha.part hx) (hb.part hy)
    rw [hparts]

theorem isReadOnly_eq (h : t.Has ty) (ht : t ≤ t') : t'.isReadOnly ty = t.isReadOnly ty := by
  induction ty using t.parts_induction with
  | step ty ih =>
    rw [t.isReadOnly_eq, t'.isReadOnly_eq, h.shape_eq ht, h.isConst_eq ht]
    cases hs : t.shape ty with
    | array element dim =>
      have hel : element ∈ (t.shape ty).parts := by simp [hs, Shape.parts]
      simp only [ih element hel (h.part hel)]
    | _ => rfl

theorem target?_eq (h : t.Has ty) (ht : t ≤ t') : t'.target? ty = t.target? ty := by
  rw [target?, target?, h.shape_eq ht]

theorem dim?_eq (h : t.Has ty) (ht : t ≤ t') : t'.dim? ty = t.dim? ty := by
  rw [dim?, dim?, h.shape_eq ht]

end Has

/-! ### Structs -/

/-- Changing one struct. -/
theorem struct_modifyStruct (t : TypeTable) (id id' : StructId) (f : StructInfo → StructInfo) :
    (t.modifyStruct id f).struct id' = t.struct id' ∨
      id' = id ∧ (t.modifyStruct id f).struct id' = f (t.struct id') := by
  simp only [struct, modifyStruct, Array.getElem?_modify]
  split
  · rename_i hid
    cases t.structs[id'.index]? with
    | none => exact .inl rfl
    | some info =>
      refine .inr ⟨?_, rfl⟩
      cases id
      cases id'
      exact congrArg StructId.mk hid.symm
  · exact .inl rfl

/-- A new struct has no members. -/
theorem members_declare (t : TypeTable) (name : String) (id : StructId) :
    (struct { t with structs := t.structs.push ⟨name, none, false⟩ } id).members = (t.struct id).members := by
  simp only [struct, Array.getElem?_push]
  split
  · rename_i hid
    rw [hid, Array.getElem?_eq_none (Nat.le_refl _)]
    rfl
  · rfl

/-- A struct that is removed keeps its name and members. -/
theorem struct_removeStruct (t : TypeTable) (ty : TypeId) (id : StructId) :
    ((t.removeStruct ty).struct id).name = (t.struct id).name ∧
      ((t.removeStruct ty).struct id).members = (t.struct id).members := by
  unfold removeStruct
  split
  · exact ⟨rfl, rfl⟩
  · rename_i id' _
    show ((t.modifyStruct id' _).struct id).name = _ ∧ ((t.modifyStruct id' _).struct id).members = _
    rcases t.struct_modifyStruct id' id fun info => { info with removed := true } with hs | ⟨-, hs⟩
    · rw [hs]
      exact ⟨rfl, rfl⟩
    · rw [hs]
      exact ⟨rfl, rfl⟩

theorem Step.members_eq (h : Step t t') {id : StructId} {ms : List Member}
    (hms : (t.struct id).members = some ms) : (t'.struct id).members = some ms := by
  cases h with
  | enter => rwa [struct_push]
  | declare name => rwa [members_declare]
  | complete _ hcomplete =>
    obtain ⟨id', hnone, -, rfl⟩ := completeStruct_ok hcomplete
    rcases t.struct_modifyStruct id' id _ with hs | ⟨rfl, -⟩
    · rwa [hs]
    · rw [hnone] at hms
      cases hms
  | remove ty => rwa [(t.struct_removeStruct ty id).2]

theorem Step.sizeBits_eq (h : Step t t') : t'.sizeBits = t.sizeBits := by
  cases h with
  | enter => exact sizeBits_push t _
  | declare => rfl
  | complete _ hcomplete =>
    obtain ⟨id, -, -, rfl⟩ := completeStruct_ok hcomplete
    rfl
  | remove ty =>
    unfold removeStruct
    split <;> rfl

/-- Members of structs stay as they are. -/
theorem structMembers_of_le (ht : t ≤ t') {id : StructId} {ms : List Member}
    (hms : (t.struct id).members = some ms) : (t'.struct id).members = some ms := by
  replace ht : Steps t t' := ht
  induction ht with
  | refl => exact hms
  | tail _ hstep ih => exact hstep.members_eq ih

/-- Only structs that are complete have members. -/
theorem members_ok_iff {ms : List Member} :
    t.members ty = .ok ms ↔ ∃ id, t.shape ty = .struct id ∧ (t.struct id).members = some ms := by
  unfold members structId?
  cases hs : t.shape ty with
  | struct id => cases hms : (t.struct id).members <;> simp [hms]
  | _ => simp

theorem sizeBits_of_le (ht : t ≤ t') : t'.sizeBits = t.sizeBits := by
  replace ht : Steps t t' := ht
  induction ht with
  | refl => rfl
  | tail _ hstep ih => exact hstep.sizeBits_eq.trans ih

namespace Has

theorem hasSize_of_le (h : t.Has ty) (ht : t ≤ t') (hsize : t.hasSize ty = true) : t'.hasSize ty = true := by
  induction ty using t.parts_induction with
  | step ty ih =>
    rw [hasSize_eq] at hsize
    rw [hasSize_eq, h.shape_eq ht]
    cases hs : t.shape ty with
    | void | function => simp [hs] at hsize
    | array element dim =>
      have hel : element ∈ (t.shape ty).parts := by simp [hs, Shape.parts]
      simp only [hs, Bool.and_eq_true] at hsize
      simp only [Bool.and_eq_true]
      exact ⟨hsize.1, ih element hel (h.part hel) hsize.2⟩
    | struct id =>
      simp only [hs] at hsize
      obtain ⟨ms, hms⟩ := Option.isSome_iff_exists.1 hsize
      simp only [structMembers_of_le ht hms, Option.isSome_some]
    | _ => rfl

theorem members_of_le (h : t.Has ty) (ht : t ≤ t') {ms : List Member} (hms : t.members ty = .ok ms) :
    t'.members ty = .ok ms := by
  obtain ⟨id, hs, hms⟩ := members_ok_iff.1 hms
  exact members_ok_iff.2 ⟨id, (h.shape_eq ht).trans hs, structMembers_of_le ht hms⟩

/-- A member stays where it is and of the same type. -/
theorem member_of_le (h : t.Has ty) (ht : t ≤ t') {name : String} {index : Nat} {ty' : TypeId}
    (hm : t.member ty name = .ok (index, ty')) : t'.member ty name = .ok (index, ty') := by
  unfold member at hm ⊢
  cases hms : t.members ty with
  | error e =>
    rw [hms] at hm
    cases hm
  | ok ms =>
    rw [hms] at hm
    rw [h.members_of_le ht hms]
    simp only [bind, Except.bind] at hm ⊢
    split at hm
    · exact hm
    · cases hm

end Has

end TypeTable

end TypedCore
