import TypedCore.Proofs.Session.Scopes
import TypedCore.Proofs.Types.Immutability

/-!
# Struct tags

A tag in scope stands for a struct of its own: the struct has the name of the tag, no other tag stands for
it, and it is not removed as long as the tag is in scope. The structs whose tags are dropped are removed, and no
others.
-/

namespace TypedCore

namespace TypeTable

variable {t t' : TypeTable} {ty : TypeId} {id id' : StructId} {tag : Symbol TypeId} {tags : List (Symbol TypeId)}

/-! ### Changes that remove no struct -/

/-- A later table, with the same structs removed. -/
structure Spares (t t' : TypeTable) : Prop where
  le : t ≤ t'
  removed_iff : ∀ id, t'.Removed id ↔ t.Removed id

namespace Spares

theorem refl (t : TypeTable) : Spares t t := ⟨le_rfl, fun _ => Iff.rfl⟩

theorem of_additions (h : Additions t t') : Spares t t' :=
  ⟨h.le, fun id => by rw [Removed, Removed, struct, struct, h.structs_eq]⟩

end Spares

theorem removed_declare (t : TypeTable) (name : String) (id : StructId) :
    Removed { t with structs := t.structs.push ⟨name, none, false⟩ } id ↔ t.Removed id := by
  simp only [Removed, struct, Array.getElem?_push]
  split
  · rename_i hid
    rw [hid, Array.getElem?_eq_none (Nat.le_refl _)]
    rfl
  · rfl

theorem structs_incompleteStruct (t : TypeTable) (name : String) :
    (TypeM.incompleteStruct name t).2.structs = t.structs.push ⟨name, none, false⟩ := by
  show (TypeM.intern (.struct ⟨t.structs.size⟩) false
    { t with structs := t.structs.push ⟨name, none, false⟩ }).2.structs = t.structs.push ⟨name, none, false⟩
  rcases TypeM.intern_cases (.struct ⟨t.structs.size⟩) false
    { t with structs := t.structs.push ⟨name, none, false⟩ } with ⟨_, -, h⟩ | ⟨-, h⟩
  · rw [h]
  · rw [h, structs_push]

theorem spares_incompleteStruct {name : String} (h : TypeM.incompleteStruct name t = (ty, t')) : Spares t t' := by
  refine ⟨TypeM.incompleteStruct_le h, fun id => ?_⟩
  have hstructs := structs_incompleteStruct t name
  rw [h] at hstructs
  rw [← removed_declare t name id, Removed, Removed, struct, struct, hstructs]

theorem spares_completeStruct {names : List String} {types : List TypeId} (hhas : ∀ ty ∈ types, t.Has ty)
    (h : t.completeStruct ty names types = .ok t') : Spares t t' := by
  refine ⟨(Step.complete hhas h).le, fun id => ?_⟩
  obtain ⟨id', -, -, rfl⟩ := completeStruct_ok h
  rcases t.struct_modifyStruct id' id _ with hs | ⟨-, hs⟩ <;> rw [Removed, Removed, hs]

/-- All operations but a removal spare the structs. -/
theorem Op.spares {op : Op} (hop : ∀ ty, op ≠ .removeStruct ty) (hhas : ∀ ty ∈ op.types, t.Has ty) :
    Spares t (op.apply t) := by
  rcases op.additions_or t with h | ⟨name, rfl⟩ | ⟨ty, names, types, rfl⟩ | ⟨ty, rfl⟩
  · exact .of_additions h
  · exact spares_incompleteStruct rfl
  · rcases Op.apply_completeStruct t ty names types with h | h
    · rw [h]
      exact .refl t
    · exact spares_completeStruct (fun ty hty => hhas ty (List.mem_cons_of_mem _ hty)) h
  · exact absurd rfl (hop ty)

/-! ### Removal -/

theorem isRemoved_iff : t.isRemoved ty = true ↔ ∃ id, t.structId? ty = some id ∧ t.Removed id := by
  rw [isRemoved]
  cases t.structId? ty with
  | none => simp
  | some id => simp [Removed]

theorem has_of_structId? (h : t.structId? ty = some id) : t.Has ty := by
  refine has_of_shape fun hs => ?_
  simp [structId?, hs] at h

theorem Removed.mono (h : t.Removed id) (ht : t ≤ t') : t'.Removed id := by
  replace ht : Steps t t' := ht
  induction ht with
  | refl => exact h
  | tail _ hstep ih => exact ih.step hstep

theorem Has.isRemoved_of_le (hty : t.Has ty) (ht : t ≤ t') (h : t.isRemoved ty = true) : t'.isRemoved ty = true := by
  obtain ⟨id, hid, hremoved⟩ := isRemoved_iff.1 h
  exact isRemoved_iff.2 ⟨id, (hty.structId?_eq ht).trans hid, hremoved.mono ht⟩

theorem removed_removeStruct (hid : t.structId? ty = some id) (hmade : id.index < t.structs.size) :
    (t.removeStruct ty).Removed id' ↔ t.Removed id' ∨ id' = id := by
  constructor
  · intro h
    rw [removeStruct, hid] at h
    replace h : (t.modifyStruct id fun info => { info with removed := true }).Removed id' := h
    rcases t.struct_modifyStruct id id' fun info => { info with removed := true } with hs | ⟨heq, -⟩
    · rw [Removed, hs] at h
      exact .inl h
    · exact .inr heq
  · rintro (h | rfl)
    · exact h.removeStruct ty
    · exact removed_self hid hmade

/-- A tag stands for a struct that has its name. -/
structure Marks (t : TypeTable) (tag : Symbol TypeId) (id : StructId) : Prop where
  has : t.Has tag.value
  structId?_eq : t.structId? tag.value = some id
  made : id.index < t.structs.size
  name_eq : (t.struct id).name = tag.name

theorem Marks.mono (h : t.Marks tag id) (ht : t ≤ t') : t'.Marks tag id where
  has := h.has.mono ht
  structId?_eq := (h.has.structId?_eq ht).trans h.structId?_eq
  made := Nat.lt_of_lt_of_le h.made (Steps.structs_le ht)
  name_eq := (structName_of_le ht h.made).trans h.name_eq

/-- The structs of tags are removed. -/
def dropTags (t : TypeTable) (tags : List (Symbol TypeId)) : TypeTable :=
  tags.foldl (fun types tag => types.removeStruct tag.value) t

theorem dropTags_le (t : TypeTable) (tags : List (Symbol TypeId)) : t ≤ t.dropTags tags := by
  induction tags generalizing t with
  | nil => exact le_rfl
  | cons tag tags ih => exact (Step.remove tag.value).le.trans (ih _)

theorem removed_dropTags (h : ∀ tag ∈ tags, ∃ id, t.Marks tag id) :
    (t.dropTags tags).Removed id ↔ t.Removed id ∨ ∃ tag ∈ tags, t.structId? tag.value = some id := by
  induction tags generalizing t with
  | nil => simp [dropTags]
  | cons tag tags ih =>
    obtain ⟨⟨id₀, hmarks⟩, hrest⟩ := List.forall_mem_cons.1 h
    have hle : t ≤ t.removeStruct tag.value := (Step.remove tag.value).le
    have hsame : ∀ tag' ∈ tags, (t.removeStruct tag.value).structId? tag'.value = t.structId? tag'.value := by
      intro tag' htag'
      obtain ⟨id', hmarks'⟩ := hrest tag' htag'
      exact hmarks'.has.structId?_eq hle
    show ((t.removeStruct tag.value).dropTags tags).Removed id ↔ _
    rw [ih fun tag' htag' => (hrest tag' htag').imp fun _ h => h.mono hle,
      removed_removeStruct hmarks.structId?_eq hmarks.made, List.exists_mem_cons_iff, hmarks.structId?_eq, or_assoc]
    refine or_congr_right (or_congr ?_ ?_)
    · rw [Option.some.injEq, eq_comm]
    · constructor
      · rintro ⟨tag', htag', heq⟩
        exact ⟨tag', htag', (hsame tag' htag').symm.trans heq⟩
      · rintro ⟨tag', htag', heq⟩
        exact ⟨tag', htag', (hsame tag' htag').trans heq⟩

/-! ### Tags in scope -/

/-- Each tag stands for a struct of its own, which is not removed. -/
structure Tagged (t : TypeTable) (tags : List (Symbol TypeId)) : Prop where
  marks : ∀ tag ∈ tags, ∃ id, t.Marks tag id ∧ ¬ t.Removed id
  distinct : (tags.map fun tag => t.structId? tag.value).Nodup

namespace Tagged

theorem nil (t : TypeTable) : t.Tagged [] := ⟨nofun, List.nodup_nil⟩

theorem perm {tags' : List (Symbol TypeId)} (h : t.Tagged tags) (hperm : tags'.Perm tags) : t.Tagged tags' :=
  ⟨fun tag htag => h.marks tag (hperm.mem_iff.1 htag), (hperm.map _).nodup_iff.2 h.distinct⟩

theorem map_structId? (h : t.Tagged tags) (ht : t ≤ t') :
    (tags.map fun tag => t'.structId? tag.value) = tags.map fun tag => t.structId? tag.value := by
  refine List.map_congr_left fun tag htag => ?_
  obtain ⟨id, hmarks, -⟩ := h.marks tag htag
  exact hmarks.has.structId?_eq ht

theorem spares (h : t.Tagged tags) (hs : Spares t t') : t'.Tagged tags := by
  refine ⟨fun tag htag => ?_, ?_⟩
  · obtain ⟨id, hmarks, hremoved⟩ := h.marks tag htag
    exact ⟨id, hmarks.mono hs.le, fun h => hremoved ((hs.removed_iff id).1 h)⟩
  · rw [h.map_structId? hs.le]
    exact h.distinct

/-- A new struct is not that of another tag. -/
theorem cons {name : String} (hi : t.Indexed) (h : t.Tagged tags) (hnew : TypeM.incompleteStruct name t = (ty, t'))
    (hvalue : tag.value = ty) (hname : tag.name = name) : t'.Tagged (tag :: tags) := by
  have hspares := spares_incompleteStruct hnew
  have hstructs := structs_incompleteStruct t name
  rw [hnew] at hstructs
  obtain ⟨hhas, hshape, hlt⟩ := TypeM.incompleteStruct_shape hnew hi
  subst hvalue
  have hid : t'.structId? tag.value = some ⟨t.structs.size⟩ := by rw [structId?, hshape]
  have hmarks : t'.Marks tag ⟨t.structs.size⟩ := by
    refine ⟨hhas, hid, hlt, ?_⟩
    rw [struct, hstructs, Array.getElem?_push_size]
    exact hname.symm
  have hfresh : ¬ t'.Removed ⟨t.structs.size⟩ := fun hr =>
    absurd ((hspares.removed_iff _).1 hr).lt (Nat.lt_irrefl _)
  have htags := h.spares hspares
  refine ⟨List.forall_mem_cons.2 ⟨⟨_, hmarks, hfresh⟩, htags.marks⟩, ?_⟩
  rw [List.map_cons, List.nodup_cons]
  refine ⟨fun hmem => ?_, htags.distinct⟩
  -- the other tags stand for structs that were there before
  rw [h.map_structId? hspares.le, hid] at hmem
  obtain ⟨tag', htag', heq⟩ := List.mem_map.1 hmem
  obtain ⟨id', hmarks', -⟩ := h.marks tag' htag'
  cases hmarks'.structId?_eq.symm.trans heq
  exact absurd hmarks'.made (Nat.lt_irrefl _)

/-- Tags that are dropped take their own structs with them. -/
theorem dropTags {dropped : List (Symbol TypeId)} (h : t.Tagged (dropped ++ tags)) :
    (t.dropTags dropped).Tagged tags := by
  have hle := t.dropTags_le dropped
  have hmarked : ∀ tag ∈ dropped, ∃ id, t.Marks tag id := fun tag htag =>
    (h.marks tag (List.mem_append_left _ htag)).imp fun _ h => h.1
  have hdistinct := h.distinct
  rw [List.map_append, List.nodup_append] at hdistinct
  obtain ⟨-, hnodup, hdisjoint⟩ := hdistinct
  have htags : t.Tagged tags := ⟨fun tag htag => h.marks tag (List.mem_append_right _ htag), hnodup⟩
  refine ⟨fun tag htag => ?_, ?_⟩
  · obtain ⟨id, hmarks, hremoved⟩ := htags.marks tag htag
    refine ⟨id, hmarks.mono hle, fun hr => ?_⟩
    rcases (removed_dropTags hmarked).1 hr with hr | ⟨tag', htag', heq⟩
    · exact hremoved hr
    · refine hdisjoint _ (List.mem_map.2 ⟨tag', htag', rfl⟩) _ (List.mem_map.2 ⟨tag, htag, rfl⟩) ?_
      rw [heq, hmarks.structId?_eq]
  · rw [htags.map_structId? hle]
    exact hnodup

end Tagged

end TypeTable

end TypedCore
