import Mathlib.Tactic.Common
import Std.Data.TreeMap.Lemmas
import TypedCore.Types.Update

/-!
# The maps and the entries of a type table

`TypeTable.Canonical`: the maps are in step with the entries, and the parts of an entry come before it. What a
map gives has the entry that was asked for, and an entry is given by its map, unless it is that of a struct whose
scope is closed. So no other entry stands twice. Entering a type keeps this up if the parts of the type are there,
and removing a struct does because its types are taken out of their map.
-/

namespace TypedCore

open Std

/-! ### Keys -/

instance : TransOrd TypeId := inferInstanceAs (TransCmp (compareOn TypeId.index))

instance : LawfulEqOrd TypeId where
  eq_of_compare {a b} h := by
    cases a
    cases b
    exact congrArg TypeId.mk (Std.compare_eq_iff_eq.1 h)

instance : TransOrd StructId := inferInstanceAs (TransCmp (compareOn StructId.index))

instance : LawfulEqOrd StructId where
  eq_of_compare {a b} h := by
    cases a
    cases b
    exact congrArg StructId.mk (Std.compare_eq_iff_eq.1 h)

instance : TransOrd FloatWidth := inferInstanceAs (TransCmp (compareOn FloatWidth.bits))

instance : LawfulEqOrd FloatWidth where
  eq_of_compare {a b} h := by
    have hbits : a.bits = b.bits := Std.compare_eq_iff_eq.1 h
    cases a <;> cases b <;> simp_all [FloatWidth.bits]

/-- Names have no const flag of their own, so that the flag need not be part of their keys. -/
def TypeEntry.Proper (e : TypeEntry) : Prop := ∀ name target, e.shape = .named name target → e.isConst = false

theorem TypeEntry.Proper.of_plain (shape : Shape) : TypeEntry.Proper ⟨shape, false⟩ := fun _ _ _ => rfl

namespace TypeTable

variable {t t' : TypeTable} {ty : TypeId} {e : TypeEntry}

@[simp] theorem structs_list (t : TypeTable) (e : TypeEntry) (ty : TypeId) : (t.list e ty).structs = t.structs := by
  unfold list
  split <;> rfl

@[simp] theorem sizeBits_list (t : TypeTable) (e : TypeEntry) (ty : TypeId) :
    (t.list e ty).sizeBits = t.sizeBits := by
  unfold list
  split <;> rfl

@[simp] theorem entries_push (t : TypeTable) (e : TypeEntry) : (t.push e).entries = t.entries.push e := rfl

@[simp] theorem structs_push (t : TypeTable) (e : TypeEntry) : (t.push e).structs = t.structs := structs_list t e _

@[simp] theorem sizeBits_push (t : TypeTable) (e : TypeEntry) : (t.push e).sizeBits = t.sizeBits :=
  sizeBits_list t e _

@[simp] theorem struct_push (t : TypeTable) (e : TypeEntry) (id : StructId) : (t.push e).struct id = t.struct id := by
  rw [struct, struct, structs_push]

/-- What is listed is found under its own key only. -/
theorem find?_list {e' : TypeEntry} (he : e.Proper) (he' : e'.Proper) :
    (t.list e ty).find? e' = if e = e' then some ty else t.find? e' := by
  obtain ⟨shape, isConst⟩ := e
  obtain ⟨shape', isConst'⟩ := e'
  cases shape with
  | named name target =>
    obtain rfl : isConst = false := he name target rfl
    cases shape' with
    | named name' target' =>
      obtain rfl : isConst' = false := he' name' target' rfl
      simp [find?, list, TreeMap.getElem?_insert]
    | _ => simp [find?, list]
  | _ => cases shape' <;> simp [find?, list, TreeMap.getElem?_insert, and_assoc]

theorem find?_push {e' : TypeEntry} (he : e.Proper) (he' : e'.Proper) :
    (t.push e).find? e' = if e = e' then some ⟨t.size⟩ else t.find? e' :=
  find?_list he he'

/-- The types of a struct that is removed are not found any more. -/
theorem find?_removeStruct (t : TypeTable) (ty : TypeId) (e : TypeEntry) :
    (t.removeStruct ty).find? e =
      if ∃ id, t.structId? ty = some id ∧ e.shape = .struct id then none else t.find? e := by
  obtain ⟨shape, isConst⟩ := e
  unfold removeStruct
  cases hid : t.structId? ty with
  | none => simp
  | some id =>
    cases shape with
    | struct id' =>
      cases isConst <;> simp [find?, TreeMap.getElem?_erase, eq_comm (a := id')]
    | _ => simp [find?, modifyStruct]

/-! ### Order -/

/-- The parts of an entry come before it. -/
def Ordered (t : TypeTable) : Prop :=
  ∀ (i : Nat) (e : TypeEntry), t.entries[i]? = some e → ∀ p ∈ e.shape.parts, p.index < i

theorem Ordered.entry_eq (h : t.Ordered) (he : t.entries[ty.index]? = some e) : t.entry ty = e := by
  have hparts : (e.shape.parts.all fun p => decide (p.index < ty.index)) = true :=
    List.all_eq_true.2 fun p hp => decide_eq_true (h ty.index e he p hp)
  simp [entry, he, Option.filter, hparts]

theorem Ordered.push (h : t.Ordered) (hparts : ∀ p ∈ e.shape.parts, p.index < t.entries.size) :
    (t.push e).Ordered := by
  intro i e' he'
  rw [entries_push, Array.getElem?_push] at he'
  split at he'
  · rename_i hi
    cases he'
    exact hi ▸ hparts
  · exact h i e' he'

/-- Earlier entries are ordered too. -/
theorem Ordered.of_entries (h : t'.Ordered)
    (he : ∀ (i : Nat) (e : TypeEntry), t.entries[i]? = some e → t'.entries[i]? = some e) : t.Ordered :=
  fun i e hi => h i e (he i e hi)

instance (t : TypeTable) : Decidable t.Ordered :=
  decidable_of_iff (∀ i < t.entries.size, ∀ e ∈ t.entries[i]?, ∀ p ∈ e.shape.parts, p.index < i) <| by
    refine forall_congr' fun i => ⟨fun h e he => ?_, fun h _ => h⟩
    exact h (Array.getElem?_eq_some_iff.1 he).1 e he

/-! ### Structs that are removed -/

/-- The scope of the struct is closed. -/
def Removed (t : TypeTable) (id : StructId) : Prop := (t.struct id).removed = true

theorem Removed.lt {id : StructId} (h : t.Removed id) : id.index < t.structs.size := by
  by_contra hlt
  rw [Removed, struct, Array.getElem?_eq_none (Nat.le_of_not_lt hlt)] at h
  cases h

theorem struct_of_lt {id : StructId} (h : id.index < t.structs.size) : t.struct id = t.structs[id.index] := by
  rw [struct, Array.getElem?_eq_getElem h]
  rfl

theorem Removed.modifyStruct {id id' : StructId} {f : StructInfo → StructInfo}
    (hf : ∀ info, info.removed = true → (f info).removed = true) (h : t.Removed id) :
    (t.modifyStruct id' f).Removed id := by
  have hlt := h.lt
  have hlt' : id.index < (t.modifyStruct id' f).structs.size := by
    simpa [TypeTable.modifyStruct] using hlt
  rw [Removed, struct_of_lt hlt] at h
  rw [Removed, struct_of_lt hlt']
  simp only [TypeTable.modifyStruct, Array.getElem_modify]
  split
  · exact hf _ h
  · exact h

theorem Removed.removeStruct {id : StructId} (h : t.Removed id) (ty : TypeId) : (t.removeStruct ty).Removed id := by
  unfold TypeTable.removeStruct
  split
  · exact h
  · exact h.modifyStruct fun _ _ => rfl

theorem Removed.declare {id : StructId} (h : t.Removed id) (name : String) :
    Removed { t with structs := t.structs.push ⟨name, none, false⟩ } id := by
  have hlt : id.index < (t.structs.push ⟨name, none, false⟩).size := by
    rw [Array.size_push]
    exact Nat.lt_succ_of_lt h.lt
  have hsame := h
  rw [Removed, struct_of_lt h.lt] at hsame
  rw [Removed, struct_of_lt hlt]
  simpa [Array.getElem_push_lt h.lt] using hsame

/-- A struct of the table whose type is removed is removed. -/
theorem removed_self {id : StructId} (hid : t.structId? ty = some id) (hlt : id.index < t.structs.size) :
    (t.removeStruct ty).Removed id := by
  have hlt' : id.index < (t.removeStruct ty).structs.size := by
    simpa [removeStruct, hid, TypeTable.modifyStruct] using hlt
  rw [Removed, struct_of_lt hlt']
  simp [removeStruct, hid, TypeTable.modifyStruct, Array.getElem_modify]

/-! ### The invariant -/

/-- An entry that may stand more than once: that of a removed struct. -/
def Retired (t : TypeTable) (e : TypeEntry) : Prop := ∃ id, e.shape = .struct id ∧ t.Removed id

/-- The maps are in step with the entries. -/
structure Indexed (t : TypeTable) : Prop where
  proper : ∀ (i : Nat) (e : TypeEntry), t.entries[i]? = some e → e.Proper
  found : ∀ (e : TypeEntry) (ty : TypeId), e.Proper → t.find? e = some ty → t.entries[ty.index]? = some e
  listed : ∀ (i : Nat) (e : TypeEntry), t.entries[i]? = some e → t.find? e = some ⟨i⟩ ∨ t.Retired e
  /-- Structs with types have been made. -/
  made : ∀ (i : Nat) (e : TypeEntry) (id : StructId), t.entries[i]? = some e → e.shape = .struct id →
    id.index < t.structs.size

/-- The maps are in step with the entries, and the parts of an entry come before it. -/
structure Canonical (t : TypeTable) : Prop extends Indexed t where
  ordered : t.Ordered

theorem canonical_empty (sizeBits : Nat) : (TypeTable.empty sizeBits).Canonical := by
  refine ⟨⟨?_, ?_, ?_, ?_⟩, ?_⟩
  · intro i e he
    simp [empty] at he
  · intro e ty _ hfound
    obtain ⟨shape, isConst⟩ := e
    cases shape <;> simp [empty, find?] at hfound
  · intro i e he
    simp [empty] at he
  · intro i e id he
    simp [empty] at he
  · intro i e he
    simp [empty] at he

/-- The struct has been made, or has a type already. -/
def Knows (t : TypeTable) (id : StructId) : Prop :=
  id.index < t.structs.size ∨ ∃ ty, (t.entry ty).shape = .struct id

/-- What is read of a type is its entry, or `void`. -/
theorem getElem?_entries_of_entry (h : t.entry ty ≠ ⟨.void, false⟩) : t.entries[ty.index]? = some (t.entry ty) := by
  unfold entry at h ⊢
  cases he : t.entries[ty.index]?.filter fun e => e.shape.parts.all (·.index < ty.index) with
  | none =>
    rw [he] at h
    exact absurd rfl h
  | some e => exact (Option.filter_eq_some_iff.1 he).1

namespace Indexed

theorem lt_of_knows (h : t.Indexed) {id : StructId} (hid : t.Knows id) : id.index < t.structs.size := by
  rcases hid with hid | ⟨ty, hs⟩
  · exact hid
  · have hentry : t.entry ty ≠ ⟨.void, false⟩ := by
      intro hvoid
      rw [hvoid] at hs
      cases hs
    exact h.made _ _ id (getElem?_entries_of_entry hentry) hs

/-- What is new in the maps is new among the entries, unless it is retired. -/
theorem push (h : t.Indexed) (hnew : t.find? e = none) (hproper : e.Proper)
    (hstruct : ∀ id, e.shape = .struct id → t.Knows id) : (t.push e).Indexed where
  proper := by
    intro i e' he'
    rw [entries_push, Array.getElem?_push] at he'
    split at he'
    · cases he'
      exact hproper
    · exact h.proper i e' he'
  found := by
    intro e' ty he' hfound
    rw [find?_push hproper he'] at hfound
    rw [entries_push]
    split at hfound
    · rename_i heq
      cases hfound
      rw [← heq]
      exact Array.getElem?_push_size
    · have hold := h.found e' ty he' hfound
      obtain ⟨hi, -⟩ := Array.getElem?_eq_some_iff.1 hold
      rw [Array.getElem?_push_lt hi, ← hold, Array.getElem?_eq_getElem hi]
  listed := by
    intro i e' he'
    rw [entries_push, Array.getElem?_push] at he'
    split at he'
    · rename_i hi
      cases he'
      refine .inl ?_
      rw [find?_push hproper hproper, if_pos rfl, hi]
      rfl
    · have hproper' := h.proper i e' he'
      rw [find?_push hproper hproper']
      rcases h.listed i e' he' with hlisted | ⟨id, hs, hr⟩
      · rw [if_neg]
        · exact .inl hlisted
        · rintro rfl
          cases hnew.symm.trans hlisted
      · exact .inr ⟨id, hs, by rwa [Removed, struct_push]⟩
  made := by
    intro i e' id he' hs
    rw [structs_push]
    rw [entries_push, Array.getElem?_push] at he'
    split at he'
    · cases he'
      exact h.lt_of_knows (hstruct id hs)
    · exact h.made i e' id he' hs

/-- Changes to structs that leave the entries and maps alone. -/
theorem of_entries (h : t.Indexed) (hentries : t'.entries = t.entries) (hfind : ∀ e, t'.find? e = t.find? e)
    (hremoved : ∀ id, t.Removed id → t'.Removed id) (hsize : t.structs.size ≤ t'.structs.size) : t'.Indexed where
  proper := by
    rw [hentries]
    exact h.proper
  found := by
    intro e ty he hfound
    rw [hentries]
    exact h.found e ty he (hfind e ▸ hfound)
  listed := by
    intro i e he
    rw [hfind]
    exact (h.listed i e (hentries ▸ he)).imp_right fun ⟨id, hs, hr⟩ => ⟨id, hs, hremoved id hr⟩
  made := by
    intro i e id he hs
    exact Nat.lt_of_lt_of_le (h.made i e id (hentries ▸ he) hs) hsize

/-- The entries of a struct are retired when its types are taken out of their map. -/
theorem removeStruct (h : t.Indexed) (ty : TypeId) : (t.removeStruct ty).Indexed := by
  have hentries : (t.removeStruct ty).entries = t.entries := by
    unfold TypeTable.removeStruct
    split <;> rfl
  have hsize : (t.removeStruct ty).structs.size = t.structs.size := by
    unfold TypeTable.removeStruct
    split
    · rfl
    · simp [modifyStruct]
  refine ⟨?_, ?_, ?_, ?_⟩
  · rw [hentries]
    exact h.proper
  · intro e ty' he hfound
    rw [find?_removeStruct] at hfound
    rw [hentries]
    split at hfound
    · cases hfound
    · exact h.found e ty' he hfound
  · intro i e he
    rw [hentries] at he
    rw [find?_removeStruct]
    split
    · rename_i hgone
      obtain ⟨id, hid, hs⟩ := hgone
      exact .inr ⟨id, hs, removed_self hid (h.made i e id he hs)⟩
    · exact (h.listed i e he).imp_right fun ⟨id, hs, hr⟩ => ⟨id, hs, hr.removeStruct ty⟩
  · intro i e id he hs
    rw [hsize]
    exact h.made i e id (hentries ▸ he) hs

/-- An entry that stands twice is that of a removed struct. -/
theorem unique (h : t.Indexed) {i j : Nat} (hi : t.entries[i]? = some e) (hj : t.entries[j]? = some e) :
    i = j ∨ t.Retired e := by
  rcases h.listed i e hi with hfound | hretired
  · rcases h.listed j e hj with hfound' | hretired
    · have heq := hfound.symm.trans hfound'
      cases heq
      exact .inl rfl
    · exact .inr hretired
  · exact .inr hretired

end Indexed

theorem Canonical.push (h : t.Canonical) (hnew : t.find? e = none) (hproper : e.Proper)
    (hparts : ∀ p ∈ e.shape.parts, p.index < t.entries.size) (hstruct : ∀ id, e.shape = .struct id → t.Knows id) :
    (t.push e).Canonical :=
  ⟨h.toIndexed.push hnew hproper hstruct, h.ordered.push hparts⟩

end TypeTable

end TypedCore
