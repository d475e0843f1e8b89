import Mathlib.Logic.Relation
import Mathlib.Order.Basic
import TypedCore.Proofs.Outcome
import TypedCore.Proofs.Types.Interning
import TypedCore.Types.Conversion

/-!
# How a type table grows

Everything that is done to a type table is a sequence of four kinds of `Step`: a type is entered, and
a struct is made, completed or removed. Tables are ordered by what they can change into. Entries stay as
they are, so that a type means the same in every later table. Apart from making a struct, the computations
on a table make `Additions` only, which leave the structs alone. If they are given types that have been issued,
the table stays canonical (`TypeM.Yields`).
-/

namespace TypedCore

namespace TypeTable

/-- One change of a type table. -/
inductive Step (t : TypeTable) : TypeTable → Prop
  | enter {e : TypeEntry} (hnew : t.find? e = none) (hproper : e.Proper)
      (hstruct : ∀ id, e.shape = .struct id → t.Knows id) : Step t (t.push e)
  | declare (name : String) : Step t { t with structs := t.structs.push ⟨name, none, false⟩ }
  | complete {ty : TypeId} {names : List String} {types : List TypeId} {t' : TypeTable}
      (hhas : ∀ ty ∈ types, ty.index < t.entries.size) (h : t.completeStruct ty names types = .ok t') :
      Step t t'
  | remove (ty : TypeId) : Step t (t.removeStruct ty)

/-- Any number of changes. -/
abbrev Steps : TypeTable → TypeTable → Prop := Relation.ReflTransGen Step

/-- One type is added. A type that is a struct is added only where there is one for that struct already. -/
inductive Addition (t : TypeTable) : TypeTable → Prop
  | enter {e : TypeEntry} (hnew : t.find? e = none) (hproper : e.Proper)
      (hstruct : ∀ id, e.shape = .struct id → ∃ ty, (t.entry ty).shape = .struct id) : Addition t (t.push e)

/-- Any number of types are added, and nothing else changes. -/
abbrev Additions : TypeTable → TypeTable → Prop := Relation.ReflTransGen Addition

/-- A table comes before those that it can change into. -/
instance : Preorder TypeTable where
  le := Steps
  le_refl _ := .refl
  le_trans _ _ _ := .trans

variable {t t' : TypeTable} {ty : TypeId}

theorem Step.le (h : Step t t') : t ≤ t' := Relation.ReflTransGen.single h

theorem Steps.le (h : Steps t t') : t ≤ t' := h

namespace Additions

theorem steps (h : Additions t t') : Steps t t' :=
  Relation.ReflTransGen.mono (fun _ _ ⟨hnew, hproper, hstruct⟩ =>
    .enter hnew hproper fun id hs => .inr (hstruct id hs)) _ _ h

theorem le (h : Additions t t') : t ≤ t' := h.steps.le

theorem structs_eq (h : Additions t t') : t'.structs = t.structs := by
  induction h with
  | refl => rfl
  | tail _ hadd ih =>
    cases hadd
    exact (structs_push _ _).trans ih

end Additions

/-- A struct is given its members when all has been checked, and nothing is changed before. -/
theorem completeStruct_cases {names : List String} {types : List TypeId} {r : Except TypeError Unit}
    (h : Ends (TypeM.completeStruct ty names types) t r t') :
    (∃ e, r = .error e ∧ t' = t) ∨
      ∃ id, (t.struct id).members = none ∧
        t.memberFault? (t.struct id).name [] (List.zipWith Member.mk names types) = none ∧ r = .ok () ∧
        t' = t.modifyStruct id fun info => { info with members := some (List.zipWith Member.mk names types) } := by
  have hrefused {e : TypeError} (h : Ends (throw e : ExceptT TypeError TypeM Unit) t r t') :
      ∃ e, r = .error e ∧ t' = t := ⟨e, Ends.throw_iff.1 h⟩
  unfold TypeM.completeStruct at h
  rw [Ends.get_bind_iff] at h
  split at h
  · exact .inl (hrefused h)
  · rename_i id hid
    simp only at h
    split at h
    · rcases Ends.bind_iff.1 h with ⟨_, _, hthrow, -⟩ | ⟨e, rfl, hthrow⟩
      · cases (Ends.throw_iff.1 hthrow).1
      · exact .inl (hrefused hthrow)
    · rename_i hms
      split at h
      · rcases Ends.bind_iff.1 h with ⟨_, _, hthrow, -⟩ | ⟨e, rfl, hthrow⟩
        · cases (Ends.throw_iff.1 hthrow).1
        · exact .inl (hrefused hthrow)
      · split at h
        · exact .inl (hrefused h)
        · rename_i hfault
          exact .inr ⟨id, Option.not_isSome_iff_eq_none.1 hms, hfault, Ends.modify_iff.1 h⟩

theorem completeStruct_eq_ok_iff {names : List String} {types : List TypeId} :
    t.completeStruct ty names types = .ok t' ↔ Ends (TypeM.completeStruct ty names types) t (.ok ()) t' := by
  unfold completeStruct Ends
  rcases (TypeM.completeStruct ty names types).run.run t with ⟨e | ⟨⟩, u⟩
  · exact ⟨nofun, nofun⟩
  · simp only [Except.ok.injEq]
    exact ⟨fun h => congrArg _ h, fun h => congrArg Prod.snd h⟩

theorem completeStruct_ok {names : List String} {types : List TypeId}
    (h : t.completeStruct ty names types = .ok t') :
    ∃ id, (t.struct id).members = none ∧
      t.memberFault? (t.struct id).name [] (List.zipWith Member.mk names types) = none ∧
      t' = t.modifyStruct id fun info =>
        { info with members := some (List.zipWith Member.mk names types) } := by
  rcases completeStruct_cases (completeStruct_eq_ok_iff.1 h) with ⟨e, he, -⟩ | ⟨id, hms, hfault, -, rfl⟩
  · cases he
  · exact ⟨id, hms, hfault, rfl⟩

theorem entries_completeStruct {names : List String} {types : List TypeId}
    (h : t.completeStruct ty names types = .ok t') : t'.entries = t.entries := by
  obtain ⟨id, -, -, rfl⟩ := completeStruct_ok h
  rfl

theorem entries_removeStruct (t : TypeTable) (ty : TypeId) : (t.removeStruct ty).entries = t.entries := by
  unfold removeStruct
  split <;> rfl

theorem Step.getElem?_entries (h : Step t t') {i : Nat} {e : TypeEntry} (he : t.entries[i]? = some e) :
    t'.entries[i]? = some e := by
  cases h with
  | @enter a =>
    obtain ⟨hi, -⟩ := Array.getElem?_eq_some_iff.1 he
    show (t.entries.push a)[i]? = some e
    rw [Array.getElem?_push_lt hi, ← he, Array.getElem?_eq_getElem hi]
  | declare name => exact he
  | complete _ h =>
    rw [entries_completeStruct h]
    exact he
  | remove ty =>
    rw [entries_removeStruct]
    exact he

/-- Types keep their entries. -/
theorem getElem?_entries_of_le (h : t ≤ t') {i : Nat} {e : TypeEntry} (he : t.entries[i]? = some e) :
    t'.entries[i]? = some e := by
  replace h : Steps t t' := h
  induction h with
  | refl => exact he
  | tail _ hstep ih => exact hstep.getElem?_entries ih

/-! ### The invariant along steps -/

theorem Removed.step {id : StructId} (h : t.Removed id) (hstep : Step t t') : t'.Removed id := by
  cases hstep with
  | enter => rwa [Removed, struct_push]
  | declare name => exact h.declare name
  | complete _ hcomplete =>
    obtain ⟨id', -, -, rfl⟩ := completeStruct_ok hcomplete
    exact h.modifyStruct fun _ hr => hr
  | remove ty => exact h.removeStruct ty

theorem Step.structs_le (h : Step t t') : t.structs.size ≤ t'.structs.size := by
  cases h with
  | enter => simp
  | declare name => simp
  | complete _ hcomplete =>
    obtain ⟨id, -, -, rfl⟩ := completeStruct_ok hcomplete
    simp [modifyStruct]
  | remove ty =>
    unfold removeStruct
    split
    · exact Nat.le_refl _
    · simp [modifyStruct]

theorem Steps.structs_le (h : Steps t t') : t.structs.size ≤ t'.structs.size := by
  induction h with
  | refl => exact Nat.le_refl _
  | tail _ hstep ih => exact Nat.le_trans ih hstep.structs_le

theorem Indexed.step (h : t.Indexed) (hstep : Step t t') : t'.Indexed := by
  have hremoved : ∀ id, t.Removed id → t'.Removed id := fun _ hr => hr.step hstep
  have hsize := hstep.structs_le
  cases hstep with
  | enter hnew hproper hstruct => exact h.push hnew hproper hstruct
  | declare name => exact h.of_entries rfl (fun _ => rfl) hremoved hsize
  | complete _ hcomplete =>
    obtain ⟨id, -, -, rfl⟩ := completeStruct_ok hcomplete
    exact h.of_entries rfl (fun _ => rfl) hremoved hsize
  | remove ty => exact h.removeStruct ty

theorem Indexed.steps (h : t.Indexed) (hsteps : Steps t t') : t'.Indexed := by
  induction hsteps with
  | refl => exact h
  | tail _ hstep ih => exact ih.step hstep

/-- Changes keep the maps in step. What they enter is looked at in the order of its parts. -/
theorem Canonical.mono (h : t.Canonical) (ht : t ≤ t') (hordered : t'.Ordered) : t'.Canonical :=
  ⟨h.toIndexed.steps ht, hordered⟩

/-- Changes to structs only. -/
theorem Canonical.of_entries (h : t.Canonical) (ht : t ≤ t') (he : t'.entries = t.entries) : t'.Canonical :=
  h.mono ht (h.ordered.of_entries fun _ _ hi => he ▸ hi)

/-! ### Types in range -/

/-- The type has been issued. -/
abbrev Has (t : TypeTable) (ty : TypeId) : Prop := ty.index < t.entries.size

theorem has_iff : t.Has ty ↔ ∃ e, t.entries[ty.index]? = some e :=
  ⟨fun h => ⟨_, Array.getElem?_eq_getElem h⟩, fun ⟨_, he⟩ => (Array.getElem?_eq_some_iff.1 he).1⟩

theorem Has.mono (h : t.Has ty) (ht : t ≤ t') : t'.Has ty := by
  obtain ⟨e, he⟩ := has_iff.1 h
  exact has_iff.2 ⟨e, getElem?_entries_of_le ht he⟩

theorem Has.entry_eq (h : t.Has ty) (ht : t ≤ t') : t'.entry ty = t.entry ty := by
  obtain ⟨e, he⟩ := has_iff.1 h
  rw [entry, entry, he, getElem?_entries_of_le ht he]

/-- The type has been issued, and this is its entry. -/
structure Holds (t : TypeTable) (ty : TypeId) (e : TypeEntry) : Prop where
  has : t.Has ty
  entry_eq : t.entry ty = e

theorem Holds.mono {e : TypeEntry} (h : t.Holds ty e) (ht : t ≤ t') : t'.Holds ty e :=
  ⟨h.has.mono ht, (h.has.entry_eq ht).trans h.entry_eq⟩

/-- An entry without parts is read wherever it stands. -/
theorem holds_of_parts {e : TypeEntry} (he : t.entries[ty.index]? = some e) (hparts : e.shape.parts = []) :
    t.Holds ty e :=
  ⟨has_iff.2 ⟨e, he⟩, by simp [entry, he, Option.filter, hparts]⟩

theorem Ordered.holds {e : TypeEntry} (h : t.Ordered) (he : t.entries[ty.index]? = some e) : t.Holds ty e :=
  ⟨has_iff.2 ⟨e, he⟩, h.entry_eq he⟩

/-- Induction on the parts of types. -/
@[elab_as_elim]
theorem parts_induction (t : TypeTable) {motive : TypeId → Prop}
    (step : ∀ ty, (∀ p ∈ (t.shape ty).parts, motive p) → motive ty) (ty : TypeId) : motive ty := by
  induction hn : ty.index using Nat.strongRecOn generalizing ty with
  | ind n ih =>
    subst hn
    exact step ty fun p hp => ih p.index (t.shape_part_lt hp) p rfl

theorem Has.part (h : t.Has ty) {p : TypeId} (hp : p ∈ (t.shape ty).parts) : t.Has p :=
  Nat.lt_trans (t.shape_part_lt hp) h

theorem Has.pointee (h : t.Has ty) {target : TypeId} (hs : t.shape ty = .pointer (some target)) : t.Has target :=
  h.part (by simp [hs, Shape.parts])

theorem Has.element (h : t.Has ty) {element : TypeId} {dim : Nat} (hs : t.shape ty = .array element dim) :
    t.Has element :=
  h.part (by simp [hs, Shape.parts])

theorem Has.target (h : t.Has ty) {target : TypeId} (ht : t.target? ty = some target) : t.Has target := by
  unfold target? at ht
  split at ht
  · rename_i hs
    exact h.part (by simp [hs, ht, Shape.parts])
  · rename_i hs
    exact h.part (by simpa [hs, Shape.parts] using ht.symm)
  · cases ht

theorem Has.unalias (h : t.Has ty) : t.Has (t.unalias ty) := Nat.lt_of_le_of_lt (t.unalias_le ty) h

/-! ### Names -/

theorem unalias_of_named {name : String} {target : TypeId} (h : (t.entry ty).shape = .named name target) :
    t.unalias ty = t.unalias target := by
  rw [unalias]
  split
  · rename_i h'
    cases h.symm.trans h'
    rfl
  · rename_i h'
    exact absurd h (h' _ _)

theorem unalias_of_not_named (h : ∀ name target, (t.entry ty).shape ≠ .named name target) :
    t.unalias ty = ty := by
  rw [unalias]
  split
  · rename_i h'
    exact absurd h' (h _ _)
  · rfl

theorem shape_of_not_named (h : ∀ name target, (t.entry ty).shape ≠ .named name target) :
    t.shape ty = (t.entry ty).shape := by
  rw [shape, unalias_of_not_named h]

/-- What a name stands for is not a name, -/
theorem shape_ne_named (t : TypeTable) (ty : TypeId) : ∀ name target, t.shape ty ≠ .named name target := by
  unfold shape
  fun_induction t.unalias ty with
  | case1 ty name target h ih => exact ih
  | case2 ty h => exact h

/-- so that it may have any const flag. -/
theorem proper_of_shape (t : TypeTable) (ty : TypeId) (isConst : Bool) : TypeEntry.Proper ⟨t.shape ty, isConst⟩ :=
  fun name target h => absurd h (t.shape_ne_named ty name target)

namespace Has

theorem unalias_eq (h : t.Has ty) (ht : t ≤ t') : t'.unalias ty = t.unalias ty := by
  fun_induction t.unalias ty with
  | case1 ty name target hs ih =>
    have htarget : t.Has target := Nat.lt_trans (t.part_lt (by simp [hs, Shape.parts])) h
    rw [← ih htarget]
    exact unalias_of_named ((congrArg TypeEntry.shape (h.entry_eq ht)).trans hs)
  | case2 ty hs =>
    exact unalias_of_not_named fun name target => by rw [h.entry_eq ht]; exact hs name target

theorem shape_eq (h : t.Has ty) (ht : t ≤ t') : t'.shape ty = t.shape ty := by
  rw [shape, shape, h.unalias_eq ht, h.unalias.entry_eq ht]

theorem isConst_eq (h : t.Has ty) (ht : t ≤ t') : t'.isConst ty = t.isConst ty := by
  rw [isConst, isConst, h.unalias_eq ht, h.unalias.entry_eq ht]

theorem isArray_eq (h : t.Has ty) (ht : t ≤ t') : t'.isArray ty = t.isArray ty := by
  rw [isArray, isArray, h.shape_eq ht]

end Has

/-- Of the given shape, and not const. -/
structure Plain (t : TypeTable) (shape : Shape) (ty : TypeId) : Prop where
  shape_eq : t.shape ty = shape
  isConst_eq : t.isConst ty = false

theorem Plain.mono {shape : Shape} (h : t.Plain shape ty) (hty : t.Has ty) (ht : t ≤ t') : t'.Plain shape ty :=
  ⟨(hty.shape_eq ht).trans h.shape_eq, (hty.isConst_eq ht).trans h.isConst_eq⟩

theorem entry_of_not_has (h : ¬ t.Has ty) : t.entry ty = ⟨.void, false⟩ := by
  rw [entry, Array.getElem?_eq_none (Nat.le_of_not_lt h)]
  rfl

theorem has_of_shape (h : t.shape ty ≠ .void) : t.Has ty := by
  by_contra hty
  have hentry := entry_of_not_has hty
  refine h ?_
  rw [shape_of_not_named] <;> rw [hentry]
  exact nofun

end TypeTable

/-! ### Operations -/

namespace TypeM

open TypeTable

variable {α β : Type} {t t' : TypeTable}

/-- A computation adds types to the table and does nothing else to it. -/
def Grows (x : TypeM α) : Prop := ∀ t, Additions t (x t).2

namespace Grows

theorem pure (a : α) : Grows (Pure.pure a : TypeM α) := fun _ => .refl

theorem get : Grows (MonadState.get : TypeM TypeTable) := fun _ => .refl

theorem bind {x : TypeM α} {f : α → TypeM β} (hx : Grows x) (hf : ∀ a, Grows (f a)) : Grows (x >>= f) :=
  fun t => (hx t).trans (hf _ _)

/-- The computation that follows is run in the table that it is given. -/
theorem get_bind {f : TypeTable → TypeM α} (hf : ∀ t, Additions t (f t t).2) :
    Grows (MonadState.get >>= f) := hf

theorem map {x : TypeM α} (f : α → β) (hx : Grows x) : Grows (f <$> x) := fun t => hx t

theorem ite {p : Prop} [Decidable p] {x y : TypeM α} (hx : Grows x) (hy : Grows y) :
    Grows (if p then x else y) := by
  split <;> assumption

theorem foldrM {f : α → β → TypeM β} (hf : ∀ a b, Grows (f a b)) (b : β) :
    ∀ l : List α, Grows (l.foldrM f b)
  | [] => pure b
  | a :: l => by
    rw [List.foldrM_cons]
    exact bind (foldrM hf b l) fun b' => hf a b'

end Grows

theorem intern_cases (shape : Shape) (isConst : Bool) (t : TypeTable) :
    (∃ ty, t.find? ⟨shape, isConst⟩ = some ty ∧ intern shape isConst t = (ty, t)) ∨
      t.find? ⟨shape, isConst⟩ = none ∧ intern shape isConst t = (⟨t.size⟩, t.push ⟨shape, isConst⟩) := by
  unfold intern
  split
  · rename_i ty hfound
    exact .inl ⟨ty, hfound, rfl⟩
  · rename_i hnew
    exact .inr ⟨hnew, rfl⟩

theorem intern_additions {shape : Shape} {isConst : Bool} (hproper : TypeEntry.Proper ⟨shape, isConst⟩)
    (hstruct : ∀ id, shape = .struct id → ∃ ty, (t.entry ty).shape = .struct id) :
    Additions t (intern shape isConst t).2 := by
  rcases intern_cases shape isConst t with ⟨ty, -, h⟩ | ⟨hnew, h⟩
  · rw [h]
  · rw [h]
    exact .single (.enter hnew hproper hstruct)

theorem intern_grows (shape : Shape) (hshape : ∀ id, shape ≠ .struct id := by intro _ h; cases h) :
    Grows (intern shape false) :=
  fun _ => intern_additions (.of_plain shape) fun id h => absurd h (hshape id)

theorem incompleteStruct_steps (name : String) (t : TypeTable) : Steps t (incompleteStruct name t).2 := by
  refine (Relation.ReflTransGen.single (Step.declare name)).trans ?_
  show Steps _ (intern _ _ _).2
  rcases intern_cases (.struct ⟨t.structs.size⟩) false { t with structs := t.structs.push ⟨name, none, false⟩ } with
    ⟨ty, -, h⟩ | ⟨hnew, h⟩
  · rw [h]
  · rw [h]
    refine .single (.enter hnew (.of_plain _) fun id hid => .inl ?_)
    cases hid
    simp

theorem incompleteStruct_le {name : String} {ty : TypeId} (h : incompleteStruct name t = (ty, t')) : t ≤ t' := by
  have := (incompleteStruct_steps name t).le
  rwa [h] at this

theorem withConst_grows (ty : TypeId) (isConst : Bool) : Grows (withConst ty isConst) := by
  refine .get_bind fun t => ?_
  have hnames (changed : TypeId) : Grows ((t.aliasNames ty).foldrM named changed) :=
    .foldrM (fun _ _ => intern_grows _) _ _
  split
  · exact hnames _ t
  · exact (intern_additions (t.proper_of_shape ty isConst) fun id h => ⟨_, h⟩).trans (hnames _ _)

theorem bindArray_grows (ty : TypeId) (dim : Nat) : Grows (bindArray ty dim) := by
  refine .bind .get fun t => ?_
  split
  · exact .bind (intern_grows _) fun _ => withConst_grows _ _
  · exact .pure _

theorem equalsUnqualified_grows (a b : TypeId) : Grows (equalsUnqualified a b) :=
  .bind (withConst_grows _ _) fun _ => .bind (withConst_grows _ _) fun _ => .bind .get fun _ => .pure _

theorem throughPointer_grows (outer : Conversion) (f g : TypeId) :
    ∀ inner, Grows (throughPointer outer f g inner)
  | none => .pure _
  | some _ => .bind (equalsUnqualified_grows _ _) fun _ => .ite (.pure _) (.pure _)

theorem convert_grows (nested : Bool) (src dst : TypeId) : Grows (convert nested src dst) := by
  induction hn : src.index using Nat.strongRecOn generalizing nested src dst with
  | ind n ih =>
    subst hn
    have hpart {t : TypeTable} {p : TypeId} (nested : Bool) (g : TypeId) (hp : p ∈ (t.shape src).parts) :
        Grows (convert nested p g) := ih _ (t.shape_part_lt hp) _ _ _ rfl
    rw [convert]
    refine .bind .get fun t => .bind (withConst_grows _ _) fun _ => .bind (withConst_grows _ _) fun _ =>
      .bind .get fun _ => .ite (.pure _) ?_
    split
    · exact .pure _
    · exact .pure _
    · exact .pure _
    · exact .pure _
    · rename_i f g hsrc _
      refine .ite (.pure _) (.bind (hpart (t := t) _ _ (by simp [hsrc, Shape.parts])) fun _ => ?_)
      exact throughPointer_grows _ _ _ _
    · rename_i f n g hsrc _
      exact .bind (hpart (t := t) _ _ (by simp [hsrc, Shape.parts])) fun _ => throughPointer_grows _ _ _ _
    · rename_i f m g n hsrc _
      refine .ite (.pure _) (.bind (hpart (t := t) _ _ (by simp [hsrc, Shape.parts])) fun inner => ?_)
      cases inner with
      | none => exact .pure _
      | some inner => exact .ite (.bind (bindArray_grows _ _) fun _ => .pure _) (.bind (.pure _) fun _ => .pure _)
    · exact .pure _

theorem explicitCast_grows (src dst : TypeId) : Grows (explicitCast src dst) := by
  refine .bind (withConst_grows _ _) fun _ => .bind (withConst_grows _ _) fun _ =>
    .bind (convert_grows _ _ _) fun conversion => ?_
  cases conversion with
  | none => exact .bind .get fun _ => .ite (.pure _) (.pure _)
  | some conversion => exact .bind .get fun _ => .pure _

theorem common_grows (a b : TypeId) : Grows (common a b) := by
  refine .bind .get fun t => ?_
  generalize (if (t.isIntegral a && t.isFloat b) = true then (b, a) else (a, b)) = p
  refine .bind (withConst_grows _ _) fun _ => .bind (withConst_grows _ _) fun _ => .bind .get fun t => ?_
  refine .ite (.pure _) (.ite ?_ (.ite (.pure _) (.ite (.pure _) (.ite ?_
    (.ite (.pure _) (.ite (.pure _) (.pure _)))))))
  · split
    · exact .ite (.map _ (intern_grows _)) (.pure _)
    · exact .pure _
  · exact .ite (.map _ (intern_grows _)) (.map _ (intern_grows _))

/-! ### Results -/

theorem bind_eq {x : TypeM α} {f : α → TypeM β} {b : β} :
    (x >>= f) t = (b, t') ↔ ∃ a t₁, x t = (a, t₁) ∧ f a t₁ = (b, t') :=
  ⟨fun h => ⟨_, _, rfl, h⟩, fun ⟨_, _, hx, hf⟩ => by
    show f (x t).1 (x t).2 = _
    rw [hx]
    exact hf⟩

theorem Grows.le {x : TypeM α} {a : α} (hx : Grows x) (h : x t = (a, t')) : t ≤ t' := by
  have := (hx t).le
  rwa [h] at this

/-- A type is entered, or has been. The table stays canonical if the parts of the type are there. -/
theorem intern_entry {shape : Shape} {isConst : Bool} {ty : TypeId} (h : intern shape isConst t = (ty, t'))
    (hc : t.Canonical) (hproper : TypeEntry.Proper ⟨shape, isConst⟩) (hparts : ∀ p ∈ shape.parts, t.Has p)
    (hstruct : ∀ id, shape = .struct id → t.Knows id) :
    t'.Canonical ∧ t'.Holds ty ⟨shape, isConst⟩ := by
  rcases intern_cases shape isConst t with ⟨_, hfound, heq⟩ | ⟨hnew, heq⟩
  · cases heq.symm.trans h
    exact ⟨hc, hc.ordered.holds (hc.found _ _ hproper hfound)⟩
  · cases heq.symm.trans h
    have hc' := hc.push hnew hproper hparts hstruct
    exact ⟨hc', hc'.ordered.holds Array.getElem?_push_size⟩

theorem intern_canonical {shape : Shape} (hc : t.Canonical) (hparts : ∀ p ∈ shape.parts, t.Has p)
    (hstruct : ∀ id, shape ≠ .struct id := by intro _ h; cases h) : (intern shape false t).2.Canonical :=
  (intern_entry rfl hc (.of_plain shape) hparts fun id h => absurd h (hstruct id)).1

/-- A type that is not const and no name. -/
theorem intern_plain {shape : Shape} {ty : TypeId} (h : intern shape false t = (ty, t')) (hc : t.Canonical)
    (hparts : ∀ p ∈ shape.parts, t.Has p) (hs : ∀ name target, shape ≠ .named name target)
    (hstruct : ∀ id, shape = .struct id → t.Knows id := by intro _ h; cases h) :
    t'.Canonical ∧ t'.Has ty ∧ t'.Plain shape ty := by
  obtain ⟨hc', hhas, hentry⟩ := intern_entry h hc (.of_plain shape) hparts hstruct
  have hnamed : ∀ name target, (t'.entry ty).shape ≠ .named name target := by
    rw [hentry]
    exact hs
  refine ⟨hc', hhas, ?_, ?_⟩
  · rw [shape_of_not_named hnamed, hentry]
  · rw [isConst, unalias_of_not_named hnamed, hentry]

/-- From `t₀` on, a computation keeps tables canonical and ends with a result for which `Q` holds. -/
def Yields (t₀ : TypeTable) (x : TypeM α) (Q : α → TypeTable → Prop) : Prop :=
  ∀ ⦃t⦄, t₀ ≤ t → t.Canonical → (x t).2.Canonical ∧ Q (x t).1 (x t).2

/-- From `t₀` on, a computation keeps tables canonical. -/
abbrev Keeps (t₀ : TypeTable) (x : TypeM α) : Prop := Yields t₀ x fun _ _ => True

namespace Yields

variable {t₀ : TypeTable} {Q : α → TypeTable → Prop}

theorem of_spec {x : TypeM α} (h : ∀ t a t', t₀ ≤ t → t.Canonical → x t = (a, t') → t'.Canonical ∧ Q a t') :
    Yields t₀ x Q :=
  fun _ ht hc => h _ _ _ ht hc rfl

theorem canonical {x : TypeM α} {a : α} (h : Yields t₀ x Q) (ht : t₀ ≤ t) (hc : t.Canonical) (hx : x t = (a, t')) :
    t'.Canonical := by
  have := (h ht hc).1
  rwa [hx] at this

theorem result {x : TypeM α} {a : α} (h : Yields t₀ x Q) (ht : t₀ ≤ t) (hc : t.Canonical) (hx : x t = (a, t')) :
    Q a t' := by
  have := (h ht hc).2
  rwa [hx] at this

theorem pure {a : α} (h : ∀ t, t₀ ≤ t → Q a t) : Yields t₀ (Pure.pure a) Q := fun t ht hc => ⟨hc, h t ht⟩

theorem get {f : TypeTable → TypeM α} (hf : ∀ t, t₀ ≤ t → Yields t (f t) Q) :
    Yields t₀ (MonadState.get >>= f) Q :=
  fun t ht hc => hf t ht le_rfl hc

/-- What follows may rely on the table that it is given. -/
theorem get_canonical {f : TypeTable → TypeM α} (hf : ∀ t, t₀ ≤ t → t.Canonical → Yields t (f t) Q) :
    Yields t₀ (MonadState.get >>= f) Q :=
  fun t ht hc => hf t ht hc le_rfl hc

theorem bind {R : β → TypeTable → Prop} {x : TypeM β} {f : β → TypeM α} (hx : Yields t₀ x R)
    (hgrows : Grows x) (hf : ∀ b t₁, t₀ ≤ t₁ → R b t₁ → Yields t₁ (f b) Q) : Yields t₀ (x >>= f) Q := by
  intro t ht hc
  obtain ⟨hc₁, hb⟩ := hx ht hc
  exact hf (x t).1 (x t).2 (ht.trans (hgrows t).le) hb le_rfl hc₁

/-- Where nothing is asked of an intermediate result. -/
theorem after {x : TypeM β} {f : β → TypeM α} (hx : Keeps t₀ x) (hgrows : Grows x)
    (hf : ∀ b t₁, t₀ ≤ t₁ → Yields t₁ (f b) Q) : Yields t₀ (x >>= f) Q :=
  bind hx hgrows fun b t₁ ht _ => hf b t₁ ht

theorem ite {p : Prop} [Decidable p] {x y : TypeM α} (hx : p → Yields t₀ x Q) (hy : ¬ p → Yields t₀ y Q) :
    Yields t₀ (if p then x else y) Q := by
  split
  · exact hx ‹p›
  · exact hy ‹¬ p›

theorem map {f : β → α} {x : TypeM β} (h : Yields t₀ x fun b t => Q (f b) t) : Yields t₀ (f <$> x) Q := h

theorem imp {R : α → TypeTable → Prop} {x : TypeM α} (h : Yields t₀ x R) (hRQ : ∀ a t, R a t → Q a t) :
    Yields t₀ x Q :=
  fun _ ht hc => (h ht hc).imp_right (hRQ _ _)

theorem and {R : α → TypeTable → Prop} {x : TypeM α} (h : Yields t₀ x Q) (h' : Yields t₀ x R) :
    Yields t₀ x fun a t => Q a t ∧ R a t :=
  fun _ ht hc => ⟨(h ht hc).1, (h ht hc).2, (h' ht hc).2⟩

end Yields

theorem intern_yields_plain {shape : Shape} (hparts : ∀ p ∈ shape.parts, t.Has p)
    (hs : ∀ name target, shape ≠ .named name target)
    (hstruct : ∀ id, shape ≠ .struct id := by intro _ h; cases h) :
    Yields t (intern shape false) fun ty t' => t'.Has ty ∧ t'.Plain shape ty :=
  .of_spec fun _ _ _ ht hc h =>
    intern_plain h hc (fun p hp => (hparts p hp).mono ht) hs fun id hid => absurd hid (hstruct id)

theorem intern_yields {shape : Shape} (hparts : ∀ p ∈ shape.parts, t.Has p)
    (hs : ∀ name target, shape ≠ .named name target)
    (hstruct : ∀ id, shape ≠ .struct id := by intro _ h; cases h) :
    Yields t (intern shape false) fun ty t' => t'.Has ty :=
  (intern_yields_plain hparts hs hstruct).imp fun _ _ h => h.1

theorem pointer_yields {target : TypeId} (h : t.Has target) : Yields t (pointer target) fun ty t' => t'.Has ty := by
  refine intern_yields (fun p hp => ?_) nofun
  obtain rfl := List.mem_singleton.1 hp
  exact h

end TypeM

end TypedCore
