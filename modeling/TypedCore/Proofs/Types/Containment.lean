import Mathlib.Order.RelClasses
import TypedCore.Proofs.Session.Declarations
import TypedCore.Proofs.Typing.Constructors

/-!
# Structs inside structs

An object of a struct holds the objects of its members, and a member that is an array holds one for each
element. A struct is completed once, with members that have a size, so that the structs in it are complete
already: no struct holds itself, at any depth, and there is an end to the structs in a struct.
-/

namespace TypedCore

/-- What is in stages is well-founded: a new relation leads to old things only, from old ones as before. -/
theorem wellFounded_of_stage {α : Type} {r r' : α → α → Prop} {old : α → Prop} (hwf : WellFounded r)
    (h : ∀ inner outer, r' inner outer → old inner ∧ (old outer → r inner outer)) : WellFounded r' := by
  have hold : ∀ a, old a → Acc r' a := by
    intro a
    induction a using hwf.induction with
    | h a ih =>
      intro ha
      refine ⟨_, fun b hb => ?_⟩
      obtain ⟨hsome, hr⟩ := h b a hb
      exact ih b (hr ha) hsome
  exact ⟨fun a => ⟨_, fun b hb => hold b (h b a hb).1⟩⟩

namespace TypeTable

variable {t t' : TypeTable} {ty : TypeId} {outer inner : StructId}

/-! ### Containment -/

/-- The struct whose objects an object of the type consists of: one of them, or an array. -/
def heldStruct? (t : TypeTable) (ty : TypeId) : Option StructId :=
  match _h : t.shape ty with
  | .array element _ => heldStruct? t element
  | .struct id => some id
  | _ => none
termination_by ty.index
decreasing_by exact t.shape_part_lt (by simp [_h, Shape.parts])

theorem heldStruct?_eq (t : TypeTable) (ty : TypeId) : t.heldStruct? ty =
    match t.shape ty with
    | .array element _ => t.heldStruct? element
    | .struct id => some id
    | _ => none := by
  rw [heldStruct?]
  split <;> simp_all

/-- A complete struct has a member that consists of objects of another one. -/
def Contains (t : TypeTable) (outer inner : StructId) : Prop :=
  ∃ ms, (t.struct outer).members = some ms ∧ ∃ m ∈ ms, t.heldStruct? m.ty = some inner

theorem Has.heldStruct?_eq (h : t.Has ty) (ht : t ≤ t') : t'.heldStruct? ty = t.heldStruct? ty := by
  induction ty using t.parts_induction with
  | step ty ih =>
    rw [t.heldStruct?_eq, t'.heldStruct?_eq, h.shape_eq ht]
    cases hs : t.shape ty with
    | array element dim =>
      have hel : element ∈ (t.shape ty).parts := by simp [hs, Shape.parts]
      exact ih element hel (h.part hel)
    | _ => rfl

/-- There is room only for structs that are complete. -/
theorem complete_of_heldStruct? (hheld : t.heldStruct? ty = some inner) (hsize : t.hasSize ty = true) :
    (t.struct inner).members.isSome = true := by
  induction ty using t.parts_induction with
  | step ty ih =>
    rw [heldStruct?_eq] at hheld
    rw [hasSize_eq] at hsize
    cases hs : t.shape ty with
    | array element dim =>
      simp only [hs, Bool.and_eq_true] at hheld hsize
      have hel : element ∈ (t.shape ty).parts := by simp [hs, Shape.parts]
      exact ih element hel hheld hsize.2
    | struct id =>
      simp only [hs, Option.some.injEq] at hheld hsize
      rwa [← hheld]
    | _ => simp [hs] at hheld

theorem Roomy.complete (hroomy : t.Roomy) (h : t.Contains outer inner) : (t.struct inner).members.isSome = true := by
  obtain ⟨ms, hms, m, hm, hheld⟩ := h
  exact complete_of_heldStruct? hheld (hroomy outer ms hms m hm)

/-! ### Completion in stages -/

/-- What a step puts into a struct was complete before, and it puts nothing into a complete struct. -/
theorem Step.contains (hstep : Step t t') (hclosed : t.Closed) (hroomy : t.Roomy) (h : t'.Contains outer inner) :
    (t.struct inner).members.isSome = true ∧ ((t.struct outer).members.isSome = true → t.Contains outer inner) := by
  obtain ⟨ms, hms, m, hm, hheld⟩ := h
  rcases hstep.members_cases hms with hold | ⟨-, hnew⟩
  · have hcontains : t.Contains outer inner :=
      ⟨ms, hold, m, hm, by rwa [(hclosed outer ms hold m hm).heldStruct?_eq hstep.le] at hheld⟩
    exact ⟨hroomy.complete hcontains, fun _ => hcontains⟩
  · obtain ⟨hhas, hsize⟩ := hnew m hm
    rw [hhas.heldStruct?_eq hstep.le] at hheld
    refine ⟨complete_of_heldStruct? hheld hsize, fun hcomplete => ?_⟩
    obtain ⟨ms₀, hms₀⟩ := Option.isSome_iff_exists.1 hcomplete
    cases (hstep.members_eq hms₀).symm.trans hms
    exact ⟨ms, hms₀, m, hm, hheld⟩

/-- Structs that were complete hold what they held, and every other one holds only such structs. -/
theorem Step.contains_wellFounded (hstep : Step t t') (hclosed : t.Closed) (hroomy : t.Roomy)
    (hwf : WellFounded fun inner outer => t.Contains outer inner) :
    WellFounded fun inner outer => t'.Contains outer inner :=
  wellFounded_of_stage hwf fun _ _ h => hstep.contains hclosed hroomy h

theorem contains_wellFounded {sizeBits : Nat} (h : Steps (empty sizeBits) t) :
    WellFounded fun inner outer => t.Contains outer inner := by
  induction h with
  | refl =>
    refine ⟨fun id => ⟨_, fun inner hinner => ?_⟩⟩
    obtain ⟨ms, hms, -⟩ := hinner
    simp [struct, empty] at hms
  | tail hsteps hstep ih =>
    exact hstep.contains_wellFounded ((closed_empty sizeBits).steps hsteps) (roomy_of_steps hsteps) ih

theorem members_nodup {sizeBits : Nat} (h : Steps (empty sizeBits) t) {id : StructId} {ms : List Member}
    (hms : (t.struct id).members = some ms) : (ms.map (·.name)).Nodup := by
  induction h with
  | refl => simp [struct, empty] at hms
  | tail hsteps hstep ih =>
    rcases hstep.members_cases hms with hold | ⟨hnodup, -⟩
    · exact ih hold
    · exact hnodup

/-- Only a type that has been issued has a size, so that it keeps it. -/
theorem hasSize_of_le (ht : t ≤ t') (hsize : t.hasSize ty = true) : t'.hasSize ty = true := by
  have hhas : t.Has ty := has_of_shape fun hs => by simp [hasSize_eq, hs] at hsize
  exact hhas.hasSize_of_le ht hsize

end TypeTable

open TypeTable

/-- In every table that can be built, containment is well-founded and contained structs are complete. Members
have different names and never change afterwards, and a type that has a size keeps it, whatever is done. A
completion that is refused does nothing to the types. -/
theorem struct_containment_wellFounded {sizeBits : Nat} {t : TypeTable} (h : TypeTable.Reaches (.empty sizeBits) t) :
    (WellFounded fun inner outer => t.Contains outer inner) ∧
    (∀ outer inner, t.Contains outer inner → (t.struct inner).members.isSome = true) ∧
    (∀ id ms, (t.struct id).members = some ms → (ms.map (·.name)).Nodup) ∧
    (∀ t', TypeTable.Reaches t t' →
      (∀ id ms, (t.struct id).members = some ms → (t'.struct id).members = some ms) ∧
      ∀ ty, t.hasSize ty = true → t'.hasSize ty = true) ∧
    (∀ ty names types e, t.completeStruct ty names types = .error e →
      (Op.completeStruct ty names types).apply t = t) ∧
    (∀ ty names types e t', Ends (TypeM.completeStruct ty names types) t (.error e) t' → t' = t) ∧
    ∀ (s s' : Session) ty members span stop, s.types = t →
      Ends (Session.completeStruct ty members span) s (.error stop) s' → s'.types = t := by
  have hsteps := h.steps
  refine ⟨contains_wellFounded hsteps, fun outer inner => (roomy_of_steps hsteps).complete,
    fun id ms => members_nodup hsteps, fun t' h' => ⟨fun id ms => structMembers_of_le h'.steps.le,
      fun ty => hasSize_of_le h'.steps.le⟩, fun ty names types e herror => ?_,
    fun ty names types e t' hends => ?_, fun s s' ty members span stop hs hends => ?_⟩
  · refine (Op.apply_completeStruct t ty names types).resolve_right fun hok => ?_
    cases herror.symm.trans hok
  · rcases completeStruct_cases hends with ⟨_, -, rfl⟩ | ⟨id, -, -, hok, -⟩
    · rfl
    · cases hok
  · rcases Session.completeStruct_cases hends with ⟨stop', log, -, rfl⟩ | ⟨types, hok, -⟩
    · exact hs
    · cases hok

namespace Nested

/-- A struct of two named const structs and a pointer to itself, and a scope that is closed. -/
def ops : List Op :=
  [.incompleteStruct "Point", .integer 32 true, .completeStruct ⟨0⟩ ["x", "y"] [⟨1⟩, ⟨1⟩], .const ⟨0⟩,
    .named "Corner" ⟨2⟩, .array ⟨3⟩ 2, .incompleteStruct "Box", .pointer ⟨5⟩,
    .completeStruct ⟨5⟩ ["corners", "next"] [⟨4⟩, ⟨6⟩], .removeStruct ⟨5⟩]

def table : TypeTable := ops.foldl Op.apply (.empty 64)

theorem reaches : TypeTable.Reaches (.empty 64) table := Op.reaches_foldl (by decide +kernel)

end Nested

open Nested in
/-- The box holds points and not itself, and its completion is refused from then on. -/
theorem box_containment_wellFounded :
    table.Contains ⟨1⟩ ⟨0⟩ ∧ ¬ table.Contains ⟨1⟩ ⟨1⟩ ∧ (table.struct ⟨0⟩).members.isSome = true ∧
    (Op.completeStruct ⟨5⟩ ["x"] [⟨5⟩]).apply table = table := by
  obtain ⟨hwf, hcomplete, -, -, hrefused, -, -⟩ := struct_containment_wellFounded reaches
  have hcontains : table.Contains ⟨1⟩ ⟨0⟩ :=
    ⟨[⟨"corners", ⟨4⟩⟩, ⟨"next", ⟨6⟩⟩], by decide +kernel, ⟨"corners", ⟨4⟩⟩, by simp, by decide +kernel⟩
  have hfails : (table.completeStruct ⟨5⟩ ["x"] [⟨5⟩]).isOk = false := by decide +kernel
  refine ⟨hcontains, fun h => hwf.asymmetric _ _ h h, hcomplete _ _ hcontains, ?_⟩
  cases herror : table.completeStruct ⟨5⟩ ["x"] [⟨5⟩] with
  | error e => exact hrefused ⟨5⟩ ["x"] [⟨5⟩] e herror
  | ok t =>
    rw [herror] at hfails
    cases hfails

end TypedCore
