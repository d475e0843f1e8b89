import TypedCore.Proofs.Types.Growth

/-!
# Const flags

A type is given a const flag under its names: what they stand for is entered with the flag, and then the
names again. The result is the type `Qualified` by the flag.
-/

namespace TypedCore

namespace TypeTable

variable {t t' : TypeTable} {ty : TypeId}

theorem aliasNames_of_named {name : String} {target : TypeId}
    (h : (t.entry ty).shape = .named name target) : t.aliasNames ty = name :: t.aliasNames target := by
  rw [aliasNames]
  split
  · rename_i h'
    cases h.symm.trans h'
    rfl
  · rename_i h'
    exact absurd h (h' _ _)

theorem aliasNames_of_not_named (h : ∀ name target, (t.entry ty).shape ≠ .named name target) :
    t.aliasNames ty = [] := by
  rw [aliasNames]
  split
  · rename_i h'
    exact absurd h' (h _ _)
  · rfl

theorem Has.aliasNames_eq (h : t.Has ty) (ht : t ≤ t') : t'.aliasNames ty = t.aliasNames ty := by
  fun_induction t.aliasNames ty with
  | case1 ty name target hs ih =>
    have htarget : t.Has target := Nat.lt_trans (t.part_lt (by simp [hs, Shape.parts])) h
    rw [← ih htarget]
    exact aliasNames_of_named ((congrArg TypeEntry.shape (h.entry_eq ht)).trans hs)
  | case2 ty hs =>
    exact aliasNames_of_not_named fun name target => by rw [h.entry_eq ht]; exact hs name target

/-- `ty` is `base` under the given names. -/
def Spelled (t : TypeTable) : List String → TypeId → TypeId → Prop
  | [], base, ty => ty = base
  | name :: names, base, ty =>
    ∃ target, t.Holds ty ⟨.named name target, false⟩ ∧ t.Spelled names base target

namespace Spelled

variable {base a b : TypeId}

theorem mono (ht : t ≤ t') : ∀ {names : List String} {ty : TypeId}, t.Spelled names base ty →
    t'.Spelled names base ty
  | [], _, h => h
  | _ :: _, _, ⟨target, he, h⟩ => ⟨target, he.mono ht, h.mono ht⟩

theorem unalias_eq (hbase : ∀ name target, (t.entry base).shape ≠ .named name target) :
    ∀ {names : List String} {ty : TypeId}, t.Spelled names base ty → t.unalias ty = base
  | [], _, rfl => unalias_of_not_named hbase
  | _ :: _, _, ⟨_, he, h⟩ => by
    rw [unalias_of_named (congrArg TypeEntry.shape he.entry_eq)]
    exact h.unalias_eq hbase

theorem aliasNames_eq (hbase : ∀ name target, (t.entry base).shape ≠ .named name target) :
    ∀ {names : List String} {ty : TypeId}, t.Spelled names base ty → t.aliasNames ty = names
  | [], _, rfl => aliasNames_of_not_named hbase
  | _ :: _, _, ⟨_, he, h⟩ => by
    rw [aliasNames_of_named (congrArg TypeEntry.shape he.entry_eq), h.aliasNames_eq hbase]

end Spelled

/-- `ty'` is `ty`, under the same names, with the given const flag. -/
def Qualified (t : TypeTable) (ty : TypeId) (isConst : Bool) (ty' : TypeId) : Prop :=
  ∃ base, t.Holds base ⟨t.shape ty, isConst⟩ ∧ t.Spelled (t.aliasNames ty) base ty'

namespace Qualified

variable {isConst isConst' : Bool} {ty' a b : TypeId}

theorem has (h : t.Qualified ty isConst ty') : t.Has ty' := by
  obtain ⟨base, he, hspelled⟩ := h
  cases hnames : t.aliasNames ty with
  | nil =>
    rw [hnames] at hspelled
    cases hspelled
    exact he.has
  | cons name names =>
    rw [hnames] at hspelled
    obtain ⟨_, he, -⟩ := hspelled
    exact he.has

theorem spelling (h : t.Qualified ty isConst ty') :
    t.shape ty' = t.shape ty ∧ t.isConst ty' = isConst ∧ t.aliasNames ty' = t.aliasNames ty := by
  obtain ⟨base, he, hspelled⟩ := h
  have hentry := he.entry_eq
  have hbase : ∀ name target, (t.entry base).shape ≠ .named name target := by
    rw [hentry]
    exact t.shape_ne_named ty
  refine ⟨?_, ?_, hspelled.aliasNames_eq hbase⟩
  · rw [shape, hspelled.unalias_eq hbase, hentry]
  · rw [TypeTable.isConst, hspelled.unalias_eq hbase, hentry]

theorem mono (h : t.Qualified ty isConst ty') (hty : t.Has ty) (ht : t ≤ t') :
    t'.Qualified ty isConst ty' := by
  obtain ⟨base, he, hspelled⟩ := h
  refine ⟨base, ?_, ?_⟩
  · rw [hty.shape_eq ht]
    exact he.mono ht
  · rw [hty.aliasNames_eq ht]
    exact hspelled.mono ht

/-- Of two flags given one after the other the second counts. -/
theorem trans (h : t.Qualified ty isConst ty') (h' : t.Qualified ty' isConst' a) :
    t.Qualified ty isConst' a := by
  obtain ⟨hshape, -, hnames⟩ := h.spelling
  rwa [Qualified, hshape, hnames] at h'

end Qualified

end TypeTable

namespace TypeM

open TypeTable

variable {t t' : TypeTable} {ty ty' : TypeId}

theorem foldrM_named_spelled {base : TypeId} (hc : t.Canonical) :
    ∀ {names : List String} {ty t'}, names.foldrM named base t = (ty, t') → t.Has base →
      t'.Canonical ∧ t'.Has ty ∧ t'.Spelled names base ty
  | [], _, _, h, hb => by
    cases h
    exact ⟨hc, hb, rfl⟩
  | name :: names, ty, t', h, hb => by
    rw [List.foldrM_cons] at h
    obtain ⟨ty₁, t₁, h₁, h⟩ := bind_eq.1 h
    obtain ⟨hc₁, hty₁, hspelled⟩ := foldrM_named_spelled hc h₁ hb
    have hparts : ∀ p ∈ (Shape.named name ty₁).parts, t₁.Has p := by simpa [Shape.parts] using hty₁
    obtain ⟨hc', hholds⟩ := intern_entry h hc₁ (.of_plain _) hparts (by rintro _ ⟨⟩)
    exact ⟨hc', hholds.has, ty₁, hholds, hspelled.mono ((intern_grows _).le h)⟩

/-- The result of giving a type a const flag. -/
theorem withConst_qualified {isConst : Bool} (h : withConst ty isConst t = (ty', t')) (hc : t.Canonical)
    (hty : t.Has ty) : t'.Canonical ∧ t'.Qualified ty isConst ty' := by
  have hle := (withConst_grows ty isConst).le h
  have hbase := hty.unalias
  obtain ⟨_, _, hget, h⟩ := bind_eq.1 h
  cases hget
  rw [Qualified, hty.shape_eq hle, hty.aliasNames_eq hle]
  simp only at h
  split at h
  · rename_i hsame
    have hholds : t.Holds (t.unalias ty) ⟨t.shape ty, isConst⟩ := by
      refine ⟨hbase, ?_⟩
      rw [shape, ← hsame]
    obtain ⟨hc', -, hspelled⟩ := foldrM_named_spelled hc h hbase
    exact ⟨hc', _, hholds.mono hle, hspelled⟩
  · obtain ⟨changed, t₁, hintern, h⟩ := bind_eq.1 h
    have hparts : ∀ p ∈ (t.entry (t.unalias ty)).shape.parts, t.Has p := fun p hp =>
      Nat.lt_trans (t.part_lt hp) hbase
    obtain ⟨hc₁, hholds⟩ := intern_entry hintern hc (t.proper_of_shape ty isConst) hparts fun id hs => .inr ⟨_, hs⟩
    have hnames : t₁ ≤ t' := Grows.le (.foldrM (fun _ _ => intern_grows _) _ _) h
    obtain ⟨hc', -, hspelled⟩ := foldrM_named_spelled hc₁ h hholds.has
    exact ⟨hc', changed, hholds.mono hnames, hspelled⟩

theorem withConst_yields {isConst : Bool} (hty : t.Has ty) :
    Yields t (withConst ty isConst) fun ty' t' => t'.Qualified ty isConst ty' :=
  .of_spec fun _ _ _ ht hc h => withConst_qualified h hc (hty.mono ht)

/-- A table stays canonical whatever type is given a flag. -/
theorem withConst_keeps (t₀ : TypeTable) (ty : TypeId) (isConst : Bool) : Keeps t₀ (withConst ty isConst) := by
  refine .of_spec fun t ty' t' _ hc h => ⟨?_, trivial⟩
  by_cases hty : t.Has ty
  · exact (withConst_qualified h hc hty).1
  · -- a number that has not been issued counts as `void`
    have hentry := entry_of_not_has hty
    have hnamed : ∀ name target, (t.entry ty).shape ≠ .named name target := by
      rw [hentry]
      exact nofun
    obtain ⟨_, _, hget, h⟩ := bind_eq.1 h
    cases hget
    simp only [unalias_of_not_named hnamed, aliasNames_of_not_named hnamed, hentry] at h
    split at h
    · cases h
      exact hc
    · obtain ⟨changed, t₁, hintern, h⟩ := bind_eq.1 h
      cases h
      exact (intern_entry hintern hc (fun _ _ h => by cases h) nofun (by rintro _ ⟨⟩)).1

end TypeM

end TypedCore
