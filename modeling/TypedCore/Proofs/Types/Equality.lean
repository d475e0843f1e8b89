import TypedCore.Proofs.Types.Canonical

/-!
# Equality of types is equality of trees

A type unfolds to a finite tree: names are replaced by what they stand for at every depth, and const
flags, widths, dimensions and the identities of structs are kept. Comparing two types compares their
trees, although it looks at numbers of entries first and never at shapes without parts: in a canonical
table two such entries that agree are one.
-/

namespace TypedCore

inductive TypeTree where
  | void (isConst : Bool)
  | bool (isConst : Bool)
  | integer (isConst : Bool) (bits : Nat) (signed : Bool)
  | float (isConst : Bool) (width : FloatWidth)
  | nullPointer (isConst : Bool)
  | pointer (isConst : Bool) (target : TypeTree)
  | array (isConst : Bool) (element : TypeTree) (dim : Nat)
  | function (isConst : Bool) (ret : TypeTree) (params : List TypeTree) (variadic : Bool)
  | struct (isConst : Bool) (id : StructId)

namespace TypeTable

/-- The tree of a type. -/
def tree (t : TypeTable) (ty : TypeId) : TypeTree :=
  match _h : (t.entry ty).shape with
  | .named _ target => t.tree target
  | .void => .void (t.entry ty).isConst
  | .bool => .bool (t.entry ty).isConst
  | .integer bits signed => .integer (t.entry ty).isConst bits signed
  | .float width => .float (t.entry ty).isConst width
  | .pointer none => .nullPointer (t.entry ty).isConst
  | .pointer (some target) => .pointer (t.entry ty).isConst (t.tree target)
  | .array element dim => .array (t.entry ty).isConst (t.tree element) dim
  | .function ret params variadic =>
    .function (t.entry ty).isConst (t.tree ret) (params.attach.map fun ⟨p, _⟩ => t.tree p) variadic
  | .struct id => .struct (t.entry ty).isConst id
termination_by ty.index
decreasing_by
  all_goals
    apply t.part_lt
    simp_all [Shape.parts]

end TypeTable

/-- One level of a tree whose parts are given by `tree`. -/
def Shape.unfold (tree : TypeId → TypeTree) (isConst : Bool) : Shape → TypeTree
  | .named _ target => tree target
  | .void => .void isConst
  | .bool => .bool isConst
  | .integer bits signed => .integer isConst bits signed
  | .float width => .float isConst width
  | .pointer none => .nullPointer isConst
  | .pointer (some target) => .pointer isConst (tree target)
  | .array element dim => .array isConst (tree element) dim
  | .function ret params variadic => .function isConst (tree ret) (params.map tree) variadic
  | .struct id => .struct isConst id

namespace Shape

variable {tree : TypeId → TypeTree} {same : TypeId → TypeId → Bool} {c c' : Bool} {s s' : Shape}

theorem isConst_of_unfold (hs : ∀ name target, s ≠ .named name target)
    (hs' : ∀ name target, s' ≠ .named name target) (h : s.unfold tree c = s'.unfold tree c') : c = c' := by
  unfold unfold at h
  split at h <;> split at h <;> simp_all

theorem all_zip_iff {ps qs : List TypeId}
    (h : ∀ x ∈ ps, ∀ y ∈ qs, same x y = true ↔ tree x = tree y) :
    (ps.length == qs.length && (ps.zip qs).all fun p => same p.1 p.2) = true ↔
      ps.map tree = qs.map tree := by
  induction ps generalizing qs with
  | nil => cases qs <;> simp
  | cons x ps ih =>
    cases qs with
    | nil => simp
    | cons y qs =>
      have hrest := @ih qs fun x hx y hy => h x (by simp [hx]) y (by simp [hy])
      have hfirst := h x (by simp) y (by simp)
      simp only [Bool.and_eq_true, beq_iff_eq] at hrest
      simp only [List.length_cons, List.zip_cons_cons, List.all_cons, List.map_cons, List.cons.injEq,
        Bool.and_eq_true, beq_iff_eq, Nat.add_right_cancel_iff, ← hrest, ← hfirst]
      exact and_left_comm

theorem unfold_eq_of_sameParts
    (h : ∀ x ∈ s.parts, ∀ y ∈ s'.parts, same x y = true ↔ tree x = tree y)
    (hsame : s.sameParts same s' = true) : s.unfold tree c = s'.unfold tree c := by
  unfold sameParts at hsame
  split at hsame
  · have hxy := (h _ (by simp [parts]) _ (by simp [parts])).1 hsame
    simp only [unfold, hxy]
  · simp only [Bool.and_eq_true, beq_iff_eq] at hsame
    have hxy := (h _ (by simp [parts]) _ (by simp [parts])).1 hsame.2
    simp only [unfold, hxy, hsame.1]
  · rename_i r ps v r' qs w
    simp only [Bool.and_assoc] at hsame
    simp only [Bool.and_eq_true (v == w), Bool.and_eq_true (same r r'), beq_iff_eq] at hsame
    have hret := (h r (by simp [parts]) r' (by simp [parts])).1 hsame.2.1
    have hparams := (all_zip_iff fun x hx y hy => h x (by simp [parts, hx]) y (by simp [parts, hy])).1
      hsame.2.2
    simp only [unfold, hsame.1, hret, hparams]
  · rw [beq_iff_eq] at hsame
    rw [hsame]
  · cases hsame

/-- Shapes that unfold to the same tree agree in their parts, or have none. -/
theorem sameParts_or_eq (hs : ∀ name target, s ≠ .named name target)
    (hs' : ∀ name target, s' ≠ .named name target)
    (h : ∀ x ∈ s.parts, ∀ y ∈ s'.parts, same x y = true ↔ tree x = tree y)
    (heq : s.unfold tree c = s'.unfold tree c) : s.sameParts same s' = true ∨ s = s' := by
  cases s with
  | named name target => exact absurd rfl (hs name target)
  | void | bool | integer | float | struct =>
    cases s' with
    | named name target => exact absurd rfl (hs' name target)
    | pointer y => cases y <;> simp [unfold] at heq
    | _ => simp_all [unfold]
  | pointer x =>
    cases s' with
    | named name target => exact absurd rfl (hs' name target)
    | pointer y =>
      cases x <;> cases y <;> simp only [unfold, reduceCtorEq, TypeTree.pointer.injEq] at heq
      · exact .inr rfl
      · exact .inl ((h _ (by simp [parts]) _ (by simp [parts])).2 heq.2)
    | _ => cases x <;> simp [unfold] at heq
  | array x n =>
    cases s' with
    | named name target => exact absurd rfl (hs' name target)
    | pointer y => cases y <;> simp [unfold] at heq
    | array y m =>
      simp only [unfold, TypeTree.array.injEq] at heq
      have hxy := (h x (by simp [parts]) y (by simp [parts])).2 heq.2.1
      simp [sameParts, hxy, heq.2.2]
    | _ => simp [unfold] at heq
  | function r ps v =>
    cases s' with
    | named name target => exact absurd rfl (hs' name target)
    | pointer y => cases y <;> simp [unfold] at heq
    | function r' qs w =>
      simp only [unfold, TypeTree.function.injEq] at heq
      have hret := (h r (by simp [parts]) r' (by simp [parts])).2 heq.2.1
      have hparams := (all_zip_iff fun x hx y hy => h x (by simp [parts, hx]) y (by simp [parts, hy])).2
        heq.2.2.1
      refine .inl ?_
      rw [sameParts, Bool.and_assoc, hparams, hret, heq.2.2.2]
      simp
    | _ => simp [unfold] at heq

end Shape

namespace TypeTable

variable {t : TypeTable} {a b : TypeId}

theorem tree_entry (t : TypeTable) (ty : TypeId) :
    t.tree ty = (t.entry ty).shape.unfold t.tree (t.entry ty).isConst := by
  rw [tree]
  split
  all_goals
    rename_i hs
    simp [hs, Shape.unfold]

theorem tree_unalias (t : TypeTable) (ty : TypeId) : t.tree (t.unalias ty) = t.tree ty := by
  fun_induction t.unalias ty with
  | case1 ty name target hs ih =>
    rw [ih, t.tree_entry ty, hs]
    rfl
  | case2 ty => rfl

theorem tree_shape (t : TypeTable) (ty : TypeId) :
    t.tree ty = (t.shape ty).unfold t.tree (t.isConst ty) := by
  rw [← t.tree_unalias, tree_entry]
  rfl

/-- Types are equal if they unfold to the same tree. -/
theorem Canonical.equals_iff (hc : t.Canonical) {a b : TypeId} (ha : t.Has a) (hb : t.Has b) :
    t.equals a b = true ↔ t.tree a = t.tree b := by
  induction a using t.parts_induction generalizing b with
  | step a ih =>
    rw [equals_eq]
    by_cases hu : t.unalias a = t.unalias b
    · rw [if_pos hu, ← t.tree_unalias a, hu, t.tree_unalias]
      exact iff_of_true rfl rfl
    rw [if_neg hu, t.tree_shape a, t.tree_shape b]
    have hna := t.shape_ne_named a
    have hnb := t.shape_ne_named b
    by_cases hconst : t.isConst a = t.isConst b
    · have hparts : ∀ x ∈ (t.shape a).parts, ∀ y ∈ (t.shape b).parts,
          t.equals x y = true ↔ t.tree x = t.tree y := fun x hx y hy =>
        ih x hx (ha.part hx) (hb.part hy)
      rw [if_neg (not_not_intro hconst), hconst]
      refine ⟨Shape.unfold_eq_of_sameParts hparts, fun h => ?_⟩
      rcases Shape.sameParts_or_eq hna hnb hparts h with h | h
      · exact h
      · -- two entries that agree are those of a removed struct
        have hentry : t.entry (t.unalias a) = t.entry (t.unalias b) := by
          rw [t.entry_unalias, t.entry_unalias, h, hconst]
        rcases hc.eq_or_retired ha.unalias hb.unalias hentry with h' | ⟨id, hs, -⟩
        · exact absurd h' hu
        · replace hs : t.shape a = .struct id := hs
          simp [← h, hs, Shape.sameParts]
    · rw [if_pos hconst]
      refine iff_of_false Bool.false_ne_true fun h => hconst ?_
      exact Shape.isConst_of_unfold hna hnb h

/-- Two types that equal a third are equal. -/
theorem Canonical.equals_of_equals (hc : t.Canonical) {ty : TypeId} (ha : t.Has a) (hb : t.Has b) (hty : t.Has ty)
    (h : t.equals a ty = true) (h' : t.equals b ty = true) : t.equals a b = true :=
  (hc.equals_iff ha hb).2 (((hc.equals_iff ha hty).1 h).trans ((hc.equals_iff hb hty).1 h').symm)

end TypeTable

open TypeTable

/-- In every table that is built from nothing, comparing types compares their trees, and so is an
equivalence. -/
theorem equals_iff_same_tree {sizeBits : Nat} {t : TypeTable} (h : Reaches (.empty sizeBits) t) :
    (∀ a b, t.Has a → t.Has b → (t.equals a b = true ↔ t.tree a = t.tree b)) ∧
      Equivalence fun a b : { ty // t.Has ty } => t.equals a b = true := by
  have hc := h.canonical
  have hiff : ∀ a b : { ty // t.Has ty }, t.equals a b = true ↔ t.tree a = t.tree b :=
    fun a b => hc.equals_iff a.2 b.2
  refine ⟨fun a b => hc.equals_iff, fun a => ?_, fun {a b} hab => ?_, fun {a b c} hab hbc => ?_⟩
  · exact (hiff a a).2 rfl
  · exact (hiff b a).2 ((hiff a b).1 hab).symm
  · exact (hiff a c).2 (((hiff a b).1 hab).trans ((hiff b c).1 hbc))

/-- The two entries of a removed struct have one tree; a const pointer and one that is not have two. -/
theorem interned_equals_iff_same_tree :
    Reaches (.empty 64) Interned.table ∧ Interned.table.Has ⟨0⟩ ∧ Interned.table.Has ⟨5⟩ ∧
    Interned.table.equals ⟨0⟩ ⟨5⟩ = true ∧ Interned.table.tree ⟨0⟩ = Interned.table.tree ⟨5⟩ ∧
    Interned.table.Has ⟨4⟩ ∧ Interned.table.Has ⟨7⟩ ∧
    Interned.table.equals ⟨4⟩ ⟨7⟩ = false ∧ Interned.table.tree ⟨4⟩ ≠ Interned.table.tree ⟨7⟩ ∧
    Equivalence fun a b : { ty // Interned.table.Has ty } => Interned.table.equals a b = true := by
  have hhas : ∀ i < 9, Interned.table.Has ⟨i⟩ := by decide +kernel
  have hequal : Interned.table.equals ⟨0⟩ ⟨5⟩ = true := by decide +kernel
  have hdiffer : Interned.table.equals ⟨4⟩ ⟨7⟩ = false := by decide +kernel
  obtain ⟨hiff, hequivalence⟩ := equals_iff_same_tree Interned.reaches
  have h₀₅ := hiff ⟨0⟩ ⟨5⟩ (hhas 0 (by omega)) (hhas 5 (by omega))
  have h₄₇ := hiff ⟨4⟩ ⟨7⟩ (hhas 4 (by omega)) (hhas 7 (by omega))
  refine ⟨Interned.reaches, hhas 0 (by omega), hhas 5 (by omega), hequal, h₀₅.1 hequal,
    hhas 4 (by omega), hhas 7 (by omega), hdiffer, fun h => ?_, hequivalence⟩
  rw [h₄₇.2 h] at hdiffer
  cases hdiffer

end TypedCore
