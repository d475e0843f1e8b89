import TypedCore.Proofs.Types.Conversions
import TypedCore.Proofs.Types.Equality

/-!
# Conversions as conversions of trees

A conversion is decided by the trees of the two types alone, and what comes out of it is a tree again. So it is
with explicit casts and with common types. Here the three are defined on trees, and the operations on a table
are shown to do what they do.
-/

namespace TypedCore

/-! ### Trees -/

namespace TypeTree

def isConst : TypeTree → Bool
  | void c | bool c | integer c _ _ | float c _ | nullPointer c | pointer c _ | array c _ _ | function c _ _ _
  | struct c _ => c

/-- A tree with another const flag at its root. -/
def withConst (c : Bool) : TypeTree → TypeTree
  | void _ => void c
  | bool _ => bool c
  | integer _ bits signed => integer c bits signed
  | float _ width => float c width
  | nullPointer _ => nullPointer c
  | pointer _ target => pointer c target
  | array _ element dim => array c element dim
  | function _ ret params variadic => function c ret params variadic
  | struct _ id => struct c id

/-- A tree without the const flag of its root. -/
abbrev plain : TypeTree → TypeTree := withConst false

def isVoid : TypeTree → Bool
  | void _ => true
  | _ => false

def isBool : TypeTree → Bool
  | bool _ => true
  | _ => false

def isUnsigned : TypeTree → Bool
  | integer _ _ signed => !signed
  | _ => false

def isIntegral : TypeTree → Bool
  | bool _ | integer .. => true
  | _ => false

def isFloat : TypeTree → Bool
  | float .. => true
  | _ => false

def isArithmetic (x : TypeTree) : Bool := x.isIntegral || x.isFloat

def isNull : TypeTree → Bool
  | nullPointer _ => true
  | _ => false

def isPointer : TypeTree → Bool
  | nullPointer _ | pointer .. => true
  | _ => false

def isArray : TypeTree → Bool
  | array .. => true
  | _ => false

def isUnbound : TypeTree → Bool
  | array _ _ dim => dim == 0
  | _ => false

def bits? : TypeTree → Option Nat
  | bool _ => some 1
  | integer _ bits _ => some bits
  | float _ width => some width.bits
  | _ => none

def target? : TypeTree → Option TypeTree
  | pointer _ target => some target
  | array _ element _ => some element
  | _ => none

/-- What is pointed to loses its const flag. -/
def losesConst (src dst : TypeTree) : Bool := src.isConst && !dst.isConst

noncomputable instance : DecidableEq TypeTree := Classical.decEq _

/-- The conversion from one tree to another, if there is one: the tree that comes out, and whether a const flag
gets lost on the way. -/
noncomputable def convert (nested : Bool) (src dst : TypeTree) : Option (TypeTree × Bool) :=
  let discards := nested && src.losesConst dst
  if src.plain = dst.plain then some (dst, discards)
  else
    match src, dst with
    | src, .bool _ => if src.isIntegral || src.isPointer then some (dst, discards) else none
    | src, .integer .. => if src.isArithmetic then some (dst, discards) else none
    | src, .float .. => if src.isArithmetic then some (dst, discards) else none
    | .nullPointer _, .pointer .. => some (dst, discards)
    | .pointer _ f, .pointer _ g =>
      if f.isVoid || g.isVoid || f.plain = g.plain then some (dst, discards || f.losesConst g) else none
    | .array _ f _, .pointer _ g => if f.plain = g.plain then some (dst, discards || f.losesConst g) else none
    | .array _ f m, .array c g n =>
      if n ≠ m && n ≠ 0 then none
      else (convert nested f g).map fun inner => (.array c g m, discards || inner.2)
    | _, _ => none

/-- The conversion that a program asks for. -/
noncomputable def cast (src dst : TypeTree) : Option (TypeTree × Bool) :=
  match convert false src.plain dst.plain with
  | some (target, discards) => some (if dst.isUnbound then target else dst, discards)
  | none =>
    if src.isPointer && dst.isPointer && !dst.isNull then
      some (dst, match src.target?, dst.target? with
        | some f, some g => f.losesConst g
        | _, _ => false)
    else none

/-- The common tree of two operands. -/
noncomputable def common (a b : TypeTree) : Option TypeTree :=
  let (a, b) := if a.isIntegral && b.isFloat then (b, a) else (a, b)
  if a.plain = b.plain then some a.plain
  else if a.isArray && b.isArray then
    match a.target?, b.target? with
    | some x, some y => if x = y then some (.pointer false x) else none
    | _, _ => none
  else if a.isFloat && b.isIntegral then some a.plain
  else if a.isFloat && b.isFloat then
    some (if (a.bits?).getD 0 ≥ (b.bits?).getD 0 then a.plain else b.plain)
  else if a.isIntegral && b.isIntegral then
    if a.isBool && b.isBool then some (.bool false)
    else some (.integer false (max ((a.bits?).getD 1) ((b.bits?).getD 1)) !(a.isUnsigned || b.isUnsigned))
  else if a.isPointer && b.isNull then some a.plain
  else if a.isNull && b.isPointer then some b.plain
  else none

end TypeTree

namespace Shape

variable {tree tree' : TypeId → TypeTree} {c c' : Bool} {s : Shape}

theorem unfold_congr (h : ∀ p ∈ s.parts, tree p = tree' p) : s.unfold tree c = s.unfold tree' c := by
  unfold unfold
  split <;> simp_all [parts]

theorem isConst_unfold (hs : ∀ name target, s ≠ .named name target) : (s.unfold tree c).isConst = c := by
  unfold unfold
  split <;> simp_all [TypeTree.isConst]

theorem withConst_unfold (hs : ∀ name target, s ≠ .named name target) :
    (s.unfold tree c).withConst c' = s.unfold tree c' := by
  unfold unfold
  split <;> simp_all [TypeTree.withConst]

/-- Outside the rows of the table there is no conversion. -/
theorem convert_unfold_eq_none {s' : Shape} {nested : Bool}
    (hplain : (s.unfold tree c).plain ≠ (s'.unfold tree c').plain) (hs : ∀ name target, s ≠ .named name target)
    (hs' : ∀ name target, s' ≠ .named name target) (hbool : s' ≠ .bool)
    (hinteger : ∀ bits signed, s' ≠ .integer bits signed) (hfloat : ∀ width, s' ≠ .float width)
    (hnull : ∀ g, s = .pointer none → s' ≠ .pointer (some g))
    (hpointer : ∀ f g, s = .pointer (some f) → s' ≠ .pointer (some g))
    (hdecay : ∀ f n g, s = .array f n → s' ≠ .pointer (some g))
    (harray : ∀ f m g n, s = .array f m → s' ≠ .array g n) :
    TypeTree.convert nested (s.unfold tree c) (s'.unfold tree c') = none := by
  rw [TypeTree.convert.eq_def, if_neg hplain]
  cases s' with
  | named name target => exact absurd rfl (hs' name target)
  | bool => exact absurd rfl hbool
  | integer bits signed => exact absurd rfl (hinteger bits signed)
  | float width => exact absurd rfl (hfloat width)
  | void | function | struct => simp only [unfold]
  | pointer target =>
    cases target with
    | none => simp only [unfold]
    | some g =>
      cases s with
      | named name target => exact absurd rfl (hs name target)
      | array f n => exact absurd rfl (hdecay f n g rfl)
      | pointer target =>
        cases target with
        | none => exact absurd rfl (hnull g rfl)
        | some f => exact absurd rfl (hpointer f g rfl)
      | _ => simp only [unfold]
  | array g n =>
    cases s with
    | named name target => exact absurd rfl (hs name target)
    | array f m => exact absurd rfl (harray f m g n rfl)
    | pointer target => cases target <;> simp only [unfold]
    | _ => simp only [unfold]

end Shape

namespace TypeTable

variable {t t' : TypeTable} {ty ty' : TypeId}

theorem Has.tree_eq (h : t.Has ty) (ht : t ≤ t') : t'.tree ty = t.tree ty := by
  induction ty using t.parts_induction with
  | step ty ih =>
    rw [t.tree_shape, t'.tree_shape, h.shape_eq ht, h.isConst_eq ht]
    exact Shape.unfold_congr fun p hp => ih p hp (h.part hp)

theorem tree_of_shape {s : Shape} (hs : t.shape ty = s) : t.tree ty = s.unfold t.tree (t.isConst ty) := by
  rw [t.tree_shape, hs]

theorem Qualified.tree_eq {c : Bool} (h : t.Qualified ty c ty') : t.tree ty' = (t.tree ty).withConst c := by
  obtain ⟨hshape, hconst, -⟩ := h.spelling
  rw [t.tree_shape, t.tree_shape ty, hshape, hconst, Shape.withConst_unfold (t.shape_ne_named ty)]

/-- What a tree says about its root is what the table says about the type. -/
theorem kinds_tree (t : TypeTable) (ty : TypeId) :
    (t.tree ty).isVoid = t.isVoid ty ∧ (t.tree ty).isBool = t.isBool ty ∧
    (t.tree ty).isUnsigned = t.isUnsigned ty ∧ (t.tree ty).isIntegral = t.isIntegral ty ∧
    (t.tree ty).isFloat = t.isFloat ty ∧ (t.tree ty).isArithmetic = t.isArithmetic ty ∧
    (t.tree ty).isNull = t.isNullptr ty ∧ (t.tree ty).isPointer = t.isPointer ty ∧
    (t.tree ty).isArray = t.isArray ty ∧ (t.tree ty).isUnbound = t.isUnboundArray ty ∧
    (t.tree ty).bits? = t.bits? ty ∧ (t.tree ty).isConst = t.isConst ty ∧
    (t.tree ty).target? = (t.target? ty).map t.tree := by
  rw [t.tree_shape]
  refine ⟨?_, ?_, ?_, ?_, ?_, ?_, ?_, ?_, ?_, ?_, ?_, Shape.isConst_unfold (t.shape_ne_named ty), ?_⟩
  all_goals
    have hs := t.shape_ne_named ty
    unfold Shape.unfold
    split
    all_goals simp_all [TypeTree.isVoid, TypeTree.isBool, TypeTree.isUnsigned, TypeTree.isIntegral, TypeTree.isFloat,
      TypeTree.isArithmetic, TypeTree.isNull, TypeTree.isPointer, TypeTree.isArray, TypeTree.isUnbound, TypeTree.bits?,
      TypeTree.target?, isVoid, isBool, isUnsigned, isIntegral, isInteger, isFloat, isArithmetic, isNullptr, isPointer,
      isArray, isUnboundArray, bits?, target?]

theorem losesConst_tree (t : TypeTable) (f g : TypeId) :
    (t.tree f).losesConst (t.tree g) = (t.isConst f && !t.isConst g) := by
  simp only [TypeTree.losesConst, kinds_tree]

end TypeTable

namespace TypeM

open TypeTable

variable {t t' : TypeTable} {ty src dst a b : TypeId}

/-- A choice whose outcome is what another choice, by the same condition, says. -/
theorem Yields.branch {α β : Type} {t₀ : TypeTable} {p q : Prop} [Decidable p] [Decidable q] {x y : TypeM α}
    {Q : β → α → TypeTable → Prop} {u v : β} (hpq : p ↔ q) (hx : q → Yields t₀ x (Q u))
    (hy : ¬ q → Yields t₀ y (Q v)) : Yields t₀ (if p then x else y) (Q (if q then u else v)) := by
  by_cases h : q
  · rw [if_pos h, if_pos (hpq.2 h)]
    exact hx h
  · rw [if_neg h, if_neg (mt hpq.1 h)]
    exact hy h

theorem withConst_tree {c : Bool} (hty : t.Has ty) :
    Yields t (withConst ty c) fun ty' t' => t'.Has ty' ∧ t'.tree ty' = (t.tree ty).withConst c := by
  refine .of_spec fun t₁ ty' t' h₁ hc h => ?_
  obtain ⟨hc', hqualified⟩ := withConst_qualified h hc (hty.mono h₁)
  rw [hqualified.tree_eq, hty.tree_eq (h₁.trans ((withConst_grows _ _).le h))]
  exact ⟨hc', hqualified.has, rfl⟩

/-- The type `a'` is `a` without its flag. -/
structure Stripped (t : TypeTable) (a a' : TypeId) (t' : TypeTable) : Prop where
  has : t'.Has a'
  tree_eq : t'.tree a' = (t.tree a).plain

theorem Stripped.mono {t₁ : TypeTable} {a' : TypeId} (h : Stripped t a a' t₁) (h₁ : t₁ ≤ t') : Stripped t a a' t' :=
  ⟨h.has.mono h₁, (h.has.tree_eq h₁).trans h.tree_eq⟩

/-- Every comparison begins by taking the flags off both sides. -/
theorem Yields.stripped {α : Type} {k : TypeId → TypeId → TypeM α} {Q : α → TypeTable → Prop} (ha : t.Has a)
    (hb : t.Has b)
    (hk : ∀ a' b' t', t ≤ t' → Stripped t a a' t' → Stripped t b b' t' → Yields t' (k a' b') Q) :
    Yields t (constRemoved a >>= fun a' => constRemoved b >>= fun b' => k a' b') Q := by
  refine .bind (withConst_tree ha) (withConst_grows _ _) fun a' t₁ h₁ ha' =>
    .bind (withConst_tree (hb.mono h₁)) (withConst_grows _ _) fun b' t₂ h₂ hb' => ?_
  have hstripped : Stripped t a a' t₁ := ⟨ha'.1, ha'.2⟩
  refine hk a' b' t₂ (h₁.trans h₂) (hstripped.mono h₂) ⟨hb'.1, ?_⟩
  rw [hb'.2, hb.tree_eq h₁]

/-- Types without flags are compared by their trees. -/
theorem Stripped.equals_iff {a' b' : TypeId} (ha : Stripped t a a' t') (hb : Stripped t b b' t')
    (hc : t'.Canonical) : t'.equals a' b' = true ↔ (t.tree a).plain = (t.tree b).plain := by
  rw [hc.equals_iff ha.has hb.has, ha.tree_eq, hb.tree_eq]

theorem equalsUnqualified_tree (ha : t.Has a) (hb : t.Has b) :
    Yields t (equalsUnqualified a b) fun r _ => r = true ↔ (t.tree a).plain = (t.tree b).plain :=
  .stripped ha hb fun _ _ _ _ ha' hb' => .get_canonical fun _ h₂ hc => .pure fun _ _ =>
    (ha'.mono h₂).equals_iff (hb'.mono h₂) hc

/-- A permitted conversion ends at the tree that is given with it, and none is permitted where none is given. -/
structure Denotes (x : Option (TypeTree × Bool)) (r : Option Conversion) (t : TypeTable) : Prop where
  has : ∀ c, r = some c → t.Has c.target
  eq : r.map (fun c => (t.tree c.target, c.discardsConst)) = x

namespace Denotes

theorem none {t₀ : TypeTable} : Yields t₀ (pure .none) (Denotes .none) := .pure fun _ _ => ⟨nofun, rfl⟩

theorem some {t₀ : TypeTable} {c : Conversion} {x : TypeTree} (hhas : t₀.Has c.target)
    (htree : t₀.tree c.target = x) : Yields t₀ (pure (.some c)) (Denotes (.some (x, c.discardsConst))) := by
  refine .pure fun t' h => ⟨?_, ?_⟩
  · rintro c' hc'
    cases hc'
    exact hhas.mono h
  · show Option.some (t'.tree c.target, _) = _
    rw [hhas.tree_eq h, htree]

end Denotes

theorem bindArray_tree {element : TypeId} {dim : Nat} (hty : t.Has ty) (hs : t.shape ty = .array element 0) :
    Yields t (bindArray ty dim) fun ty' t' =>
      t'.Has ty' ∧ t'.tree ty' = .array (t.isConst ty) (t.tree element) dim := by
  refine .of_spec fun t₁ ty' t' h₁ hc h => ?_
  have hle := h₁.trans ((bindArray_grows _ _).le h)
  obtain ⟨hc', hhas, element', hs', hshape, hconst⟩ :=
    bindArray_bounds h hc (hty.mono h₁) ((hty.shape_eq h₁).trans hs)
  obtain ⟨rfl, -⟩ : element' = element ∧ _ := Shape.array.inj (hs'.symm.trans ((hty.shape_eq hle).trans hs))
  have helement := hty.element hs
  refine ⟨hc', hhas, ?_⟩
  rw [tree_of_shape hshape, hconst, hty.isConst_eq hle, Shape.unfold, helement.tree_eq hle]

/-- Pointers convert if what they point to is the same apart from its flag, which may get lost. -/
theorem throughPointer_tree {f g : TypeId} {d : Bool} (hf : t.Has f) (hg : t.Has g) (hdst : t.Has dst)
    (hconvert : Yields t (convert true f g) (Denotes ((t.tree f).convert true (t.tree g)))) :
    Yields t (convert true f g >>= throughPointer ⟨dst, d⟩ f g) (Denotes
      (if (t.tree f).plain = (t.tree g).plain then some (t.tree dst, d || (t.tree f).losesConst (t.tree g))
      else none)) := by
  refine .bind hconvert (convert_grows _ _ _) fun inner t₁ h₁ hinner => ?_
  by_cases hplain : (t.tree f).plain = (t.tree g).plain
  · rw [if_pos hplain]
    rw [TypeTree.convert.eq_def, if_pos hplain] at hinner
    obtain ⟨c, rfl, hc'⟩ := Option.map_eq_some_iff.1 hinner.eq
    refine .bind (equalsUnqualified_tree (hf.mono h₁) (hg.mono h₁)) (equalsUnqualified_grows _ _)
      fun same t₂ h₂ hsame => ?_
    rw [hf.tree_eq h₁, hg.tree_eq h₁] at hsame
    have hloses : c.discardsConst = (t.tree f).losesConst (t.tree g) := (Prod.mk.inj hc').2
    rw [if_pos (hsame.2 hplain), ← hloses]
    exact Denotes.some (hdst.mono (h₁.trans h₂)) (hdst.tree_eq (h₁.trans h₂))
  · rw [if_neg hplain]
    cases inner with
    | none => exact Denotes.none
    | some c =>
      refine .bind (equalsUnqualified_tree (hf.mono h₁) (hg.mono h₁)) (equalsUnqualified_grows _ _)
        fun same t₂ h₂ hsame => ?_
      rw [hf.tree_eq h₁, hg.tree_eq h₁] at hsame
      rw [if_neg fun h => hplain (hsame.1 h)]
      exact Denotes.none

theorem convert_tree (nested : Bool) (hsrc : t.Has src) (hdst : t.Has dst) :
    Yields t (convert nested src dst) (Denotes ((t.tree src).convert nested (t.tree dst))) := by
  induction hn : src.index using Nat.strongRecOn generalizing t nested src dst with
  | ind n ih =>
    subst hn
    rw [convert]
    refine .get fun t₁ h₁ => ?_
    rw [← hsrc.tree_eq h₁, ← hdst.tree_eq h₁]
    replace hsrc := hsrc.mono h₁
    replace hdst := hdst.mono h₁
    refine .stripped hsrc.unalias hdst.unalias fun a b t₃ h₃ ha hb => .get_canonical fun t₄ h₄ hc => ?_
    have hle := h₃.trans h₄
    have hequals := (ha.mono h₄).equals_iff (hb.mono h₄) hc
    rw [t₁.tree_unalias, t₁.tree_unalias] at hequals
    have hkept {t₀ : TypeTable} {x : TypeTree} {d : Bool} (h₀ : t₁ ≤ t₀) (hx : t₁.tree dst = x) :
        Yields t₀ (pure (some ⟨dst, d⟩)) (Denotes (some (x, d))) :=
      Denotes.some (hdst.mono h₀) ((hdst.tree_eq h₀).trans hx)
    have hguarded {x : TypeTree} {b d : Bool} (hx : t₁.tree dst = x) :
        Yields t₄ (pure (if b then some ⟨dst, d⟩ else none)) (Denotes (if b then some (x, d) else none)) := by
      cases b
      · exact Denotes.none
      · exact hkept hle hx
    have hpart {f : TypeId} (nested : Bool) (g : TypeId) (hf : f ∈ (t₁.shape src).parts) (hg : t₁.Has g) :
        Yields t₄ (convert nested f g) (Denotes ((t₁.tree f).convert nested (t₁.tree g))) := by
      have := ih f.index (t₁.shape_part_lt hf) nested ((hsrc.part hf).mono hle) (hg.mono hle) rfl
      rwa [(hsrc.part hf).tree_eq hle, hg.tree_eq hle] at this
    have hthrough {d : Bool} {f g : TypeId} (hf : f ∈ (t₁.shape src).parts) (hg : t₁.Has g) :
        Yields t₄ (convert true f g >>= throughPointer ⟨dst, d⟩ f g) (Denotes
          (if (t₁.tree f).plain = (t₁.tree g).plain then
            some (t₁.tree dst, d || (t₁.tree f).losesConst (t₁.tree g)) else none)) := by
      have hf₁ := hsrc.part hf
      have := throughPointer_tree (d := d) (hf₁.mono hle) (hg.mono hle) (hdst.mono hle)
      rw [hf₁.tree_eq hle, hg.tree_eq hle, hdst.tree_eq hle] at this
      exact this (hpart true g hf hg)
    have hdiscards : (nested && t₁.isConst src && !t₁.isConst dst) =
        (nested && (t₁.tree src).losesConst (t₁.tree dst)) := by
      rw [losesConst_tree, Bool.and_assoc]
    rw [hdiscards]
    refine .ite (fun heq => ?_) fun hne => ?_
    · rw [TypeTree.convert.eq_def, if_pos (hequals.1 heq)]
      exact hkept hle rfl
    replace hne := mt hequals.2 hne
    have hrows := TypeTree.convert.eq_def nested (t₁.tree src) (t₁.tree dst)
    rw [if_neg hne] at hrows
    -- the rows of the table of conversions
    split
    · rename_i hs
      have hd : t₁.tree dst = .bool _ := tree_of_shape hs
      rw [hrows]
      simp only [hd, kinds_tree]
      exact hguarded hd
    · rename_i hs
      have hd : t₁.tree dst = .integer _ _ _ := tree_of_shape hs
      rw [hrows]
      simp only [hd, kinds_tree]
      exact hguarded hd
    · rename_i hs
      have hd : t₁.tree dst = .float _ _ := tree_of_shape hs
      rw [hrows]
      simp only [hd, kinds_tree]
      exact hguarded hd
    · rename_i hs hs'
      have hsrc' : t₁.tree src = .nullPointer _ := tree_of_shape hs
      have hd : t₁.tree dst = .pointer _ _ := tree_of_shape hs'
      rw [hrows]
      simp only [hsrc', hd]
      exact hkept hle hd
    · rename_i f g hs hs'
      have hsrc' : t₁.tree src = .pointer _ _ := tree_of_shape hs
      have hd : t₁.tree dst = .pointer _ _ := tree_of_shape hs'
      have hg : t₁.Has g := hdst.pointee hs'
      rw [hd] at hthrough
      rw [hrows]
      simp only [hsrc', hd, kinds_tree, Bool.or_eq_true, decide_eq_true_eq]
      refine .ite (fun hvoid => ?_) fun hvoid => ?_
      · rw [if_pos (.inl hvoid), losesConst_tree]
        exact hkept hle hd
      · simp only [hvoid, false_or]
        exact hthrough (by simp [hs, Shape.parts]) hg
    · rename_i f m g hs hs'
      have hsrc' : t₁.tree src = .array _ _ _ := tree_of_shape hs
      have hd : t₁.tree dst = .pointer _ _ := tree_of_shape hs'
      rw [hd] at hthrough
      rw [hrows]
      simp only [hsrc', hd]
      exact hthrough (by simp [hs, Shape.parts]) (hdst.pointee hs')
    · rename_i f m g n hs hs'
      have hsrc' : t₁.tree src = .array _ _ _ := tree_of_shape hs
      have hd : t₁.tree dst = .array _ _ _ := tree_of_shape hs'
      rw [hrows]
      simp only [hsrc', hd]
      refine .branch .rfl (fun _ => Denotes.none) fun hdim => ?_
      have hg : t₁.Has g := hdst.element hs'
      refine .bind (hpart nested g (by simp [hs, Shape.parts]) hg)
        (convert_grows _ _ _) fun inner t₅ h₅ hinner => ?_
      rw [← hinner.eq]
      cases inner with
      | none => exact Denotes.none
      | some c =>
        have hle₅ := hle.trans h₅
        refine .ite (fun hzero => ?_) fun hzero => ?_
        · subst hzero
          refine .bind (bindArray_tree (hdst.mono hle₅) ((hdst.shape_eq hle₅).trans hs')) (bindArray_grows _ _)
            fun target t₆ h₆ htarget => Denotes.some htarget.1 ?_
          rw [htarget.2, hdst.isConst_eq hle₅, hg.tree_eq hle₅]
        · obtain rfl : n = m := by simpa [hzero] using hdim
          exact hkept hle₅ hd
    · rename_i hbool hinteger hfloat hnull hpointer hdecay harray
      rw [t₁.tree_shape, t₁.tree_shape, Shape.convert_unfold_eq_none (by rwa [← t₁.tree_shape, ← t₁.tree_shape])
        (t₁.shape_ne_named _) (t₁.shape_ne_named _) hbool hinteger hfloat hnull hpointer hdecay harray]
      exact Denotes.none

theorem explicitCast_tree (hsrc : t.Has src) (hdst : t.Has dst) :
    Yields t (explicitCast src dst) (Denotes ((t.tree src).cast (t.tree dst))) := by
  refine .stripped hsrc hdst fun plainSrc plainDst t₂ h₂ hs hd =>
    .bind (convert_tree false hs.has hd.has) (convert_grows _ _ _) fun conversion t₃ h₃ hconversion => ?_
  have hle := h₂.trans h₃
  have hconvert := hconversion.eq
  rw [hs.tree_eq, hd.tree_eq] at hconvert
  rw [TypeTree.cast, ← hconvert]
  cases conversion with
  | some c =>
    refine .get fun t₄ h₄ => ?_
    have hunbound : (t.tree dst).isUnbound = t₄.isUnboundArray dst := by
      rw [← hdst.tree_eq (hle.trans h₄)]
      simp only [kinds_tree]
    have htarget := hconversion.has c rfl
    simp only [Option.map_some, hunbound]
    refine Denotes.some ?_ ?_
    · show t₄.Has (if _ then _ else _)
      split
      · exact htarget.mono h₄
      · exact hdst.mono (hle.trans h₄)
    · show t₄.tree (if _ then _ else _) = _
      split
      · exact htarget.tree_eq h₄
      · exact hdst.tree_eq (hle.trans h₄)
  | none =>
    refine .get fun t₄ h₄ => ?_
    rw [← hsrc.tree_eq (hle.trans h₄), ← hdst.tree_eq (hle.trans h₄)]
    simp only [Option.map_none, kinds_tree]
    have hdst₄ := hdst.mono (hle.trans h₄)
    refine .branch .rfl (fun _ => ?_) fun _ => Denotes.none
    cases t₄.target? src with
    | none => exact Denotes.some hdst₄ rfl
    | some f =>
      cases t₄.target? dst with
      | none => exact Denotes.some hdst₄ rfl
      | some g =>
        simp only [Option.map_some, losesConst_tree]
        exact Denotes.some hdst₄ rfl

/-! ### Common types -/

/-- What is answered is a type with the given tree, and nothing where no tree is given. -/
structure Unfolds (x : Option TypeTree) (r : Option TypeId) (t : TypeTable) : Prop where
  has : ∀ ty, r = some ty → t.Has ty
  eq : r.map t.tree = x

namespace Unfolds

variable {t₀ : TypeTable} {x : TypeTree}

theorem none : Yields t₀ (pure .none) (Unfolds .none) := .pure fun _ _ => ⟨nofun, rfl⟩

theorem some (hhas : t₀.Has ty) (htree : t₀.tree ty = x) : Yields t₀ (pure (.some ty)) (Unfolds (.some x)) := by
  refine .pure fun t' h => ⟨?_, ?_⟩
  · rintro ty' hty'
    cases hty'
    exact hhas.mono h
  · show Option.some (t'.tree ty) = _
    rw [hhas.tree_eq h, htree]

/-- A type that is entered. -/
theorem intern {shape : Shape} (hparts : ∀ p ∈ shape.parts, t₀.Has p)
    (hs : ∀ name target, shape ≠ .named name target) (hx : shape.unfold t₀.tree false = x)
    (hstruct : ∀ id, shape ≠ .struct id := by intro _ h; cases h) :
    Yields t₀ (Option.some <$> intern shape false) (Unfolds (.some x)) := by
  refine .map (.of_spec fun t ty t' ht hc h => ?_)
  obtain ⟨hc', hhas, hplain⟩ := intern_plain h hc (fun p hp => (hparts p hp).mono ht) hs
    fun id hid => absurd hid (hstruct id)
  have hle := ht.trans ((intern_grows shape hstruct).le h)
  refine ⟨hc', ?_, ?_⟩
  · rintro ty' hty'
    cases hty'
    exact hhas
  · rw [Option.map_some, tree_of_shape hplain.shape_eq, hplain.isConst_eq, ← hx]
    exact congrArg _ (Shape.unfold_congr fun p hp => (hparts p hp).tree_eq hle)

end Unfolds

theorem common_tree (ha : t.Has a) (hb : t.Has b) :
    Yields t (common a b) (Unfolds ((t.tree a).common (t.tree b))) := by
  refine .get fun t₁ h₁ => ?_
  rw [← ha.tree_eq h₁, ← hb.tree_eq h₁, TypeTree.common]
  replace ha := ha.mono h₁
  replace hb := hb.mono h₁
  simp only [kinds_tree]
  generalize hp : (if (t₁.isIntegral a && t₁.isFloat b) = true then (b, a) else (a, b)) = p
  obtain ⟨x, y⟩ := p
  have htrees : (if (t₁.isIntegral a && t₁.isFloat b) = true then (t₁.tree b, t₁.tree a)
      else (t₁.tree a, t₁.tree b)) = (t₁.tree x, t₁.tree y) := by
    split at hp <;> simp_all
  obtain ⟨hx, hy⟩ : t₁.Has x ∧ t₁.Has y := by
    split at hp
    · cases hp
      exact ⟨hb, ha⟩
    · cases hp
      exact ⟨ha, hb⟩
  rw [htrees]
  refine .stripped hx hy fun plainX plainY t₃ h₃ hX hY => .get_canonical fun t₄ h₄ hc => ?_
  have hle := h₃.trans h₄
  have hequals := (hX.mono h₄).equals_iff (hY.mono h₄) hc
  obtain ⟨hX, htX⟩ := hX.mono h₄
  obtain ⟨hY, htY⟩ := hY.mono h₄
  rw [← hx.tree_eq hle] at hequals htX
  rw [← hy.tree_eq hle] at hequals htY
  rw [← hx.tree_eq hle, ← hy.tree_eq hle]
  replace hx := hx.mono hle
  replace hy := hy.mono hle
  simp only [kinds_tree]
  refine .branch hequals (fun _ => Unfolds.some hX htX) fun _ => .branch .rfl (fun _ => ?_) fun _ =>
    .branch .rfl (fun _ => Unfolds.some hX htX) fun _ => .branch .rfl (fun _ => ?_) fun _ =>
    .branch .rfl (fun _ => .branch .rfl (fun _ => ?_) fun _ => ?_) fun _ =>
    .branch .rfl (fun _ => Unfolds.some hX htX) fun _ => .branch .rfl (fun _ => Unfolds.some hY htY)
    fun _ => Unfolds.none
  · -- arrays of the same elements
    cases hu : t₄.target? x with
    | none => exact Unfolds.none
    | some u =>
      cases hv : t₄.target? y with
      | none => exact Unfolds.none
      | some v =>
        refine .branch (hc.equals_iff (hx.target hu) (hy.target hv)) (fun _ => ?_) fun _ => Unfolds.none
        refine Unfolds.intern (fun p hp => ?_) nofun rfl
        obtain rfl := List.mem_singleton.1 hp
        exact hx.target hu
  · split
    · exact Unfolds.some hX htX
    · exact Unfolds.some hY htY
  · exact Unfolds.intern nofun nofun rfl
  · exact Unfolds.intern nofun nofun rfl

end TypeM

end TypedCore
