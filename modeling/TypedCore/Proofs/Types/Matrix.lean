import TypedCore.Proofs.Types.Transparency

/-!
# The table of conversions

Which types convert to which is a table with one row for each kind of target (`Converts`), and a const flag gets
lost exactly where a pointer, at the top or in the elements of arrays, comes to refer to what it must not change
(`Discards`). Conversions follow the table: they succeed on its rows and nowhere else, and end at the type that is
wanted, or at that array with the dimension of the source.
-/

namespace TypedCore

namespace TypeTree

@[simp] theorem plain_plain (x : TypeTree) : x.plain.plain = x.plain := by cases x <;> rfl

theorem withConst_pointer (c c' : Bool) (x : TypeTree) : (pointer c x).withConst c' = pointer c' x := rfl

theorem withConst_array (c c' : Bool) (x : TypeTree) (dim : Nat) :
    (array c x dim).withConst c' = array c' x dim := rfl

/-- The flags at the root have no part in a conversion. -/
theorem map_snd_convert_plain (src dst : TypeTree) :
    (src.plain.convert false dst.plain).map Prod.snd = (src.convert false dst).map Prod.snd := by
  rw [convert.eq_def, convert.eq_def false src dst]
  simp only [plain_plain, Bool.false_and, Bool.false_or]
  by_cases h : src.plain = dst.plain
  · simp [h]
  · simp only [if_neg h]
    cases dst with
    | pointer =>
      cases src with
      | pointer | array =>
        simp only [withConst_pointer, withConst_array]
        split <;> rfl
      | _ => rfl
    | array =>
      cases src with
      | array =>
        simp only [withConst_array]
        split
        · rfl
        · simp only [Option.map_map]
          rfl
      | _ => rfl
    | _ => cases src <;> rfl

/-- A program may ask for what is converted anyway. -/
theorem cast_of_convert {src dst x : TypeTree} {d : Bool} (h : src.convert false dst = some (x, d)) :
    ∃ y, src.cast dst = some (y, d) := by
  have hplain := map_snd_convert_plain src dst
  rw [h] at hplain
  obtain ⟨⟨y, d'⟩, hy, rfl⟩ := Option.map_eq_some_iff.1 hplain
  rw [cast, hy]
  exact ⟨_, rfl⟩

/-- Only arrays become arrays, and the dimension is that of the source. -/
theorem convert_array {src g x : TypeTree} {c d : Bool} {n : Nat} (h : src.convert false (array c g n) = some (x, d))
    (hne : src.plain ≠ (array c g n).plain) : ∃ c' f m, src = array c' f m ∧ x = array c g m := by
  rw [convert.eq_def, if_neg hne] at h
  cases src with
  | array c' f m =>
    obtain ⟨-, h⟩ := Option.ite_none_left_eq_some.1 h
    obtain ⟨inner, -, h⟩ := Option.map_eq_some_iff.1 h
    cases h
    exact ⟨c', f, m, rfl, rfl⟩
  | _ => cases h

end TypeTree

namespace TypeTable

variable {t t' : TypeTable} {src dst f g a b : TypeId}

/-! ### The table -/

/-- The two are equal apart from their own const flags. -/
def Same (t : TypeTable) (a b : TypeId) : Prop := (TypeM.equalsUnqualified a b t).1 = true

/-- The rows of the table of conversions. -/
inductive Converts (t : TypeTable) : TypeId → TypeId → Prop
  | same {src dst : TypeId} (h : t.Same src dst) : Converts t src dst
  | truth {src dst : TypeId} (hdst : t.isBool dst = true)
      (hsrc : t.isBool src = true ∨ t.isInteger src = true ∨ t.isPointer src = true) : Converts t src dst
  | number {src dst : TypeId} (hdst : t.isInteger dst = true ∨ t.isFloat dst = true)
      (hsrc : t.isBool src = true ∨ t.isInteger src = true ∨ t.isFloat src = true) : Converts t src dst
  | null {src dst g : TypeId} (hsrc : t.isNullptr src = true) (hdst : t.shape dst = .pointer (some g)) :
      Converts t src dst
  | pointer {src dst f g : TypeId} (hsrc : t.shape src = .pointer (some f)) (hdst : t.shape dst = .pointer (some g))
      (h : t.isVoid f = true ∨ t.isVoid g = true ∨ t.Same f g) : Converts t src dst
  | decay {src dst f g : TypeId} {dim : Nat} (hsrc : t.shape src = .array f dim)
      (hdst : t.shape dst = .pointer (some g)) (h : t.Same f g) : Converts t src dst
  | array {src dst f g : TypeId} {m n : Nat} (hsrc : t.shape src = .array f m) (hdst : t.shape dst = .array g n)
      (hdim : n = 0 ∨ n = m) (h : Converts t f g) : Converts t src dst

/-- A pointer to what is not const is wanted, and there is something const that it would refer to. -/
inductive Discards (t : TypeTable) : TypeId → TypeId → Prop
  | pointer {src dst f g : TypeId} (hsrc : t.target? src = some f) (hdst : t.shape dst = .pointer (some g))
      (hf : t.isConst f = true) (hg : t.isConst g = false) : Discards t src dst
  | element {src dst f g : TypeId} {m n : Nat} (hsrc : t.shape src = .array f m) (hdst : t.shape dst = .array g n)
      (h : Discards t f g) : Discards t src dst

theorem Canonical.same_iff (hc : t.Canonical) (ha : t.Has a) (hb : t.Has b) :
    t.Same a b ↔ (t.tree a).plain = (t.tree b).plain :=
  (TypeM.equalsUnqualified_tree ha hb le_rfl hc).2

/-! ### Trees of the table -/

theorem isFloat_iff : t.isFloat a = true ↔ ∃ width, t.shape a = .float width := by
  unfold isFloat
  split <;> simp_all

theorem isUnboundArray_iff : t.isUnboundArray a = true ↔ ∃ element, t.shape a = .array element 0 := by
  unfold isUnboundArray
  split <;> simp_all

theorem isNullptr_iff : t.isNullptr a = true ↔ t.shape a = .pointer none := by simp [isNullptr]

theorem tree_of_pointer (h : t.shape src = .pointer (some f)) :
    t.tree src = .pointer (t.isConst src) (t.tree f) := tree_of_shape h

theorem tree_of_array {dim : Nat} (h : t.shape src = .array f dim) :
    t.tree src = .array (t.isConst src) (t.tree f) dim := tree_of_shape h

/-- A tree is that of a pointer if the type is one, -/
theorem shape_of_tree_pointer {c : Bool} {x : TypeTree} (h : t.tree src = .pointer c x) :
    ∃ f, t.shape src = .pointer (some f) ∧ t.tree f = x := by
  rw [t.tree_shape] at h
  unfold Shape.unfold at h
  split at h
  all_goals simp_all [t.shape_ne_named src]

/-- and so for arrays. -/
theorem shape_of_tree_array {c : Bool} {x : TypeTree} {dim : Nat} (h : t.tree src = .array c x dim) :
    ∃ f, t.shape src = .array f dim ∧ t.tree f = x := by
  rw [t.tree_shape] at h
  unfold Shape.unfold at h
  split at h
  all_goals simp_all [t.shape_ne_named src]

theorem isConst_eq_of_tree (h : t.tree a = t.tree b) : t.isConst a = t.isConst b := by
  have := congrArg TypeTree.isConst h
  simpa only [kinds_tree] using this

/-- A flag gets lost only where both types refer to something. -/
theorem Discards.targets (h : t.Discards src dst) :
    (t.tree src).target? ≠ none ∧ (t.tree dst).target? ≠ none := by
  cases h with
  | @pointer _ _ _ g hsrc hdst =>
    have hdst' : t.target? dst = some g := by rw [target?, hdst]
    simp [kinds_tree, hsrc, hdst']
  | element hsrc hdst => simp [kinds_tree, target?, hsrc, hdst]

/-- Between types that are the same nothing gets lost. -/
theorem Discards.not_plain (h : t.Discards src dst) : (t.tree src).plain ≠ (t.tree dst).plain := by
  induction h with
  | @pointer src dst f g hsrc hdst hf hg =>
    rw [tree_of_pointer hdst]
    intro hplain
    unfold target? at hsrc
    split at hsrc
    · rename_i hs
      cases hsrc
      rw [tree_of_pointer hs] at hplain
      have htree : t.tree f = t.tree g := by simpa [TypeTree.plain, TypeTree.withConst] using hplain
      rw [isConst_eq_of_tree htree, hg] at hf
      cases hf
    · rename_i hs
      rw [tree_of_array hs] at hplain
      cases hplain
    · cases hsrc
  | element hsrc hdst _ ih =>
    rw [tree_of_array hsrc, tree_of_array hdst]
    intro hplain
    refine ih (congrArg TypeTree.plain ?_)
    simp only [TypeTree.plain, TypeTree.withConst, TypeTree.array.injEq] at hplain
    exact hplain.2.1

/-- On every row of the table there is a conversion, -/
theorem Converts.isSome (h : t.Converts src dst) (hc : t.Canonical) (hsrc : t.Has src) (hdst : t.Has dst) :
    ((t.tree src).convert false (t.tree dst)).isSome = true := by
  induction h with
  | same h =>
    rw [TypeTree.convert.eq_def, if_pos ((hc.same_iff hsrc hdst).1 h)]
    rfl
  | @truth src dst hd hs =>
    have hs' : (t.isIntegral src || t.isPointer src) = true := by simpa [isIntegral, or_assoc] using hs
    have htree : t.tree dst = .bool _ := tree_of_shape (isBool_iff.1 hd)
    rw [TypeTree.convert.eq_def]
    simp only [htree, kinds_tree, hs', if_true]
    split <;> rfl
  | @number src dst hd hs =>
    have hs' : t.isArithmetic src = true := by simpa [isArithmetic, isIntegral, or_assoc] using hs
    rw [TypeTree.convert.eq_def]
    split
    · rfl
    rcases hd with hd | hd
    · obtain ⟨bits, signed, hd⟩ := isInteger_iff.1 hd
      have htree : t.tree dst = .integer _ _ _ := tree_of_shape hd
      simp only [htree, kinds_tree, hs', if_true, Option.isSome_some]
    · obtain ⟨width, hd⟩ := isFloat_iff.1 hd
      have htree : t.tree dst = .float _ _ := tree_of_shape hd
      simp only [htree, kinds_tree, hs', if_true, Option.isSome_some]
  | @null src dst g hs hd =>
    have htree : t.tree src = .nullPointer _ := tree_of_shape (isNullptr_iff.1 hs)
    rw [TypeTree.convert.eq_def, htree, tree_of_pointer hd]
    split <;> rfl
  | @pointer src dst f g hs hd h =>
    have hf : t.Has f := hsrc.pointee hs
    have hg : t.Has g := hdst.pointee hd
    rw [hc.same_iff hf hg] at h
    rw [TypeTree.convert.eq_def, tree_of_pointer hs, tree_of_pointer hd]
    split
    · rfl
    · simp [kinds_tree, or_assoc, h]
  | @decay src dst f g dim hs hd h =>
    have hf : t.Has f := hsrc.element hs
    have hg : t.Has g := hdst.pointee hd
    rw [hc.same_iff hf hg] at h
    rw [TypeTree.convert.eq_def, tree_of_array hs, tree_of_pointer hd]
    split
    · rfl
    · simp [h]
  | @array src dst f g m n hs hd hdim _ ih =>
    have hf : t.Has f := hsrc.element hs
    have hg : t.Has g := hdst.element hd
    have hdim' : ¬ (n ≠ m && n ≠ 0) = true := by rcases hdim with rfl | rfl <;> simp
    rw [TypeTree.convert.eq_def, tree_of_array hs, tree_of_array hd]
    split
    · rfl
    · simp only [if_neg hdim', Option.isSome_map, ih hf hg]

/-- What a pointer to `g` is made from loses a flag if `f`, to which it refers, does. -/
theorem discards_iff (hsrc : t.target? src = some f) (hdst : t.shape dst = .pointer (some g)) :
    (t.tree f).losesConst (t.tree g) = true ↔ t.Discards src dst := by
  rw [losesConst_tree, Bool.and_eq_true, Bool.not_eq_true']
  constructor
  · rintro ⟨hf, hg⟩
    exact .pointer hsrc hdst hf hg
  · rintro (⟨hsrc', hdst', hf, hg⟩ | ⟨-, hdst', -⟩)
    · cases hsrc.symm.trans hsrc'
      cases hdst.symm.trans hdst'
      exact ⟨hf, hg⟩
    · cases hdst.symm.trans hdst'

theorem discards_array_iff {m n : Nat} (hsrc : t.shape src = .array f m) (hdst : t.shape dst = .array g n) :
    t.Discards f g ↔ t.Discards src dst := by
  constructor
  · exact .element hsrc hdst
  · rintro (⟨-, hdst', -, -⟩ | ⟨hsrc', hdst', h⟩)
    · cases hdst.symm.trans hdst'
    · cases hsrc.symm.trans hsrc'
      cases hdst.symm.trans hdst'
      exact h

/-- and nowhere else; a const flag gets lost where the table says so. -/
theorem converts_of_convert {x : TypeTree} {d : Bool} (hc : t.Canonical) (hsrc : t.Has src) (hdst : t.Has dst)
    (h : (t.tree src).convert false (t.tree dst) = some (x, d)) :
    t.Converts src dst ∧ (d = true ↔ t.Discards src dst) := by
  induction src using t.parts_induction generalizing dst x d with
  | step src ih =>
    rw [TypeTree.convert.eq_def] at h
    by_cases hplain : (t.tree src).plain = (t.tree dst).plain
    · rw [if_pos hplain] at h
      cases h
      exact ⟨.same ((hc.same_iff hsrc hdst).2 hplain), by simpa using fun hd => Discards.not_plain hd hplain⟩
    rw [if_neg hplain] at h
    have hnothing (hnone : (t.tree src).target? = none ∨ (t.tree dst).target? = none) :
        false = true ↔ t.Discards src dst := by
      simp only [Bool.false_eq_true, false_iff]
      exact fun hd => hnone.elim hd.targets.1 hd.targets.2
    have hnumber (hd : (t.tree dst).isArithmetic = true) (hbool : (t.tree dst).isBool = false)
        (hs : (t.tree src).isArithmetic = true) : t.Converts src dst := by
      simp only [kinds_tree] at hd hbool hs
      exact .number (by simpa [isArithmetic, isIntegral, hbool] using hd)
        (by simpa [isArithmetic, isIntegral, or_assoc] using hs)
    -- the rows of the table
    split at h
    · rename_i hd
      obtain ⟨hs, h⟩ := Option.ite_none_right_eq_some.1 h
      cases h
      have hbool : t.isBool dst = true := by simpa [hd, TypeTree.isBool] using (t.kinds_tree dst).2.1.symm
      simp only [kinds_tree] at hs
      exact ⟨.truth hbool (by simpa [isIntegral, or_assoc] using hs), hnothing (.inr (by rw [hd]; rfl))⟩
    · rename_i hd
      obtain ⟨hs, h⟩ := Option.ite_none_right_eq_some.1 h
      cases h
      exact ⟨hnumber (by rw [hd]; rfl) (by rw [hd]; rfl) hs, hnothing (.inr (by rw [hd]; rfl))⟩
    · rename_i hd
      obtain ⟨hs, h⟩ := Option.ite_none_right_eq_some.1 h
      cases h
      exact ⟨hnumber (by rw [hd]; rfl) (by rw [hd]; rfl) hs, hnothing (.inr (by rw [hd]; rfl))⟩
    · rename_i hs hd
      obtain ⟨g, hd, -⟩ := shape_of_tree_pointer hd
      cases h
      have hnull : t.isNullptr src = true := by simpa [hs, TypeTree.isNull] using (t.kinds_tree src).2.2.2.2.2.2.1.symm
      exact ⟨.null hnull hd, hnothing (.inl (by rw [hs]; rfl))⟩
    · rename_i hx hy
      obtain ⟨f, hs, rfl⟩ := shape_of_tree_pointer hx
      obtain ⟨g, hd, rfl⟩ := shape_of_tree_pointer hy
      obtain ⟨hfg, h⟩ := Option.ite_none_right_eq_some.1 h
      cases h
      have hf : t.Has f := hsrc.pointee hs
      have hg : t.Has g := hdst.pointee hd
      refine ⟨.pointer hs hd ?_, by simpa using discards_iff (by rw [target?, hs]) hd⟩
      rw [hc.same_iff hf hg]
      simpa [kinds_tree, or_assoc] using hfg
    · rename_i hx hy
      obtain ⟨f, hs, rfl⟩ := shape_of_tree_array hx
      obtain ⟨g, hd, rfl⟩ := shape_of_tree_pointer hy
      obtain ⟨hfg, h⟩ := Option.ite_none_right_eq_some.1 h
      cases h
      have hf : t.Has f := hsrc.element hs
      have hg : t.Has g := hdst.pointee hd
      exact ⟨.decay hs hd ((hc.same_iff hf hg).2 hfg), by simpa using discards_iff (by rw [target?, hs]) hd⟩
    · rename_i m _ _ n hx hy
      obtain ⟨f, hs, rfl⟩ := shape_of_tree_array hx
      obtain ⟨g, hd, rfl⟩ := shape_of_tree_array hy
      obtain ⟨hdim, h⟩ := Option.ite_none_left_eq_some.1 h
      obtain ⟨inner, hinner, h⟩ := Option.map_eq_some_iff.1 h
      cases h
      have hf : t.Has f := hsrc.element hs
      have hg : t.Has g := hdst.element hd
      obtain ⟨hconv, hdiscards⟩ := ih f (by simp [hs, Shape.parts]) hf hg hinner
      refine ⟨.array hs hd ?_ hconv, ?_⟩
      · have : n = m ∨ n = 0 := by simpa [imp_iff_not_or] using hdim
        exact this.symm
      · simpa using hdiscards.trans (discards_array_iff hs hd)
    · cases h

/-- The table decides. -/
theorem Canonical.converts_iff (hc : t.Canonical) (hsrc : t.Has src) (hdst : t.Has dst) :
    ((t.tree src).convert false (t.tree dst)).isSome = true ↔ t.Converts src dst := by
  constructor
  · intro h
    obtain ⟨⟨x, d⟩, hx⟩ := Option.isSome_iff_exists.1 h
    exact (converts_of_convert hc hsrc hdst hx).1
  · exact fun h => h.isSome hc hsrc hdst

/-- Where a conversion from `src` to `dst`, asked for in the table `t`, ends in the table `t'`: at `dst`, or if that
is an array without bound and not what there is already, at that array with the dimension of `src`. -/
structure Lands (t : TypeTable) (src dst target : TypeId) (t' : TypeTable) : Prop where
  has : t'.Has target
  eq : t.isUnboundArray dst = false ∨ t.Same src dst → target = dst
  bounds : t.isUnboundArray dst = true → ¬ t.Same src dst → ∃ dim, t.dim? src = some dim ∧ t'.Bounds dst dim target

end TypeTable

namespace TypeM

open TypeTable

variable {t t' : TypeTable} {src dst : TypeId}

/-- What is wanted already is kept. -/
theorem convert_same (nested : Bool) (hc : t.Canonical) (hsrc : t.Has src) (hdst : t.Has dst) (h : t.Same src dst) :
    Yields t (convert nested src dst) fun r _ => ∃ d, r = some ⟨dst, d⟩ := by
  rw [hc.same_iff hsrc hdst] at h
  rw [convert]
  refine .get fun t₁ h₁ => .stripped (hsrc.mono h₁).unalias (hdst.mono h₁).unalias fun a b t₂ h₂ ha hb =>
    .get_canonical fun t₃ h₃ hc₃ => ?_
  have hequals := (ha.mono h₃).equals_iff (hb.mono h₃) hc₃
  rw [t₁.tree_unalias, t₁.tree_unalias, hsrc.tree_eq h₁, hdst.tree_eq h₁] at hequals
  rw [if_pos (hequals.2 h)]
  exact .pure fun _ _ => ⟨_, rfl⟩

theorem convert_lands {r : Option Conversion} {c : Conversion} (hc : t.Canonical) (hsrc : t.Has src) (hdst : t.Has dst)
    (h : convert false src dst t = (r, t')) (hr : r = some c) : t.Lands src dst c.target t' := by
  have hle : t ≤ t' := (convert_grows _ _ _).le h
  have haims := (convert_aims false hsrc hdst).result le_rfl hc h
  have hdenotes := (convert_tree false hsrc hdst).result le_rfl hc h
  subst hr
  obtain ⟨htarget, hserves⟩ := haims c rfl
  refine ⟨htarget, ?_, fun hunbound hne => ?_⟩
  · rintro (hbound | hsame)
    · rcases hserves with heq | ⟨dim, -, element, hs, -⟩
      · exact heq
      · rw [hdst.shape_eq hle] at hs
        rw [isUnboundArray_iff.2 ⟨element, hs⟩] at hbound
        cases hbound
    · obtain ⟨d, hd⟩ := (convert_same false hc hsrc hdst hsame).result le_rfl hc h
      cases hd
      rfl
  · rcases hserves with heq | hserves
    · -- the target is `dst` itself only if the source is without bound, too
      obtain ⟨g, hs⟩ := isUnboundArray_iff.1 hunbound
      have hconvert := hdenotes.eq.symm
      rw [hc.same_iff hsrc hdst, tree_of_array hs] at hne
      rw [Option.map_some, heq, hdst.tree_eq hle, tree_of_array hs] at hconvert
      obtain ⟨c', f, m, hx, hy⟩ := TypeTree.convert_array hconvert hne
      obtain ⟨f, hs', -⟩ := shape_of_tree_array hx
      cases hy
      refine ⟨0, by rw [dim?, hs'], g, ?_, ?_, by rw [heq]⟩
      · rw [hdst.shape_eq hle, hs]
      · rw [heq, hdst.shape_eq hle, hs]
    · exact hserves

end TypeM

open TypeTable

/-- In every table that is built from nothing, a conversion that is made where a type is wanted succeeds exactly on
the rows of the table of conversions. It ends at the wanted type, or at that array with a bound, it reports the loss
of a const flag exactly where there is one, and a program may ask for every such conversion, with the same report. -/
theorem implicitConvert_follows_table {sizeBits : Nat} {t t' : TypeTable} (h : TypeTable.Reaches (.empty sizeBits) t)
    {src dst : TypeId} (hsrc : t.Has src) (hdst : t.Has dst) {r : Option Conversion}
    (hr : TypeM.implicitConvert src dst t = (r, t')) :
    (r.isSome = true ↔ t.Converts src dst) ∧
    ∀ c, r = some c → t.Lands src dst c.target t' ∧ (c.discardsConst = true ↔ t.Discards src dst) ∧
      ∀ u, TypeTable.Reaches t u →
        ∃ c', (TypeM.explicitCast src dst u).1 = some c' ∧ c'.discardsConst = c.discardsConst := by
  have hc := h.canonical
  have hdenotes := (TypeM.convert_tree false hsrc hdst).result le_rfl hc hr
  constructor
  · rw [← hc.converts_iff hsrc hdst, ← hdenotes.eq, Option.isSome_map]
  · rintro c rfl
    refine ⟨TypeM.convert_lands hc hsrc hdst hr rfl, (converts_of_convert hc hsrc hdst hdenotes.eq.symm).2,
      fun u hu => ?_⟩
    have hcast := (TypeM.explicitCast_tree hsrc hdst (show t ≤ u from hu.steps.le) (hc.reaches hu)).2
    obtain ⟨y, hy⟩ := TypeTree.cast_of_convert hdenotes.eq.symm
    obtain ⟨c', hc', heq⟩ := Option.map_eq_some_iff.1 (hcast.eq.trans hy)
    exact ⟨c', hc', (Prod.mk.inj heq).2⟩

open Renamed in
/-- An array of pointers to const numbers, under names, where an array of pointers to numbers is wanted. -/
theorem renamed_array_follows_table :
    (TypeTable.Reaches (.empty 64) table ∧ table.Has ⟨7⟩ ∧ table.Has ⟨11⟩ ∧
      (TypeM.implicitConvert ⟨7⟩ ⟨11⟩ table).1.map (·.discardsConst) = some true) ∧
    ((TypeM.implicitConvert ⟨7⟩ ⟨11⟩ table).1.isSome = true ↔ table.Converts ⟨7⟩ ⟨11⟩) ∧
    ∀ c, (TypeM.implicitConvert ⟨7⟩ ⟨11⟩ table).1 = some c →
      table.Lands ⟨7⟩ ⟨11⟩ c.target (TypeM.implicitConvert ⟨7⟩ ⟨11⟩ table).2 ∧
      (c.discardsConst = true ↔ table.Discards ⟨7⟩ ⟨11⟩) ∧
      ∀ u, TypeTable.Reaches table u →
        ∃ c', (TypeM.explicitCast ⟨7⟩ ⟨11⟩ u).1 = some c' ∧ c'.discardsConst = c.discardsConst := by
  have hsrc : table.Has ⟨7⟩ := by decide +kernel
  have hdst : table.Has ⟨11⟩ := by decide +kernel
  exact ⟨⟨reaches, hsrc, hdst, by decide +kernel⟩, implicitConvert_follows_table reaches hsrc hdst rfl⟩

end TypedCore
