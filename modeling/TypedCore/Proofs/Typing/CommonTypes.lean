import TypedCore.Proofs.Typing.Conversions
import TypedCore.Proofs.Types.Matrix

/-!
# Common types are joins

The common type of two operands does not depend on their order, is not const, and both operands convert to it
without the loss of a const flag. Numbers always have one, and however several of them are grouped it is the same:
a float as wide as the widest, or else an integer as wide as the widest that has no sign if one of them has none.
-/

namespace TypedCore

namespace TypeTree

variable {a b c : TypeTree}

/-! ### Trees -/

theorem common_comm (a b : TypeTree) : a.common b = b.common a := by
  cases a <;> cases b <;>
    simp [common, isIntegral, isFloat, isArray, isBool, isUnsigned, isNull, isPointer, bits?, target?, withConst]
  case float.float w _ w' => cases w <;> cases w' <;> simp [FloatWidth.bits]
  all_goals grind

/-- The common type does not depend on the flags of the operands themselves. -/
theorem common_plain (a b : TypeTree) : a.plain.common b.plain = a.common b := by
  cases a <;> cases b <;> rfl

/-- How an operand becomes the common type `c`. -/
inductive Joins : TypeTree → TypeTree → Prop
  | same {a c : TypeTree} (h : a.plain = c.plain) : Joins a c
  | number {a c : TypeTree} (ha : a.isArithmetic = true) (hc : c.isArithmetic = true) (hbool : c.isBool = false) :
      Joins a c
  | null (k : Bool) (x : TypeTree) : Joins (.nullPointer k) (.pointer false x)
  | decay (k : Bool) (x : TypeTree) (dim : Nat) : Joins (.array k x dim) (.pointer false x)

theorem Joins.kept (a : TypeTree) : Joins a a.plain := .same (plain_plain a).symm

theorem plain_of_isVoid (h : a.isVoid = true) : a.plain = .void false := by
  cases a <;> simp_all [isVoid, withConst]

theorem isConst_plain (a : TypeTree) : a.plain.isConst = false := by cases a <;> rfl

theorem isArithmetic_plain (a : TypeTree) : a.plain.isArithmetic = a.isArithmetic := by cases a <;> rfl

/-- A float that is kept takes in all other numbers. -/
theorem Joins.float (ha : a.isFloat = true) (hb : b.isArithmetic = true) : Joins b a.plain := by
  refine .number hb ?_ ?_
  · rw [isArithmetic_plain, isArithmetic, ha, Bool.or_true]
  · cases a <;> simp_all [isFloat, isBool, withConst]

/-- A pointer that is kept takes in null. -/
theorem Joins.pointer (ha : a.isPointer = true) (hb : b.isNull = true) : Joins b a.plain := by
  cases b with
  | nullPointer k =>
    cases a with
    | nullPointer => exact .same rfl
    | pointer _ x => exact .null k x
    | _ => cases ha
  | _ => cases hb

theorem joins_of_common (h : a.common b = some c) : Joins a c ∧ Joins b c ∧ c.isConst = false := by
  unfold common at h
  generalize hp : (if (a.isIntegral && b.isFloat) = true then (b, a) else (a, b)) = p at h
  obtain ⟨x, y⟩ := p
  -- the operands may be swapped, but what is to be shown treats them alike
  suffices hxy : Joins x c ∧ Joins y c ∧ c.isConst = false by
    split at hp
    · cases hp
      exact ⟨hxy.2.1, hxy.1, hxy.2.2⟩
    · cases hp
      exact hxy
  dsimp only at h
  split at h
  · rename_i hplain
    cases h
    exact ⟨.kept x, hplain ▸ .kept y, x.isConst_plain⟩
  split at h
  · rename_i harrays
    obtain ⟨hx, hy⟩ := Bool.and_eq_true_iff.1 harrays
    cases x with
    | array k u m =>
      cases y with
      | array k' v n =>
        obtain ⟨huv, hc⟩ := Option.ite_none_right_eq_some.1 h
        subst huv
        cases hc
        exact ⟨.decay k u m, .decay k' u n, rfl⟩
      | _ => cases hy
    | _ => cases hx
  split at h
  · rename_i hnumbers
    obtain ⟨hx, hy⟩ := Bool.and_eq_true_iff.1 hnumbers
    cases h
    exact ⟨.kept x, .float hx (by rw [isArithmetic, hy, Bool.true_or]), x.isConst_plain⟩
  split at h
  · rename_i hfloats
    obtain ⟨hx, hy⟩ := Bool.and_eq_true_iff.1 hfloats
    have hx' : x.isArithmetic = true := by rw [isArithmetic, hx, Bool.or_true]
    have hy' : y.isArithmetic = true := by rw [isArithmetic, hy, Bool.or_true]
    split at h
    · cases h
      exact ⟨.kept x, .float hx hy', x.isConst_plain⟩
    · cases h
      exact ⟨.float hy hx', .kept y, y.isConst_plain⟩
  split at h
  · rename_i hintegral
    obtain ⟨hx, hy⟩ := Bool.and_eq_true_iff.1 hintegral
    split at h
    · rename_i hbools
      obtain ⟨hx, hy⟩ := Bool.and_eq_true_iff.1 hbools
      cases h
      cases x with
      | bool k =>
        cases y with
        | bool k' => exact ⟨.kept (bool k), .kept (bool k'), rfl⟩
        | _ => cases hy
      | _ => cases hx
    · cases h
      exact ⟨.number (by rw [isArithmetic, hx, Bool.true_or]) rfl rfl,
        .number (by rw [isArithmetic, hy, Bool.true_or]) rfl rfl, rfl⟩
  split at h
  · rename_i hpointers
    obtain ⟨hx, hy⟩ := Bool.and_eq_true_iff.1 hpointers
    cases h
    exact ⟨.kept x, .pointer hx hy, x.isConst_plain⟩
  split at h
  · rename_i hpointers
    obtain ⟨hx, hy⟩ := Bool.and_eq_true_iff.1 hpointers
    cases h
    exact ⟨.pointer hy hx, .kept y, y.isConst_plain⟩
  · cases h

theorem Joins.convert (h : Joins a c) : ∃ x, a.convert false c = some (x, false) := by
  cases h with
  | same h => exact ⟨c, by rw [TypeTree.convert.eq_def, if_pos h, Bool.false_and]⟩
  | number ha hc hbool =>
    rw [TypeTree.convert.eq_def]
    split
    · exact ⟨_, rfl⟩
    · cases c with
      | integer | float => exact ⟨_, if_pos ha⟩
      | _ => simp_all [isArithmetic, isIntegral, isFloat, isBool]
  | null k x =>
    refine ⟨.pointer false x, ?_⟩
    rw [TypeTree.convert.eq_def, if_neg (by simp [withConst])]
    rfl
  | decay k x dim =>
    refine ⟨.pointer false x, ?_⟩
    rw [TypeTree.convert.eq_def, if_neg (by simp [withConst])]
    simp [losesConst]

/-- Only pointers and arrays become pointers. -/
theorem Joins.of_isPointer (h : Joins a c) (hc : c.isPointer = true) : a.isPointer = true ∨ a.isArray = true := by
  cases h with
  | same h => cases a <;> cases c <;> simp_all [isPointer, isArray, withConst]
  | number _ hc' => cases c <;> simp_all [isPointer, isArithmetic, isIntegral, isFloat]
  | null => exact .inl rfl
  | decay => exact .inr rfl

/-! ### Numbers -/

/-- Numbers are bools, integers and floats. -/
theorem isArithmetic_iff : a.isArithmetic = true ↔
    (∃ k, a = bool k) ∨ (∃ k n s, a = integer k n s) ∨ ∃ k w, a = float k w := by
  cases a <;> simp [isArithmetic, isIntegral, isFloat]

/-- The common type of two numbers. -/
def joined : TypeTree → TypeTree → TypeTree
  | float _ w, float _ w' => float false (if w'.bits ≤ w.bits then w else w')
  | float _ w, _ => float false w
  | _, float _ w => float false w
  | integer _ m s, integer _ n s' => integer false (max m n) (s && s')
  | integer _ n s, _ => integer false (max n 1) s
  | _, integer _ n s => integer false (max 1 n) s
  | _, _ => bool false

theorem common_eq_joined (ha : a.isArithmetic = true) (hb : b.isArithmetic = true) :
    a.common b = some (a.joined b) := by
  rcases isArithmetic_iff.1 ha with ⟨k, rfl⟩ | ⟨k, m, s, rfl⟩ | ⟨k, w, rfl⟩ <;>
    rcases isArithmetic_iff.1 hb with ⟨k', rfl⟩ | ⟨k', n, s', rfl⟩ | ⟨k', w', rfl⟩ <;>
    simp [common, joined, isIntegral, isFloat, isArray, isBool, isUnsigned, bits?, withConst]
  · grind
  · cases w <;> cases w' <;> simp [FloatWidth.bits]

theorem isArithmetic_joined (ha : a.isArithmetic = true) (hb : b.isArithmetic = true) :
    (a.joined b).isArithmetic = true := by
  rcases isArithmetic_iff.1 ha with ⟨k, rfl⟩ | ⟨k, m, s, rfl⟩ | ⟨k, w, rfl⟩ <;>
    rcases isArithmetic_iff.1 hb with ⟨k', rfl⟩ | ⟨k', n, s', rfl⟩ | ⟨k', w', rfl⟩ <;> rfl

theorem joined_self (ha : a.isArithmetic = true) : a.joined a = a.plain := by
  rcases isArithmetic_iff.1 ha with ⟨k, rfl⟩ | ⟨k, m, s, rfl⟩ | ⟨k, w, rfl⟩ <;> simp [joined, withConst]

theorem joined_assoc (ha : a.isArithmetic = true) (hb : b.isArithmetic = true) (hc : c.isArithmetic = true) :
    (a.joined b).joined c = a.joined (b.joined c) := by
  rcases isArithmetic_iff.1 ha with ⟨k, rfl⟩ | ⟨k, m, s, rfl⟩ | ⟨k, w, rfl⟩ <;>
    rcases isArithmetic_iff.1 hb with ⟨k', rfl⟩ | ⟨k', n, s', rfl⟩ | ⟨k', w', rfl⟩ <;>
    rcases isArithmetic_iff.1 hc with ⟨k'', rfl⟩ | ⟨k'', n', s'', rfl⟩ | ⟨k'', w'', rfl⟩ <;>
    simp [joined, Nat.max_assoc, Bool.and_assoc]
  all_goals grind

theorem common_assoc (ha : a.isArithmetic = true) (hb : b.isArithmetic = true) (hc : c.isArithmetic = true) :
    (a.common b).bind (·.common c) = some ((a.joined b).joined c) ∧
      (b.common c).bind a.common = some ((a.joined b).joined c) := by
  rw [common_eq_joined ha hb, common_eq_joined hb hc, Option.bind_some, Option.bind_some,
    common_eq_joined (isArithmetic_joined ha hb) hc, common_eq_joined ha (isArithmetic_joined hb hc),
    joined_assoc ha hb hc]
  exact ⟨rfl, rfl⟩

end TypeTree

/-! ### Tables -/

namespace TypeTable

/-- From `t` on, `src` converts to `dst` and no const flag gets lost. -/
def Widens (t : TypeTable) (src dst : TypeId) : Prop :=
  ∀ u, TypeTable.Reaches t u → ∃ c, (TypeM.implicitConvert src dst u).1 = some c ∧ c.discardsConst = false

variable {t t' : TypeTable} {a b c ty : TypeId}

theorem Canonical.widens (hc : t.Canonical) (ha : t.Has a) (hb : t.Has b) (h : (t.tree a).Joins (t.tree b)) :
    t.Widens a b := by
  intro u hu
  obtain ⟨x, hx⟩ := h.convert
  have hdenotes := (TypeM.convert_tree false ha hb (show t ≤ u from hu.steps.le) (hc.reaches hu)).2
  obtain ⟨c, hconv, heq⟩ := Option.map_eq_some_iff.1 (hdenotes.eq.trans hx)
  exact ⟨c, hconv, (Prod.mk.inj heq).2⟩

theorem shape_of_tree_integer {k : Bool} {bits : Nat} {signed : Bool} (h : t.tree ty = .integer k bits signed) :
    t.shape ty = .integer bits signed := by
  rw [t.tree_shape] at h
  unfold Shape.unfold at h
  split at h
  all_goals simp_all [t.shape_ne_named ty]

end TypeTable

namespace TypeM

open TypeTable

variable {t t' : TypeTable} {a b c : TypeId}

/-- The common type of three operands, that of the first two being taken first. -/
def commonLeft (a b c : TypeId) : TypeM (Option TypeId) := Option.elimM (common a b) (pure none) (common · c)

/-- The common type of three operands, that of the last two being taken first. -/
def commonRight (a b c : TypeId) : TypeM (Option TypeId) := Option.elimM (common b c) (pure none) (common a ·)

theorem Unfolds.elimM {x : TypeM (Option TypeId)} {f : TypeId → TypeM (Option TypeId)} {u : Option TypeTree}
    {g : TypeTree → Option TypeTree} (hx : Yields t x (Unfolds u)) (hgrows : Grows x)
    (hf : ∀ ty t₁, t ≤ t₁ → t₁.Has ty → Yields t₁ (f ty) (Unfolds (g (t₁.tree ty)))) :
    Yields t (Option.elimM x (pure .none) f) (Unfolds (u.bind g)) := by
  refine .bind hx hgrows fun r t₁ h₁ hr => ?_
  rw [← hr.eq]
  cases r with
  | none => exact Unfolds.none
  | some ty => exact hf ty t₁ h₁ (hr.has ty rfl)

theorem elimM_grows {x : TypeM (Option TypeId)} {f : TypeId → TypeM (Option TypeId)} (hx : Grows x)
    (hf : ∀ ty, Grows (f ty)) : Grows (Option.elimM x (pure none) f) := by
  refine .bind hx fun r => ?_
  cases r with
  | none => exact .pure _
  | some ty => exact hf ty

theorem commonLeft_tree (ha : t.Has a) (hb : t.Has b) (hc : t.Has c) :
    Yields t (commonLeft a b c) (Unfolds (((t.tree a).common (t.tree b)).bind (·.common (t.tree c)))) := by
  refine Unfolds.elimM (common_tree ha hb) (common_grows a b) fun ab t₁ h₁ hab => ?_
  rw [← hc.tree_eq h₁]
  exact common_tree hab (hc.mono h₁)

theorem commonRight_tree (ha : t.Has a) (hb : t.Has b) (hc : t.Has c) :
    Yields t (commonRight a b c) (Unfolds (((t.tree b).common (t.tree c)).bind (t.tree a).common)) := by
  refine Unfolds.elimM (common_tree hb hc) (common_grows b c) fun bc t₁ h₁ hbc => ?_
  rw [← ha.tree_eq h₁]
  exact common_tree (ha.mono h₁) hbc

/-- Both operands convert to what is common to them. -/
theorem common_widens {r : TypeId} (hcan : t.Canonical) (ha : t.Has a) (hb : t.Has b)
    (h : common a b t = (some r, t')) : t'.isConst r = false ∧ t'.Widens a r ∧ t'.Widens b r := by
  have hle : t ≤ t' := (common_grows a b).le h
  have hcan' := (common_tree ha hb).canonical le_rfl hcan h
  have hunfolds := (common_tree ha hb).result le_rfl hcan h
  have hr := hunfolds.has r rfl
  obtain ⟨hja, hjb, hconst⟩ := TypeTree.joins_of_common hunfolds.eq.symm
  rw [← ha.tree_eq hle] at hja
  rw [← hb.tree_eq hle] at hjb
  refine ⟨?_, hcan'.widens (ha.mono hle) hr hja, hcan'.widens (hb.mono hle) hr hjb⟩
  simpa only [kinds_tree] using hconst

/-- The common type of two numbers. -/
theorem common_number (hcan : t.Canonical) (ha : t.Has a) (hb : t.Has b) (hna : t.isArithmetic a = true)
    (hnb : t.isArithmetic b = true) :
    ∃ r t', common a b t = (some r, t') ∧ t'.Canonical ∧ t'.Has r ∧
      t'.tree r = (t.tree a).joined (t.tree b) := by
  obtain ⟨hcan', hunfolds⟩ := common_tree ha hb le_rfl hcan
  have hna' : (t.tree a).isArithmetic = true := by simpa only [kinds_tree] using hna
  have hnb' : (t.tree b).isArithmetic = true := by simpa only [kinds_tree] using hnb
  obtain ⟨r, hr, htree⟩ := Option.map_eq_some_iff.1 (hunfolds.eq.trans (TypeTree.common_eq_joined hna' hnb'))
  exact ⟨r, (common a b t).2, Prod.ext hr rfl, hcan', hunfolds.has r hr, htree⟩

/-- The common type of two integers. -/
theorem common_integer {m n : Nat} {p q : Bool} (hcan : t.Canonical) (ha : t.Has a) (hb : t.Has b)
    (hsa : t.shape a = .integer m p) (hsb : t.shape b = .integer n q) (h : common a b t = (some c, t')) :
    t'.shape c = .integer (max m n) (p && q) := by
  have hna : t.isArithmetic a = true := isArithmetic_of_isIntegral (isIntegral_iff.2 (.inr ⟨m, p, hsa⟩))
  have hnb : t.isArithmetic b = true := isArithmetic_of_isIntegral (isIntegral_iff.2 (.inr ⟨n, q, hsb⟩))
  obtain ⟨c', u, hcommon, -, -, htree⟩ := common_number hcan ha hb hna hnb
  cases h.symm.trans hcommon
  rw [tree_of_shape hsa, tree_of_shape hsb] at htree
  exact shape_of_tree_integer htree

/-- Three numbers have a common type, whichever two are taken first. -/
theorem common_three (hcan : t.Canonical) (ha : t.Has a) (hb : t.Has b) (hc : t.Has c)
    (hna : t.isArithmetic a = true) (hnb : t.isArithmetic b = true) (hnc : t.isArithmetic c = true) :
    (commonLeft a b c t).1.isSome = true ∧ t.Agree (commonLeft a b c) (commonRight a b c) SameType := by
  obtain ⟨hl, hr⟩ := TypeTree.common_assoc (a := t.tree a) (b := t.tree b) (c := t.tree c)
    (by simpa only [kinds_tree] using hna) (by simpa only [kinds_tree] using hnb)
    (by simpa only [kinds_tree] using hnc)
  have hleft := commonLeft_tree ha hb hc
  have hright := commonRight_tree ha hb hc
  rw [hl] at hleft
  rw [hr] at hright
  constructor
  · rw [← Option.isSome_map, (hleft le_rfl hcan).2.eq, Option.isSome_some]
  · exact agree_of_yields hcan (elimM_grows (common_grows a b) fun _ => common_grows _ c)
      (elimM_grows (common_grows b c) fun _ => common_grows a _) sameType_of_unfolds hleft hright

/-- A number and itself. -/
theorem common_self (hcan : t.Canonical) (ha : t.Has a) (hna : t.isArithmetic a = true) :
    ∃ c t', common a a t = (some c, t') ∧ t'.Same c a := by
  obtain ⟨c, t', hcommon, hcan', hc, htree⟩ := common_number hcan ha ha hna hna
  have hle : t ≤ t' := (common_grows a a).le hcommon
  refine ⟨c, t', hcommon, (hcan'.same_iff hc (ha.mono hle)).2 ?_⟩
  rw [htree, TypeTree.joined_self (by simpa only [kinds_tree] using hna), TypeTree.plain_plain, ha.tree_eq hle]

end TypeM

/-! ### Choices -/

namespace Typing

open Session

variable {s : Session} {e : Expr} {ty : TypeId}

theorem onTypes_bind_iff {ε α β : Type} {x : TypeM α} {f : α → ExceptT ε (StateM Session) β} {s s' : Session}
    {r : Except ε β} : Ends (onTypes x >>= f) s r s' ↔ Ends (f (x s.types).1) { s with types := (x s.types).2 } r s' :=
  Iff.rfl

/-- A report does not keep a computation from its end. -/
theorem optional_warn_ok {ε α : Type} {p : Prop} [Decidable p] {message : String} {span : Span}
    {k : PUnit → ExceptT ε (StateM Session) α} (hk : ∀ s, ∃ a s', Ends (k ⟨⟩) s (.ok a) s') (s : Session) :
    ∃ a s', Ends (if p then warn message span >>= k else k ⟨⟩) s (.ok a) s' := by
  split
  · exact hk { s with log := s.log.warning message span }
  · exact hk s

/-- An expression is converted where its type can be and it is no function where a pointer is wanted. -/
theorem implicitCast_ok (hfun : (s.types.isFunction e.ty && s.types.isPointer ty) = false)
    (hconv : (TypeM.implicitConvert e.ty ty s.types).1.isSome = true) :
    ∃ e' s', Ends (implicitCast e ty) s (.ok e') s' := by
  obtain ⟨conversion, hc⟩ := Option.isSome_iff_exists.1 hconv
  unfold implicitCast
  simp only [currentTypes_bind_iff, hfun, Bool.false_eq_true, if_false]
  split
  · exact ⟨e, s, Ends.pure_iff.2 ⟨rfl, rfl⟩⟩
  · simp only [pure_bind, onTypes_bind_iff, currentTypes_bind_iff, hc]
    refine optional_warn_ok (fun s₁ => ?_) _
    exact optional_warn_ok (k := fun _ => pure _) (fun s₂ => ⟨_, s₂, Ends.pure_iff.2 ⟨rfl, rfl⟩⟩) s₁

end Typing

namespace Node

open Session TypeTable

variable {t t' : TypeTable} {a b ty : TypeId}

theorem choiceType_tree (ha : t.Has a) (hb : t.Has b) :
    TypeM.Yields t (choiceType a b) (TypeM.Unfolds
      (if (t.tree a).isVoid && (t.tree b).isVoid then some (t.tree a) else (t.tree a).common (t.tree b))) := by
  refine .get fun t₁ h₁ => ?_
  rw [← ha.tree_eq h₁, ← hb.tree_eq h₁]
  simp only [kinds_tree]
  refine .branch .rfl (fun _ => TypeM.Unfolds.some (ha.mono h₁) rfl) fun _ =>
    .stripped (ha.mono h₁) (hb.mono h₁) fun x y t₂ h₂ hx hy => ?_
  have hcommon := TypeM.common_tree hx.has hy.has
  rwa [hx.tree_eq, hy.tree_eq, TypeTree.common_plain] at hcommon

/-- Both arms of a choice become of its type. -/
theorem choiceType_joins (hcan : t.Canonical) (ha : t.Has a) (hb : t.Has b) (h : choiceType a b t = (some ty, t')) :
    t'.Has ty ∧ (t'.tree a).Joins (t'.tree ty) ∧ (t'.tree b).Joins (t'.tree ty) := by
  have hle : t ≤ t' := (choiceType_grows a b).le h
  have hunfolds := (choiceType_tree ha hb).result le_rfl hcan h
  refine ⟨hunfolds.has ty rfl, ?_⟩
  rw [ha.tree_eq hle, hb.tree_eq hle]
  have htree := hunfolds.eq.symm
  split at htree
  · rename_i hvoid
    obtain ⟨hva, hvb⟩ := Bool.and_eq_true_iff.1 hvoid
    rw [Option.map_some, Option.some.injEq] at htree
    rw [← htree]
    exact ⟨.same rfl, .same (by rw [TypeTree.plain_of_isVoid hva, TypeTree.plain_of_isVoid hvb])⟩
  · obtain ⟨hja, hjb, -⟩ := TypeTree.joins_of_common htree
    exact ⟨hja, hjb⟩

/-- An arm of a choice is converted. -/
theorem implicitCast_arm {s : Session} {e : Expr} (hcan : s.types.Canonical) (he : s.types.Has e.ty)
    (hty : s.types.Has ty) (h : (s.types.tree e.ty).Joins (s.types.tree ty)) :
    ∃ e' s', Ends (check (Typing.implicitCast e ty)) s (.ok e') s' := by
  obtain ⟨c, hc, -⟩ := hcan.widens he hty h s.types .refl
  have hfun : (s.types.isFunction e.ty && s.types.isPointer ty) = false := by
    by_contra hboth
    obtain ⟨hf, hp⟩ := Bool.and_eq_true_iff.1 (Bool.not_eq_false _ ▸ hboth)
    have hkind := h.of_isPointer (by simpa only [kinds_tree] using hp)
    simp only [kinds_tree] at hkind
    cases hs : s.types.shape e.ty <;> simp_all [isFunction, TypeTable.isPointer, isArray]
  obtain ⟨e', s', hcast⟩ := Typing.implicitCast_ok hfun (by rw [hc]; rfl)
  exact ⟨e', s', check_ok_iff.2 hcast⟩

/-- Once its condition is converted and there is a type for it, a choice is built. -/
theorem conditional_ok {s s₁ : Session} {cond cond' x y : Expr} (span : Span) (hcan : s.types.Canonical)
    (hx : s.types.Has x.ty) (hy : s.types.Has y.ty)
    (hcond : Ends (do check (Typing.implicitCast cond (← onTypes .bool)) : SessionM Expr) s (.ok cond') s₁)
    (hty : (choiceType x.ty y.ty s₁.types).1.isSome = true) :
    ∃ e s', Ends (conditional cond x y span) s (.ok e) s' := by
  have hkeeps : Session.Keeps s.types (do check (Typing.implicitCast cond (← onTypes .bool)) : SessionM Expr) :=
    .bind (.onTypes (TypeM.intern_yields_plain nofun nofun)) (onTypes_grows Typing.bool_grows) fun _ _ _ _ =>
      .check (Typing.implicitCast_keeps _ _ _)
  have hcan₁ := hkeeps.canonical le_rfl hcan hcond
  obtain ⟨bool, s₀, hbool, hcond⟩ := Ends.bind_ok_iff.1 hcond
  have h₁ : s.types ≤ s₁.types :=
    (onTypes_grows Typing.bool_grows hbool).le.trans (check_grows (Typing.implicitCast_grows _ _) hcond).le
  obtain ⟨ty, hty⟩ := Option.isSome_iff_exists.1 hty
  generalize hchoice : choiceType x.ty y.ty s₁.types = choice at hty
  obtain ⟨r, t₂⟩ := choice
  cases hty
  have h₂ : s₁.types ≤ t₂ := (choiceType_grows _ _).le hchoice
  have hcan₂ := (choiceType_tree (hx.mono h₁) (hy.mono h₁)).canonical le_rfl hcan₁ hchoice
  obtain ⟨hhas, hjx, hjy⟩ := choiceType_joins hcan₁ (hx.mono h₁) (hy.mono h₁) hchoice
  obtain ⟨x', s₃, hx'⟩ := implicitCast_arm (s := { s₁ with types := t₂ }) hcan₂ (hx.mono (h₁.trans h₂)) hhas hjx
  have h₃ : t₂ ≤ s₃.types := (check_grows (Typing.implicitCast_grows _ _) hx').le
  have hcan₃ := (Yields.check (Typing.implicitCast_keeps t₂ x ty)).canonical le_rfl hcan₂ hx'
  rw [← (hy.mono (h₁.trans h₂)).tree_eq h₃, ← hhas.tree_eq h₃] at hjy
  obtain ⟨y', s₄, hy'⟩ := implicitCast_arm hcan₃ (hy.mono ((h₁.trans h₂).trans h₃)) (hhas.mono h₃) hjy
  refine ⟨.conditional cond' x' y' ⟨ty, span⟩, s₄, ?_⟩
  refine Ends.bind_ok_iff.2 ⟨bool, s₀, hbool, Ends.bind_ok_iff.2 ⟨cond', s₁, hcond, ?_⟩⟩
  rw [Typing.onTypes_bind_iff, hchoice]
  exact Ends.bind_ok_iff.2 ⟨x', s₃, hx', Ends.bind_ok_iff.2 ⟨y', s₄, hy', Ends.pure_iff.2 ⟨rfl, rfl⟩⟩⟩

end Node

open Session

namespace TypeTable

/-- The laws of common types, for the types of one table. -/
structure JoinLaws (t : TypeTable) : Prop where
  /-- The order of the operands does not matter. -/
  comm : ∀ a b, t.Has a → t.Has b → t.Agree (TypeM.common a b) (TypeM.common b a) SameType
  /-- Both operands convert to their common type, which is not const. -/
  widens : ∀ a b c t', t.Has a → t.Has b → TypeM.common a b t = (some c, t') →
    t'.isConst c = false ∧ t'.Widens a c ∧ t'.Widens b c
  /-- So a choice is built as soon as its condition is converted and its arms have a common type. -/
  choice : ∀ (s s₁ : Session) (cond cond' x y : Expr) (span : Span), s.types = t → t.Has x.ty → t.Has y.ty →
    Ends (do check (Typing.implicitCast cond (← onTypes .bool)) : SessionM Expr) s (.ok cond') s₁ →
    (Node.choiceType x.ty y.ty s₁.types).1.isSome = true → ∃ e s', Ends (Node.conditional cond x y span) s (.ok e) s'
  /-- Numbers have a common type, and that is a number. -/
  total : ∀ a b, t.Has a → t.Has b → t.isArithmetic a = true → t.isArithmetic b = true →
    ∃ c t', TypeM.common a b t = (some c, t') ∧ t'.isArithmetic c = true
  /-- The common type of two integers is as wide as the wider one, and has a sign if both have one. -/
  integer : ∀ a b m n p q c t', t.Has a → t.Has b → t.shape a = .integer m p → t.shape b = .integer n q →
    TypeM.common a b t = (some c, t') → t'.shape c = .integer (max m n) (p && q)
  /-- It does not matter which two of three numbers are taken first. -/
  assoc : ∀ a b c, t.Has a → t.Has b → t.Has c → t.isArithmetic a = true → t.isArithmetic b = true →
    t.isArithmetic c = true → (TypeM.commonLeft a b c t).1.isSome = true ∧
      t.Agree (TypeM.commonLeft a b c) (TypeM.commonRight a b c) SameType
  /-- A number has its own type in common with itself. -/
  idem : ∀ a, t.Has a → t.isArithmetic a = true → ∃ c t', TypeM.common a a t = (some c, t') ∧ t'.Same c a

end TypeTable

open TypeTable

/-- In every table that is built from nothing, common types are joins. -/
theorem common_isJoin {sizeBits : Nat} {t : TypeTable} (h : TypeTable.Reaches (.empty sizeBits) t) : t.JoinLaws := by
  have hcan := h.canonical
  constructor
  case comm =>
    intro a b ha hb
    refine agree_of_yields hcan (TypeM.common_grows _ _) (TypeM.common_grows _ _) sameType_of_unfolds
      (TypeM.common_tree ha hb) ?_
    rw [TypeTree.common_comm]
    exact TypeM.common_tree hb ha
  case widens => exact fun a b c t' ha hb hcommon => TypeM.common_widens hcan ha hb hcommon
  case choice =>
    rintro s s₁ cond cond' x y span rfl hx hy hcond hty
    exact Node.conditional_ok span hcan hx hy hcond hty
  case total =>
    intro a b ha hb hna hnb
    obtain ⟨c, t', hcommon, -, -, htree⟩ := TypeM.common_number hcan ha hb hna hnb
    refine ⟨c, t', hcommon, ?_⟩
    have hjoined := TypeTree.isArithmetic_joined (a := t.tree a) (b := t.tree b)
    simp only [← htree, kinds_tree] at hjoined
    exact hjoined hna hnb
  case integer =>
    exact fun a b m n p q c t' ha hb hsa hsb hcommon => TypeM.common_integer hcan ha hb hsa hsb hcommon
  case assoc => exact fun a b c ha hb hc hna hnb hnc => TypeM.common_three hcan ha hb hc hna hnb hnc
  case idem => exact fun a ha hna => TypeM.common_self hcan ha hna

namespace Mixed

/-- Numbers of every kind, one of them const and under a name, and two arrays that differ in their bounds. -/
def ops : List Op :=
  [.bool, .integer 32 true, .integer 64 false, .float .f32, .const ⟨1⟩, .named "Int" ⟨4⟩, .array ⟨5⟩ 2, .array ⟨4⟩ 3]

def table : TypeTable := ops.foldl Op.apply (.empty 64)

theorem reaches : TypeTable.Reaches (.empty 64) table := Op.reaches_foldl (by decide +kernel)

end Mixed

open Mixed in
theorem mixed_common_isJoin :
    (TypeTable.Reaches (.empty 64) table ∧ (∀ i < 8, table.Has ⟨i⟩) ∧ (∀ i < 6, table.isArithmetic ⟨i⟩ = true) ∧
      (TypeM.common ⟨6⟩ ⟨7⟩ table).1.isSome = true) ∧ table.JoinLaws :=
  ⟨⟨reaches, by decide +kernel, by decide +kernel, by decide +kernel⟩, common_isJoin reaches⟩

end TypedCore
