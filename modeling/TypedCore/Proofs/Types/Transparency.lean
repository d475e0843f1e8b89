import TypedCore.Proofs.Types.Trees

/-!
# Names never matter

Types that are equal have one tree, so they convert in the same way, and every question about them has one
answer: equality is a congruence for all that is done with types. A name may stand anywhere inside a type and
nothing depends on it.
-/

namespace TypedCore

/-! ### Shapes of equal types -/

/-- Two shapes are of one kind, and their parts have the same trees. -/
inductive Shape.Alike (tree : TypeId → TypeTree) : Shape → Shape → Prop
  | void : Alike tree .void .void
  | bool : Alike tree .bool .bool
  | integer (bits : Nat) (signed : Bool) : Alike tree (.integer bits signed) (.integer bits signed)
  | float (width : FloatWidth) : Alike tree (.float width) (.float width)
  | nullPointer : Alike tree (.pointer none) (.pointer none)
  | pointer {x y : TypeId} (h : tree x = tree y) : Alike tree (.pointer (some x)) (.pointer (some y))
  | array {x y : TypeId} (h : tree x = tree y) (dim : Nat) : Alike tree (.array x dim) (.array y dim)
  | function {r r' : TypeId} {ps qs : List TypeId} (hr : tree r = tree r') (hps : ps.map tree = qs.map tree)
      (variadic : Bool) : Alike tree (.function r ps variadic) (.function r' qs variadic)
  | struct (id : StructId) : Alike tree (.struct id) (.struct id)

namespace Shape

variable {tree : TypeId → TypeTree} {c c' : Bool} {s s' : Shape}

theorem alike_of_unfold (hs : ∀ name target, s ≠ .named name target)
    (hs' : ∀ name target, s' ≠ .named name target) (h : s.unfold tree c = s'.unfold tree c') :
    c = c' ∧ Alike tree s s' := by
  refine ⟨isConst_of_unfold hs hs' h, ?_⟩
  unfold unfold at h
  split at h
  · exact absurd rfl (hs _ _)
  all_goals
    split at h
    · exact absurd rfl (hs' _ _)
    all_goals simp only [reduceCtorEq, TypeTree.void.injEq, TypeTree.bool.injEq, TypeTree.integer.injEq,
      TypeTree.float.injEq, TypeTree.nullPointer.injEq, TypeTree.pointer.injEq, TypeTree.array.injEq,
      TypeTree.function.injEq, TypeTree.struct.injEq] at h
  · exact .void
  · exact .bool
  · obtain ⟨-, rfl, rfl⟩ := h
    exact .integer _ _
  · obtain ⟨-, rfl⟩ := h
    exact .float _
  · exact .nullPointer
  · exact .pointer h.2
  · obtain ⟨-, helement, rfl⟩ := h
    exact .array helement _
  · obtain ⟨-, hret, hparams, rfl⟩ := h
    exact .function hret hparams _
  · obtain ⟨-, rfl⟩ := h
    exact .struct _

end Shape

namespace TypeTable

variable {t t' : TypeTable} {a b : TypeId}

theorem alike_of_tree (h : t.tree a = t.tree b) :
    t.isConst a = t.isConst b ∧ Shape.Alike t.tree (t.shape a) (t.shape b) := by
  rw [t.tree_shape a, t.tree_shape b] at h
  exact Shape.alike_of_unfold (t.shape_ne_named a) (t.shape_ne_named b) h

/-! ### Questions -/

/-- The questions about a type that are answered by yes or no. Whether a type is a name is not among them. -/
def kinds : List (TypeTable → TypeId → Bool) :=
  [isConst, isVoid, isBool, isInteger, isSigned, isUnsigned, isFloat, isIntegral, isArithmetic, isPointer, isNullptr,
    isArray, isUnboundArray, isFunction, isVariadic, isStruct, isScalar, isComplete, isRemoved]

theorem kinds_congr (h : t.tree a = t.tree b) : ∀ kind ∈ kinds, kind t a = kind t b := by
  obtain ⟨hconst, halike⟩ := alike_of_tree h
  have hkinds : kinds.map (· t a) = kinds.map (· t b) := by
    simp only [kinds, List.map_cons, List.map_nil, hconst, isVoid, isBool, isInteger, isSigned, isUnsigned, isFloat,
      isIntegral, isArithmetic, isPointer, isNullptr, isArray, isUnboundArray, isFunction, isVariadic, isStruct,
      isScalar, isComplete, isRemoved, structId?]
    generalize t.shape a = s at halike ⊢
    generalize t.shape b = s' at halike ⊢
    cases halike <;> rfl
  exact List.map_inj_left.1 hkinds

/-- A function of types agrees on equal types if it does so whenever it agrees on their parts. -/
theorem congr_of_parts {α : Type} {f : TypeId → α}
    (hf : ∀ a b s s', t.shape a = s → t.shape b = s' → t.isConst a = t.isConst b → Shape.Alike t.tree s s' →
      (∀ x ∈ s.parts, ∀ y, t.tree x = t.tree y → f x = f y) → f a = f b) (h : t.tree a = t.tree b) : f a = f b := by
  induction a using t.parts_induction generalizing b with
  | step a ih =>
    obtain ⟨hconst, halike⟩ := alike_of_tree h
    exact hf a b _ _ rfl rfl hconst halike fun x hx y hxy => ih x hx hxy

theorem hasSize_congr (h : t.tree a = t.tree b) : t.hasSize a = t.hasSize b := by
  refine congr_of_parts (fun a b s s' hs hs' _ halike hparts => ?_) h
  rw [t.hasSize_eq a, t.hasSize_eq b, hs, hs']
  cases halike with
  | array h dim => simp only [hparts _ (by simp [Shape.parts]) _ h]
  | _ => rfl

theorem isReadOnly_congr (h : t.tree a = t.tree b) : t.isReadOnly a = t.isReadOnly b := by
  refine congr_of_parts (fun a b s s' hs hs' hconst halike hparts => ?_) h
  rw [t.isReadOnly_eq a, t.isReadOnly_eq b, hs, hs', hconst]
  cases halike with
  | array h dim => simp only [hparts _ (by simp [Shape.parts]) _ h]
  | _ => rfl

/-! ### Layouts -/

/-- Both fail, or both give the same. -/
def SameResult {α : Type} (x y : Except Fault α) : Prop := x.toOption = y.toOption

namespace SameResult

variable {α β : Type}

theorem refl (x : Except Fault α) : SameResult x x := rfl

theorem error (e e' : Fault) : SameResult (.error e : Except Fault α) (.error e') := rfl

theorem bind {x y : Except Fault α} {f g : α → Except Fault β} (h : SameResult x y)
    (hf : ∀ a, SameResult (f a) (g a)) : SameResult (x >>= f) (y >>= g) := by
  cases x with
  | error e =>
    cases y with
    | error e' => exact .error e e'
    | ok b => cases h
  | ok a =>
    cases y with
    | error e' => cases h
    | ok b =>
      cases h
      exact hf a

theorem map {x y : Except Fault α} (f : α → β) (h : SameResult x y) : SameResult (f <$> x) (f <$> y) := by
  rw [← bind_pure_comp, ← bind_pure_comp]
  exact h.bind fun _ => .refl _

theorem mapM {γ : Type} {f : TypeId → Except Fault α} {tree : TypeId → γ} {ps qs : List TypeId}
    (hf : ∀ p ∈ ps, ∀ q, tree p = tree q → SameResult (f p) (f q)) (h : ps.map tree = qs.map tree) :
    SameResult (ps.mapM f) (qs.mapM f) := by
  induction ps generalizing qs with
  | nil =>
    obtain rfl := List.map_eq_nil_iff.1 h.symm
    exact .refl _
  | cons p ps ih =>
    obtain ⟨q, qs, rfl, hq, hqs⟩ := List.map_eq_cons_iff.1 h.symm
    rw [List.mapM_cons, List.mapM_cons]
    exact .bind (hf p (List.mem_cons_self ..) q hq.symm) fun _ =>
      .bind (ih (fun p hp => hf p (List.mem_cons_of_mem _ hp)) hqs.symm) fun _ => .refl _

end SameResult

theorem layoutWith_eq (struct : TypeId → StructId → Except Fault Ir.Ty) (ty : TypeId) : t.layoutWith struct ty =
    match t.shape ty with
    | .void => .ok .void
    | .bool => .ok .i1
    | .integer bits _ => .ok (.int bits)
    | .float .f32 => .ok .f32
    | .float .f64 => .ok .f64
    | .pointer none => .ok (.ptr .i8)
    | .pointer (some target) =>
      match t.shape target with
      | .void => .ok (.ptr .i8)
      | .struct _ => .ok (.ptr (.struct (t.layoutName? target) []))
      | _ => .ptr <$> t.layoutWith struct target
    | .array element dim => .array dim <$> t.layoutWith struct element
    | .function ret params variadic => do
      let ret ← t.layoutWith struct ret
      let params ← params.mapM (t.layoutWith struct)
      return .function ret params variadic
    | .struct id => struct ty id
    | .named .. => .error (.unsupportedType (t.name ty)) := by
  rw [layoutWith]
  split
  case h_7 target h =>
    simp only [h]
    cases t.shape target <;> simp
  all_goals simp_all

theorem layoutName?_congr {id : StructId} (ha : t.shape a = .struct id) (hb : t.shape b = .struct id) :
    t.layoutName? a = t.layoutName? b := by
  simp only [layoutName?, structName?, structId?, ha, hb]

theorem layoutWith_congr {struct : TypeId → StructId → Except Fault Ir.Ty}
    (hstruct : ∀ a b id, t.shape a = .struct id → t.shape b = .struct id → SameResult (struct a id) (struct b id))
    (h : t.tree a = t.tree b) : SameResult (t.layoutWith struct a) (t.layoutWith struct b) := by
  refine congr_of_parts (f := fun ty => (t.layoutWith struct ty).toOption)
    (fun a b s s' hs hs' _ halike hparts => ?_) h
  show SameResult _ _
  rw [t.layoutWith_eq struct a, t.layoutWith_eq struct b, hs, hs']
  cases halike with
  | @pointer x y h =>
    have htarget : SameResult (Ir.Ty.ptr <$> t.layoutWith struct x) (Ir.Ty.ptr <$> t.layoutWith struct y) :=
      .map _ (hparts x (by simp [Shape.parts]) y h)
    obtain ⟨-, halike⟩ := alike_of_tree h
    simp only
    generalize hx : t.shape x = sx at halike ⊢
    generalize hy : t.shape y = sy at halike ⊢
    cases halike with
    | void => exact .refl _
    | struct id =>
      rw [layoutName?_congr hx hy]
      exact .refl _
    | _ => exact htarget
  | array h dim => exact .map _ (hparts _ (by simp [Shape.parts]) _ h)
  | function hr hps variadic =>
    exact .bind (hparts _ (by simp [Shape.parts]) _ hr) fun _ =>
      .bind (.mapM (fun p hp => hparts p (by simp [Shape.parts, hp])) hps) fun _ => .refl _
  | struct id => exact hstruct a b id hs hs'
  | float width => cases width <;> exact .refl _
  | _ => exact .refl _

theorem layout_congr (h : t.tree a = t.tree b) : SameResult (t.layout a) (t.layout b) := by
  unfold layout
  cases t.structs.size with
  | zero => exact layoutWith_congr (fun _ _ _ _ _ => .error _ _) h
  | succ depth =>
    refine layoutWith_congr (fun a b id ha hb => ?_) h
    cases (t.struct id).members with
    | none => exact .error _ _
    | some members =>
      rw [layoutName?_congr ha hb]
      exact .refl _

/-! ### Answers -/

/-- Two conversions are refused, or both are permitted, lose a const flag or not, and end at equal types. -/
def SameConversion (t : TypeTable) : Option Conversion → Option Conversion → Prop
  | none, none => True
  | some c, some c' => c.discardsConst = c'.discardsConst ∧ t.equals c.target c'.target = true
  | _, _ => False

/-- There is no type, or there are equal types. -/
def SameType (t : TypeTable) : Option TypeId → Option TypeId → Prop
  | none, none => True
  | some ty, some ty' => t.equals ty ty' = true
  | _, _ => False

/-- From `t` on, whenever `x` is asked and `y` at any time after it, the answers agree. -/
def Agree {α : Type} (t : TypeTable) (x y : TypeM α) (Same : TypeTable → α → α → Prop) : Prop :=
  ∀ t₁ t₂, Reaches t t₁ → Reaches (x t₁).2 t₂ → Same (y t₂).2 (x t₁).1 (y t₂).1

theorem sameConversion_of_denotes {x : Option (TypeTree × Bool)} {r r' : Option Conversion} (hc : t'.Canonical)
    (hr : TypeM.Denotes x r t) (ht : t ≤ t') (hr' : TypeM.Denotes x r' t') : t'.SameConversion r r' := by
  have heq := hr.eq.trans hr'.eq.symm
  cases r with
  | none =>
    cases r' with
    | none => trivial
    | some c' => cases heq
  | some c =>
    cases r' with
    | none => cases heq
    | some c' =>
      obtain ⟨htree, hdiscards⟩ := Prod.mk.inj (Option.some.inj heq)
      have hhas := hr.has c rfl
      refine ⟨hdiscards, (hc.equals_iff (hhas.mono ht) (hr'.has c' rfl)).2 ?_⟩
      rw [hhas.tree_eq ht, htree]

theorem sameType_of_unfolds {x : Option TypeTree} {r r' : Option TypeId} (hc : t'.Canonical)
    (hr : TypeM.Unfolds x r t) (ht : t ≤ t') (hr' : TypeM.Unfolds x r' t') : t'.SameType r r' := by
  have heq := hr.eq.trans hr'.eq.symm
  cases r with
  | none =>
    cases r' with
    | none => trivial
    | some c' => cases heq
  | some ty =>
    cases r' with
    | none => cases heq
    | some ty' =>
      have hhas := hr.has ty rfl
      refine (hc.equals_iff (hhas.mono ht) (hr'.has ty' rfl)).2 ?_
      rw [hhas.tree_eq ht, Option.some.inj heq]

/-- Two operations that do what one operation on trees does agree. -/
theorem agree_of_yields {α β : Type} {x y : TypeM α} {Same : TypeTable → α → α → Prop}
    {Q : β → α → TypeTable → Prop} {u : β} (hc : t.Canonical) (hgrows : TypeM.Grows x) (hgrows' : TypeM.Grows y)
    (hsame : ∀ {t₁ t₂ r r'}, t₂.Canonical → Q u r t₁ → t₁ ≤ t₂ → Q u r' t₂ → Same t₂ r r')
    (hx : TypeM.Yields t x (Q u)) (hy : TypeM.Yields t y (Q u)) : t.Agree x y Same := by
  intro t₁ t₂ h₁ h₂
  have hle₁ : t ≤ t₁ := h₁.steps.le
  have hle₂ : (x t₁).2 ≤ t₂ := h₂.steps.le
  have hle := hle₁.trans ((hgrows t₁).le.trans hle₂)
  obtain ⟨hcx, hqx⟩ := hx hle₁ (hc.reaches h₁)
  obtain ⟨hcy, hqy⟩ := hy hle (hcx.reaches h₂)
  exact hsame hcy hqx (hle₂.trans (hgrows' t₂).le) hqy

end TypeTable

open TypeTable

/-- In every table that is built from nothing, equal types may stand for each other: conversions, casts and common
types come out the same, all questions have the same answers, and the layouts are the same or there are none. -/
theorem equal_types_interchangeable {sizeBits : Nat} {t : TypeTable} (h : Reaches (.empty sizeBits) t)
    {a a' b b' : TypeId} (ha : t.Has a) (ha' : t.Has a') (hb : t.Has b) (hb' : t.Has b')
    (haa : t.equals a a' = true) (hbb : t.equals b b' = true) :
    t.Agree (TypeM.implicitConvert a b) (TypeM.implicitConvert a' b') SameConversion ∧
    t.Agree (TypeM.explicitCast a b) (TypeM.explicitCast a' b') SameConversion ∧
    t.Agree (TypeM.common a b) (TypeM.common a' b') SameType ∧
    t.hasSize a = t.hasSize a' ∧ t.isReadOnly a = t.isReadOnly a' ∧ (∀ kind ∈ kinds, kind t a = kind t a') ∧
    SameResult (t.layout a) (t.layout a') := by
  have hc := h.canonical
  have htree := (hc.equals_iff ha ha').1 haa
  have htree' := (hc.equals_iff hb hb').1 hbb
  refine ⟨?_, ?_, ?_, hasSize_congr htree, isReadOnly_congr htree, kinds_congr htree, layout_congr htree⟩
  · refine agree_of_yields hc (TypeM.convert_grows _ _ _) (TypeM.convert_grows _ _ _) sameConversion_of_denotes
      (TypeM.convert_tree false ha hb) ?_
    rw [htree, htree']
    exact TypeM.convert_tree false ha' hb'
  · refine agree_of_yields hc (TypeM.explicitCast_grows _ _) (TypeM.explicitCast_grows _ _) sameConversion_of_denotes
      (TypeM.explicitCast_tree ha hb) ?_
    rw [htree, htree']
    exact TypeM.explicitCast_tree ha' hb'
  · refine agree_of_yields hc (TypeM.common_grows _ _) (TypeM.common_grows _ _) sameType_of_unfolds
      (TypeM.common_tree ha hb) ?_
    rw [htree, htree']
    exact TypeM.common_tree ha' hb'

namespace Renamed

/-- Arrays of pointers to const numbers, under names at several depths and without. -/
def ops : List Op :=
  [.integer 32 true, .named "Int" ⟨0⟩, .const ⟨1⟩, .pointer ⟨2⟩, .pointer ⟨3⟩, .named "Ref" ⟨5⟩, .array ⟨4⟩ 2,
    .array ⟨6⟩ 2, .named "Pair" ⟨8⟩, .pointer ⟨0⟩, .array ⟨10⟩ 0, .pointer ⟨1⟩, .array ⟨12⟩ 0, .named "List" ⟨13⟩]

def table : TypeTable := ops.foldl Op.apply (.empty 64)

theorem reaches : Reaches (.empty 64) table := Op.reaches_foldl (by decide +kernel)

end Renamed

open Renamed in
/-- The names lie inside the types, and the conversion gives the array a bound and loses a const flag. -/
theorem renamed_types_interchangeable :
    (Reaches (.empty 64) table ∧ table.unalias ⟨7⟩ ≠ table.unalias ⟨9⟩ ∧ table.equals ⟨7⟩ ⟨9⟩ = true ∧
      table.equals ⟨11⟩ ⟨14⟩ = true ∧
      (TypeM.implicitConvert ⟨7⟩ ⟨11⟩ table).1.map (·.discardsConst) = some true) ∧
    table.Agree (TypeM.implicitConvert ⟨7⟩ ⟨11⟩) (TypeM.implicitConvert ⟨9⟩ ⟨14⟩) SameConversion ∧
    table.Agree (TypeM.explicitCast ⟨7⟩ ⟨11⟩) (TypeM.explicitCast ⟨9⟩ ⟨14⟩) SameConversion ∧
    table.Agree (TypeM.common ⟨7⟩ ⟨11⟩) (TypeM.common ⟨9⟩ ⟨14⟩) SameType ∧
    table.hasSize ⟨7⟩ = table.hasSize ⟨9⟩ ∧ table.isReadOnly ⟨7⟩ = table.isReadOnly ⟨9⟩ ∧
    (∀ kind ∈ kinds, kind table ⟨7⟩ = kind table ⟨9⟩) ∧ SameResult (table.layout ⟨7⟩) (table.layout ⟨9⟩) := by
  have hhas : ∀ i < 15, table.Has ⟨i⟩ := by decide +kernel
  have hpairs : table.equals ⟨7⟩ ⟨9⟩ = true := by decide +kernel
  have hlists : table.equals ⟨11⟩ ⟨14⟩ = true := by decide +kernel
  exact ⟨⟨reaches, by decide +kernel, hpairs, hlists, by decide +kernel⟩,
    equal_types_interchangeable reaches (hhas 7 (by omega)) (hhas 9 (by omega)) (hhas 11 (by omega))
      (hhas 14 (by omega)) hpairs hlists⟩

end TypedCore
