import TypedCore.Proofs.Types.Conversions

/-!
# Interning is canonical

Every operation on types that have been issued keeps a table canonical. So in a table that is built from nothing
the maps are in step with the entries, and an entry stands only once, unless it is that of a struct whose scope is
closed. A type with a const flag is one type, however it is asked for and whenever: giving a flag and giving
another one after it is the same as giving the second one only.
-/

namespace TypedCore

namespace TypeTable

/-! ### Tables that can be built -/

/-- What is done to a type table. -/
inductive Op where
  | void
  | bool
  | integer (bits : Nat) (signed : Bool)
  | size
  | float (width : FloatWidth)
  | pointer (target : TypeId)
  | nullPointer
  | array (element : TypeId) (dim : Nat)
  | function (ret : TypeId) (params : List TypeId) (variadic : Bool)
  | named (name : String) (target : TypeId)
  | const (ty : TypeId)
  | constRemoved (ty : TypeId)
  | bindArray (ty : TypeId) (dim : Nat)
  | incompleteStruct (name : String)
  | completeStruct (ty : TypeId) (names : List String) (types : List TypeId)
  | removeStruct (ty : TypeId)
  | implicitConvert (src dst : TypeId)
  | explicitCast (src dst : TypeId)
  | common (a b : TypeId)
  | equalsUnqualified (a b : TypeId)

namespace Op

/-- The types that an operation is given. -/
def types : Op → List TypeId
  | pointer ty | array ty _ | named _ ty | const ty | constRemoved ty | bindArray ty _ | removeStruct ty =>
    [ty]
  | function ret params _ => ret :: params
  | completeStruct ty _ types => ty :: types
  | implicitConvert a b | explicitCast a b | common a b | equalsUnqualified a b => [a, b]
  | void | bool | integer .. | size | float _ | nullPointer | incompleteStruct _ => []

/-- The table after an operation. -/
def apply (t : TypeTable) : Op → TypeTable
  | void => (TypeM.void t).2
  | bool => (TypeM.bool t).2
  | integer bits signed => (TypeM.integer bits signed t).2
  | size => (TypeM.size t).2
  | float width => (TypeM.float width t).2
  | pointer target => (TypeM.pointer target t).2
  | nullPointer => (TypeM.nullPointer t).2
  | array element dim => (TypeM.array element dim t).2
  | function ret params variadic => (TypeM.function ret params variadic t).2
  | named name target => (TypeM.named name target t).2
  | const ty => (TypeM.const ty t).2
  | constRemoved ty => (TypeM.constRemoved ty t).2
  | bindArray ty dim => (TypeM.bindArray ty dim t).2
  | incompleteStruct name => (TypeM.incompleteStruct name t).2
  | completeStruct ty names types => ((TypeM.completeStruct ty names types).run.run t).2
  | removeStruct ty => t.removeStruct ty
  | implicitConvert src dst => (TypeM.implicitConvert src dst t).2
  | explicitCast src dst => (TypeM.explicitCast src dst t).2
  | common a b => (TypeM.common a b t).2
  | equalsUnqualified a b => (TypeM.equalsUnqualified a b t).2

end Op

/-- One operation on types that have been issued. -/
def Operates (t t' : TypeTable) : Prop := ∃ op : Op, (∀ ty ∈ op.types, t.Has ty) ∧ op.apply t = t'

/-- Any number of operations. -/
abbrev Reaches : TypeTable → TypeTable → Prop := Relation.ReflTransGen Operates

variable {t t' : TypeTable} {ty : TypeId}

namespace Op

/-- Every operation of a sequence is given types that have been issued by then. -/
def Applies (t : TypeTable) : List Op → Prop
  | [] => True
  | op :: ops => (∀ ty ∈ op.types, t.Has ty) ∧ Applies (op.apply t) ops

instance decidableApplies : ∀ (t : TypeTable) (ops : List Op), Decidable (Applies t ops)
  | _, [] => .isTrue trivial
  | t, op :: ops =>
    have := decidableApplies (op.apply t) ops
    inferInstanceAs (Decidable ((∀ ty ∈ op.types, t.Has ty) ∧ Applies (op.apply t) ops))

theorem reaches_foldl {ops : List Op} {t : TypeTable} (h : Applies t ops) :
    Reaches t (ops.foldl Op.apply t) := by
  induction ops generalizing t with
  | nil => exact .refl
  | cons op ops ih => exact .head ⟨op, h.1, rfl⟩ (ih h.2)

end Op

/-- All operations but those on structs only add types. -/
theorem Op.additions_or (t : TypeTable) (op : Op) :
    Additions t (op.apply t) ∨ (∃ name, op = .incompleteStruct name) ∨
      (∃ ty names types, op = .completeStruct ty names types) ∨ ∃ ty, op = .removeStruct ty := by
  cases op with
  | void | bool | integer | size | float | pointer | nullPointer | array | function | named =>
    exact .inl (TypeM.intern_grows _ (by rintro _ ⟨⟩) t)
  | const | constRemoved => exact .inl (TypeM.withConst_grows _ _ t)
  | bindArray => exact .inl (TypeM.bindArray_grows _ _ t)
  | incompleteStruct name => exact .inr (.inl ⟨name, rfl⟩)
  | completeStruct ty names types => exact .inr (.inr (.inl ⟨ty, names, types, rfl⟩))
  | removeStruct ty => exact .inr (.inr (.inr ⟨ty, rfl⟩))
  | implicitConvert => exact .inl (TypeM.convert_grows _ _ _ t)
  | explicitCast => exact .inl (TypeM.explicitCast_grows _ _ t)
  | common => exact .inl (TypeM.common_grows _ _ t)
  | equalsUnqualified => exact .inl (TypeM.equalsUnqualified_grows _ _ t)

/-- A struct whose members are refused stays as it is. -/
theorem Op.apply_completeStruct (t : TypeTable) (ty : TypeId) (names : List String) (types : List TypeId) :
    (Op.completeStruct ty names types).apply t = t ∨
      t.completeStruct ty names types = .ok ((Op.completeStruct ty names types).apply t) := by
  obtain ⟨r, t', hends⟩ := Ends.exists_of_run (TypeM.completeStruct ty names types) t
  have happly : (Op.completeStruct ty names types).apply t = t' := congrArg Prod.snd hends
  rw [happly]
  rcases completeStruct_cases hends with ⟨e, -, rfl⟩ | ⟨id, -, -, rfl, -⟩
  · exact .inl rfl
  · exact .inr (completeStruct_eq_ok_iff.2 hends)

theorem Operates.steps (h : Operates t t') : Steps t t' := by
  obtain ⟨op, hhas, rfl⟩ := h
  rcases op.additions_or t with h | ⟨name, rfl⟩ | ⟨ty, names, types, rfl⟩ | ⟨ty, rfl⟩
  · exact h.steps
  · exact TypeM.incompleteStruct_steps name t
  · rcases Op.apply_completeStruct t ty names types with h | h
    · rw [h]
    · exact .single (.complete (fun ty hty => hhas ty (List.mem_cons_of_mem _ hty)) h)
  · exact .single (.remove ty)

theorem Reaches.steps (h : Reaches t t') : Steps t t' := by
  induction h with
  | refl => exact .refl
  | tail _ hop ih => exact ih.trans hop.steps

end TypeTable

namespace TypeM

open TypeTable

variable {t t' : TypeTable} {ty ty' : TypeId}

/-- A new struct has no type yet, so that one is entered for it. -/
theorem incompleteStruct_eq (h : t.Indexed) (name : String) :
    incompleteStruct name t = (⟨t.size⟩,
      TypeTable.push { t with structs := t.structs.push ⟨name, none, false⟩ } ⟨.struct ⟨t.structs.size⟩, false⟩) := by
  show intern (.struct ⟨t.structs.size⟩) false { t with structs := t.structs.push ⟨name, none, false⟩ } = _
  rcases intern_cases (.struct ⟨t.structs.size⟩) false { t with structs := t.structs.push ⟨name, none, false⟩ } with
    ⟨ty, hfound, -⟩ | ⟨-, h⟩
  · have hmade := h.made _ _ ⟨t.structs.size⟩ (h.found ⟨.struct ⟨t.structs.size⟩, false⟩ ty (.of_plain _) hfound) rfl
    exact absurd hmade (Nat.lt_irrefl _)
  · exact h

/-- A new struct gets a number that no struct had before. -/
theorem incompleteStruct_shape {name : String} (h : incompleteStruct name t = (ty, t')) (hi : t.Indexed) :
    t'.Has ty ∧ t'.shape ty = .struct ⟨t.structs.size⟩ ∧ t.structs.size < t'.structs.size := by
  cases (incompleteStruct_eq hi name).symm.trans h
  obtain ⟨hhas, hentry⟩ : TypeTable.Holds
      (.push { t with structs := t.structs.push ⟨name, none, false⟩ } ⟨.struct ⟨t.structs.size⟩, false⟩) ⟨t.size⟩
      ⟨.struct ⟨t.structs.size⟩, false⟩ := holds_of_parts Array.getElem?_push_size rfl
  refine ⟨hhas, ?_, by simp⟩
  rw [shape_of_not_named, hentry]
  rw [hentry]
  exact nofun

theorem incompleteStruct_canonical (hc : t.Canonical) (name : String) : (incompleteStruct name t).2.Canonical := by
  have hdeclared := hc.mono (Step.declare name).le hc.ordered
  have hintern : intern (.struct ⟨t.structs.size⟩) false _ = incompleteStruct name t := rfl
  refine (intern_plain hintern hdeclared nofun nofun fun id hid => .inl ?_).1
  cases hid
  simp

end TypeM

namespace TypeTable

variable {t t' : TypeTable} {ty : TypeId}

/-! ### The invariant -/

theorem Canonical.operates (hc : t.Canonical) (h : Operates t t') : t'.Canonical := by
  have hsteps := h.steps
  obtain ⟨op, hhas, rfl⟩ := h
  cases op with
  | void | bool | integer | size | float | pointer | nullPointer | array | function | named =>
    exact TypeM.intern_canonical hc hhas
  | const ty | constRemoved ty => exact (TypeM.withConst_keeps t ty _ le_rfl hc).1
  | bindArray ty dim => exact (TypeM.bindArray_keeps t ty dim le_rfl hc).1
  | incompleteStruct name => exact TypeM.incompleteStruct_canonical hc name
  | completeStruct ty names types =>
    rcases Op.apply_completeStruct t ty names types with h | h
    · rwa [h]
    · exact hc.of_entries hsteps.le (entries_completeStruct h)
  | removeStruct ty => exact hc.of_entries hsteps.le (entries_removeStruct t ty)
  | implicitConvert a b => exact (TypeM.convert_keeps t false a b le_rfl hc).1
  | explicitCast a b =>
    exact (TypeM.explicitCast_yields (hhas a (by simp [Op.types])) (hhas b (by simp [Op.types])) le_rfl hc).1
  | common a b =>
    exact (TypeM.common_yields (hhas a (by simp [Op.types])) (hhas b (by simp [Op.types])) le_rfl hc).1
  | equalsUnqualified a b => exact (TypeM.equalsUnqualified_keeps t a b le_rfl hc).1

theorem Canonical.reaches (hc : t.Canonical) (h : Reaches t t') : t'.Canonical := by
  induction h with
  | refl => exact hc
  | tail _ hop ih => exact ih.operates hop

theorem Reaches.canonical {sizeBits : Nat} (h : Reaches (.empty sizeBits) t) : t.Canonical :=
  (canonical_empty sizeBits).reaches h

theorem Canonical.getElem?_entries (hc : t.Canonical) (h : t.Has ty) : t.entries[ty.index]? = some (t.entry ty) := by
  obtain ⟨e, he⟩ := has_iff.1 h
  rw [he, hc.ordered.entry_eq he]

/-- Two types with one entry are types of a removed struct. -/
theorem Canonical.eq_or_retired (hc : t.Canonical) {a b : TypeId} (ha : t.Has a) (hb : t.Has b)
    (h : t.entry a = t.entry b) : a = b ∨ t.Retired (t.entry a) := by
  have hb' := hc.getElem?_entries hb
  rw [← h] at hb'
  refine (hc.unique (hc.getElem?_entries ha) hb').imp_left fun hab => ?_
  cases a
  cases b
  exact congrArg TypeId.mk hab

/-! ### Types with a const flag -/

/-- In a canonical table a spelling belongs to one type. -/
theorem Spelled.unique {base : TypeId} (hc : t.Canonical) :
    ∀ {names : List String} {a b : TypeId}, t.Spelled names base a → t.Spelled names base b → a = b
  | [], _, _, rfl, rfl => rfl
  | name :: names, a, b, ⟨x, ha, hx⟩, ⟨y, hb, hy⟩ => by
    obtain rfl := unique hc hx hy
    have hab : t.entry a = t.entry b := ha.entry_eq.trans hb.entry_eq.symm
    rcases hc.eq_or_retired ha.has hb.has hab with hab | ⟨id, hs, -⟩
    · exact hab
    · rw [ha.entry_eq] at hs
      cases hs

/-- A type with a const flag is one type, unless it is a removed struct. -/
theorem Qualified.unique {isConst : Bool} {a b : TypeId} (hc : t.Canonical)
    (hty : ∀ id, t.shape ty = .struct id → ¬ t.Removed id) (ha : t.Qualified ty isConst a)
    (hb : t.Qualified ty isConst b) : a = b := by
  obtain ⟨x, hx, ha⟩ := ha
  obtain ⟨y, hy, hb⟩ := hb
  have hxy : t.entry x = t.entry y := hx.entry_eq.trans hy.entry_eq.symm
  rcases hc.eq_or_retired hx.has hy.has hxy with rfl | ⟨id, hs, hr⟩
  · exact ha.unique hc hb
  · rw [hx.entry_eq] at hs
    exact absurd hr (hty id hs)

/-! ### Equality of types of the same shape -/

theorem entry_unalias (t : TypeTable) (ty : TypeId) :
    t.entry (t.unalias ty) = ⟨t.shape ty, t.isConst ty⟩ := rfl

theorem Canonical.equals_of_shape (hc : t.Canonical) {a b : TypeId} (ha : t.Has a) (hb : t.Has b)
    (hshape : t.shape a = t.shape b) (hconst : t.isConst a = t.isConst b) : t.equals a b = true := by
  have hentry : t.entry (t.unalias a) = t.entry (t.unalias b) := by
    rw [t.entry_unalias, t.entry_unalias, hshape, hconst]
  rw [equals_eq]
  rcases hc.eq_or_retired ha.unalias hb.unalias hentry with hu | ⟨id, hs, -⟩
  · rw [if_pos hu]
  · -- types of a removed struct are equal though they stand apart
    replace hs : t.shape a = .struct id := hs
    simp [← hshape, hs, hconst, Shape.sameParts]

/-! ### The laws of const flags -/

/-- On the way to `t`, `op` was asked for the type `ty` and gave `ty'`. -/
def Answered (t : TypeTable) (op : TypeId → TypeM TypeId) (ty ty' : TypeId) : Prop :=
  ∃ sizeBits t₀ t₁, Reaches (.empty sizeBits) t₀ ∧ t₀.Has ty ∧ op ty t₀ = (ty', t₁) ∧ Reaches t₁ t

/-- How setting and removing the const flag of `ty` act on each other, up to `Same`. The answers may
have been given in any order and at any time. -/
structure ConstLaws (t : TypeTable) (ty : TypeId) (Same : TypeId → TypeId → Prop) : Prop where
  const_constRemoved : ∀ u a b, t.Answered TypeM.constRemoved ty u → t.Answered TypeM.const u a →
    t.Answered TypeM.const ty b → Same a b
  constRemoved_const : ∀ u a b, t.Answered TypeM.const ty u → t.Answered TypeM.constRemoved u a →
    t.Answered TypeM.constRemoved ty b → Same a b
  const_const : ∀ u a, t.Answered TypeM.const ty u → t.Answered TypeM.const u a → Same a u
  constRemoved_constRemoved : ∀ u a, t.Answered TypeM.constRemoved ty u →
    t.Answered TypeM.constRemoved u a → Same a u
  const_ne : ∀ a b, t.Answered TypeM.const ty a → t.Answered TypeM.constRemoved ty b → ¬ Same a b

theorem Answered.qualified {isConst : Bool} {ty' : TypeId}
    (h : t.Answered (TypeM.withConst · isConst) ty ty') : t.Qualified ty isConst ty' := by
  obtain ⟨sizeBits, t₀, t₁, hbuilt, hty, hop, hreach⟩ := h
  have hle := (TypeM.withConst_grows ty isConst).le hop
  exact (TypeM.withConst_qualified hop hbuilt.canonical hty).2.mono (hty.mono hle) hreach.steps.le

/-- The laws hold up to a relation that relates the types that differ in nothing, and no types with
different flags. -/
theorem constLaws {Same : TypeId → TypeId → Prop}
    (hsame : ∀ c a b, t.Qualified ty c a → t.Qualified ty c b → Same a b)
    (hflag : ∀ a b, Same a b → t.isConst a = t.isConst b) : t.ConstLaws ty Same where
  const_constRemoved u a b hu ha hb := hsame true a b (hu.qualified.trans ha.qualified) hb.qualified
  constRemoved_const u a b hu ha hb := hsame false a b (hu.qualified.trans ha.qualified) hb.qualified
  const_const u a hu ha := hsame true a u (hu.qualified.trans ha.qualified) hu.qualified
  constRemoved_constRemoved u a hu ha := hsame false a u (hu.qualified.trans ha.qualified) hu.qualified
  const_ne a b ha hb h := by
    have hconst := hflag a b h
    rw [ha.qualified.spelling.2.1, hb.qualified.spelling.2.1] at hconst
    cases hconst

theorem not_removed_of_isRemoved (h : t.isRemoved ty = false) :
    ∀ id, t.shape ty = .struct id → ¬ t.Removed id := by
  intro id hs hr
  rw [Removed] at hr
  simp [isRemoved, structId?, hs, hr] at h

theorem Canonical.constLaws_eq (hc : t.Canonical) (hty : t.isRemoved ty = false) :
    t.ConstLaws ty (· = ·) :=
  constLaws (fun _ _ _ ha hb => ha.unique hc (not_removed_of_isRemoved hty) hb)
    fun _ _ h => congrArg t.isConst h

theorem Canonical.constLaws_equals (hc : t.Canonical) :
    t.ConstLaws ty fun a b => t.equals a b = true := by
  refine constLaws (fun c a b ha hb => ?_) fun _ _ => isConst_of_equals
  obtain ⟨hshape, hconst, -⟩ := ha.spelling
  obtain ⟨hshape', hconst', -⟩ := hb.spelling
  exact hc.equals_of_shape ha.has hb.has (hshape.trans hshape'.symm) (hconst.trans hconst'.symm)

/-- The struct that a type was made for, and no struct that is made later. -/
theorem structId?_ne_of_reaches {name name' : String} {ty ty' : TypeId} {t₀ t₁ t₂ t₃ : TypeTable}
    (hi : t₀.Indexed) (h : TypeM.incompleteStruct name t₀ = (ty, t₁)) (h₁ : Reaches t₁ t₂)
    (h' : TypeM.incompleteStruct name' t₂ = (ty', t₃)) (h₃ : Reaches t₃ t) :
    ∃ id id', t.structId? ty = some id ∧ t.structId? ty' = some id' ∧ id ≠ id' := by
  obtain ⟨hty, hshape, hlt⟩ := TypeM.incompleteStruct_shape h hi
  have hi₂ : t₂.Indexed := (hi.steps (TypeM.incompleteStruct_le h)).steps h₁.steps
  obtain ⟨hty', hshape', -⟩ := TypeM.incompleteStruct_shape h' hi₂
  have hle := h₁.steps.structs_le
  have hgrown : t₁ ≤ t := (h₁.steps.le.trans (TypeM.incompleteStruct_le h')).trans h₃.steps.le
  refine ⟨⟨t₀.structs.size⟩, ⟨t₂.structs.size⟩, ?_, ?_, ?_⟩
  · rw [structId?, hty.shape_eq hgrown, hshape]
  · rw [structId?, hty'.shape_eq h₃.steps.le, hshape']
  · intro heq
    have := congrArg StructId.index heq
    simp only at this
    omega

end TypeTable

open TypeTable

/-- In every table that is built from nothing: the parts of an entry come before it, so that every entry is read as
it stands; what a map gives has the entry that was asked for, and every entry is given by its map, so that none
stands twice, unless it is that of a removed struct; no struct gets the number of another; and setting and removing
const flags obey their laws, for removed structs up to equality of types. -/
theorem interning_canonical {sizeBits : Nat} {t : TypeTable} (h : Reaches (.empty sizeBits) t) :
    (∀ (i : Nat) e, t.entries[i]? = some e → ∀ p ∈ e.shape.parts, p.index < i) ∧
    (∀ ty e, t.entries[ty.index]? = some e → t.entry ty = e) ∧
    (∀ e ty, e.Proper → t.find? e = some ty → t.entries[ty.index]? = some e) ∧
    (∀ (i : Nat) e, t.entries[i]? = some e → t.find? e = some ⟨i⟩ ∨ t.Retired e) ∧
    (∀ (i j : Nat) e, t.entries[i]? = some e → t.entries[j]? = some e → i = j ∨ t.Retired e) ∧
    (∀ name name' ty ty' t₀ t₁ t₂ t₃, Reaches (.empty sizeBits) t₀ → TypeM.incompleteStruct name t₀ = (ty, t₁) →
      Reaches t₁ t₂ → TypeM.incompleteStruct name' t₂ = (ty', t₃) → Reaches t₃ t →
      ∃ id id', t.structId? ty = some id ∧ t.structId? ty' = some id' ∧ id ≠ id') ∧
    ∀ ty, (t.isRemoved ty = false → t.ConstLaws ty (· = ·)) ∧
      t.ConstLaws ty fun a b => t.equals a b = true := by
  have hc := h.canonical
  refine ⟨hc.ordered, fun ty e => hc.ordered.entry_eq, hc.found, hc.listed, fun i j e => hc.unique, ?_,
    fun ty => ⟨hc.constLaws_eq, hc.constLaws_equals⟩⟩
  intro name name' ty ty' t₀ t₁ t₂ t₃ h₀ h₁ h₂ h₃ h₄
  exact structId?_ne_of_reaches h₀.canonical.toIndexed h₁ h₂ h₃ h₄

/-! ### A table with a removed struct -/

namespace Interned

/-- A struct with a name, const and not, and const pointers to it. When the scope of the struct is
closed, it is entered once more. -/
def ops : List Op :=
  [.incompleteStruct "S", .named "N" ⟨0⟩, .const ⟨1⟩, .pointer ⟨3⟩, .removeStruct ⟨0⟩, .constRemoved ⟨2⟩,
    .const ⟨4⟩, .named "P" ⟨6⟩, .constRemoved ⟨7⟩, .const ⟨8⟩]

def table : TypeTable := (ops.foldl Op.apply (.empty 64))

theorem reaches : Reaches (.empty 64) table := Op.reaches_foldl (by decide +kernel)

end Interned

/-- Type 0 is that of the struct, and type 5 the one that is entered when the scope of the struct is closed. -/
theorem interned_canonical :
    Reaches (.empty 64) Interned.table ∧
    Interned.table.isRemoved ⟨0⟩ = true ∧ Interned.table.entry ⟨0⟩ = Interned.table.entry ⟨5⟩ ∧
    Interned.table.find? (Interned.table.entry ⟨0⟩) = some ⟨5⟩ ∧
    (∀ (i : Nat) e, Interned.table.entries[i]? = some e → ∀ p ∈ e.shape.parts, p.index < i) ∧
    (∀ (i : Nat) e, Interned.table.entries[i]? = some e →
      Interned.table.find? e = some ⟨i⟩ ∨ Interned.table.Retired e) ∧
    Interned.table.isRemoved ⟨7⟩ = false ∧ Interned.table.ConstLaws ⟨7⟩ (· = ·) ∧
    Interned.table.ConstLaws ⟨0⟩ fun a b => Interned.table.equals a b = true := by
  have hremoved : Interned.table.isRemoved ⟨7⟩ = false := by decide +kernel
  obtain ⟨hordered, -, -, hlisted, -, -, hlaws⟩ := interning_canonical Interned.reaches
  exact ⟨Interned.reaches, by decide +kernel, by decide +kernel, by decide +kernel, hordered, hlisted, hremoved,
    (hlaws _).1 hremoved, (hlaws _).2⟩

end TypedCore
