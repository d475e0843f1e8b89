import TypedCore.Proofs.Types.Trees

/-!
# Types are immutable

Once a type is issued nothing about it changes: neither its kind and flags, nor how it is written, what it
stands for and which struct it is. Conversions and common types only depend on what types stand for, so
that they come out the same whenever they are asked for.
-/

namespace TypedCore

/-- The text of a shape, from those of its parts, of the const flags and of the names of structs. -/
def Shape.written (name : TypeId → String) (isConst : TypeId → Bool) (structName : StructId → String) (c : Bool) :
    Shape → String
  | .named name target => (if isConst target then "const " else "") ++ name
  | .void => (if c then "const " else "") ++ "void"
  | .bool => (if c then "const " else "") ++ "bool"
  | .integer bits signed => (if c then "const " else "") ++ (if signed then "i" else "u") ++ toString bits
  | .float width => (if c then "const " else "") ++ "f" ++ toString width.bits
  | .pointer none => (if c then "const " else "") ++ "nullptr_t"
  | .pointer (some target) => name target ++ "*" ++ if c then " const" else ""
  | .array element dim => (if c then "const " else "") ++ name element ++ if dim = 0 then "[]" else s!"[{dim}]"
  | .function ret params variadic =>
    (if c then "const " else "") ++ "fn(" ++
      ", ".intercalate (params.map name ++ if variadic then ["..."] else []) ++ "): " ++ name ret
  | .struct id => (if c then "const " else "") ++ "struct " ++ structName id

theorem Shape.written_congr {name name' : TypeId → String} {isConst isConst' : TypeId → Bool}
    {structName structName' : StructId → String} {c : Bool} {s : Shape} (hname : ∀ p ∈ s.parts, name p = name' p)
    (hconst : ∀ p ∈ s.parts, isConst p = isConst' p) (hstruct : ∀ id, s = .struct id → structName id = structName' id) :
    written name isConst structName c s = written name' isConst' structName' c s := by
  cases s with
  | named _ target => simp only [written, hconst target (by simp [Shape.parts])]
  | pointer target? =>
    cases target? with
    | none => rfl
    | some target => simp only [written, hname target (by simp [Shape.parts])]
  | array element _ => simp only [written, hname element (by simp [Shape.parts])]
  | function ret params _ =>
    have hparams : params.map name = params.map name' :=
      List.map_congr_left fun p hp => hname p (by simp [Shape.parts, hp])
    simp only [written, hparams, hname ret (by simp [Shape.parts])]
  | struct id => simp only [written, hstruct id rfl]
  | _ => rfl

namespace TypeTable

variable {t t' : TypeTable} {ty : TypeId} {id : StructId}

/-! ### Structs keep their names -/

theorem struct_declare (t : TypeTable) (name : String) (h : id.index < t.structs.size) :
    struct { t with structs := t.structs.push ⟨name, none, false⟩ } id = t.struct id := by
  rw [struct, struct, Array.getElem?_push_lt h, Array.getElem?_eq_getElem h]

theorem Step.structName_eq (hstep : Step t t') (h : id.index < t.structs.size) :
    (t'.struct id).name = (t.struct id).name := by
  cases hstep with
  | enter => rw [struct_push]
  | declare name => rw [struct_declare t name h]
  | complete _ hcomplete =>
    obtain ⟨id', -, -, rfl⟩ := completeStruct_ok hcomplete
    rcases t.struct_modifyStruct id' id _ with hs | ⟨-, hs⟩
    · rw [hs]
    · rw [hs]
  | remove ty => exact (t.struct_removeStruct ty id).1

theorem structName_of_le (ht : t ≤ t') (h : id.index < t.structs.size) :
    (t'.struct id).name = (t.struct id).name := by
  replace ht : Steps t t' := ht
  induction ht with
  | refl => rfl
  | tail hsteps hstep ih => exact (hstep.structName_eq (Nat.lt_of_lt_of_le h (Steps.structs_le hsteps))).trans ih

/-! ### Structs that have been made -/

/-- A type that is a struct is one that has been made. -/
def Issued (t : TypeTable) : Prop := ∀ ty id, (t.entry ty).shape = .struct id → id.index < t.structs.size

theorem Indexed.issued (h : t.Indexed) : t.Issued := fun ty _ hs => h.lt_of_knows (.inr ⟨ty, hs⟩)

/-! ### How a type is written -/

theorem name_eq (t : TypeTable) (ty : TypeId) : t.name ty =
    Shape.written t.name t.isConst (fun id => (t.struct id).name) (t.entry ty).isConst (t.entry ty).shape := by
  rw [name]
  split <;> simp_all [Shape.written]

theorem Has.name_eq (hty : t.Has ty) (hissued : t.Issued) (ht : t ≤ t') : t'.name ty = t.name ty := by
  induction hn : ty.index using Nat.strongRecOn generalizing ty with
  | ind n ih =>
    subst hn
    have hpart {p : TypeId} (hp : p ∈ (t.entry ty).shape.parts) : t.Has p := Nat.lt_trans (t.part_lt hp) hty
    rw [t.name_eq, t'.name_eq, hty.entry_eq ht]
    refine Shape.written_congr (fun p hp => ?_) (fun p hp => (hpart hp).isConst_eq ht) fun id hs => ?_
    · exact ih p.index (t.part_lt hp) (hpart hp) rfl
    · exact structName_of_le ht (hissued ty id hs)

theorem Has.structId?_eq (hty : t.Has ty) (ht : t ≤ t') : t'.structId? ty = t.structId? ty := by
  rw [structId?, structId?, hty.shape_eq ht]

theorem Has.structName?_eq (hty : t.Has ty) (hissued : t.Issued) (ht : t ≤ t') :
    t'.structName? ty = t.structName? ty := by
  rw [structName?, structName?, hty.structId?_eq ht, structId?]
  cases hs : t.shape ty with
  | struct id => exact congrArg some (structName_of_le ht (hissued _ id hs))
  | _ => rfl

/-! ### Questions and answers -/

/-- Nothing about a type has changed. -/
structure Unchanged (t t' : TypeTable) (ty : TypeId) : Prop where
  has : t'.Has ty
  kind : t'.shape ty = t.shape ty
  isConst : t'.isConst ty = t.isConst ty
  name : t'.name ty = t.name ty
  /-- what a name stands for, and the names on the way to it -/
  unalias : t'.unalias ty = t.unalias ty
  aliasNames : t'.aliasNames ty = t.aliasNames ty
  structId? : t'.structId? ty = t.structId? ty
  structName? : t'.structName? ty = t.structName? ty

/-- What `ask` is about can be answered by one `x`, in both tables. -/
def SameAnswer {α β : Type} (t t' : TypeTable) (ask : TypeM α) (Answers : β → α → TypeTable → Prop) : Prop :=
  ∃ x, Answers x (ask t).1 (ask t).2 ∧ Answers x (ask t').1 (ask t').2

theorem unchanged_of_le (hissued : t.Issued) (hty : t.Has ty) (ht : t ≤ t') : Unchanged t t' ty where
  has := hty.mono ht
  kind := hty.shape_eq ht
  isConst := hty.isConst_eq ht
  name := hty.name_eq hissued ht
  unalias := hty.unalias_eq ht
  aliasNames := hty.aliasNames_eq ht
  structId? := hty.structId?_eq ht
  structName? := hty.structName?_eq hissued ht

theorem sameAnswer_of_yields {α β : Type} {ask : TypeM α} {Answers : β → α → TypeTable → Prop} {x : β}
    (h : TypeM.Yields t ask (Answers x)) (ht : t ≤ t') (hc : t.Canonical) (hc' : t'.Canonical) :
    t.SameAnswer t' ask Answers :=
  ⟨x, (h le_rfl hc).2, (h ht hc').2⟩

end TypeTable

open TypeTable

/-- Whatever is done to a table, the types that it has issued stay what they are and are equal if they were equal.
Conversions, casts and common types of two of them have the same outcome before and after, with the same
loss of const flags, and end at the same type. -/
theorem issued_types_immutable {sizeBits : Nat} {t t' : TypeTable} (h : TypeTable.Reaches (.empty sizeBits) t)
    (h' : TypeTable.Reaches t t') :
    (∀ ty, t.Has ty → Unchanged t t' ty) ∧
    ∀ a b, t.Has a → t.Has b →
      t'.equals a b = t.equals a b ∧
      (TypeM.equalsUnqualified a b t').1 = (TypeM.equalsUnqualified a b t).1 ∧
      t.SameAnswer t' (TypeM.implicitConvert a b) TypeM.Denotes ∧
      t.SameAnswer t' (TypeM.explicitCast a b) TypeM.Denotes ∧
      t.SameAnswer t' (TypeM.common a b) TypeM.Unfolds := by
  have ht := h'.steps.le
  have hc := h.canonical
  have hc' := hc.reaches h'
  refine ⟨fun ty hty => unchanged_of_le hc.issued hty ht, fun a b ha hb => ⟨ha.equals_eq hb ht, ?_, ?_, ?_, ?_⟩⟩
  · have hsame := TypeM.equalsUnqualified_tree ha hb
    exact Bool.eq_iff_iff.2 ((hsame ht hc').2.trans (hsame le_rfl hc).2.symm)
  · exact sameAnswer_of_yields (TypeM.convert_tree false ha hb) ht hc hc'
  · exact sameAnswer_of_yields (TypeM.explicitCast_tree ha hb) ht hc hc'
  · exact sameAnswer_of_yields (TypeM.common_tree ha hb) ht hc hc'

namespace Aged

/-- An array of pointers to const numbers, one without bound under a name, and a const struct. -/
def ops : List Op :=
  [.integer 32 true, .const ⟨0⟩, .pointer ⟨1⟩, .array ⟨2⟩ 2, .pointer ⟨0⟩, .array ⟨4⟩ 0, .named "List" ⟨5⟩,
    .incompleteStruct "S", .const ⟨7⟩]

def table : TypeTable := ops.foldl Op.apply (.empty 64)

/-- The struct gets its members, its scope is closed, and types of it are entered again. -/
def laterOps : List Op :=
  [.implicitConvert ⟨3⟩ ⟨6⟩, .completeStruct ⟨7⟩ ["n"] [⟨0⟩], .removeStruct ⟨7⟩, .constRemoved ⟨8⟩, .common ⟨2⟩ ⟨4⟩]

def later : TypeTable := laterOps.foldl Op.apply table

theorem reaches : TypeTable.Reaches (.empty 64) table := Op.reaches_foldl (by decide +kernel)

theorem reaches_later : TypeTable.Reaches table later := Op.reaches_foldl (by decide +kernel)

end Aged

open Aged in
/-- The conversion gives the array a bound and loses a const flag, before and after. -/
theorem aged_types_immutable :
    (TypeTable.Reaches (.empty 64) table ∧ TypeTable.Reaches table later ∧
      later.isRemoved ⟨8⟩ = true ∧ table.isRemoved ⟨8⟩ = false ∧
      (TypeM.implicitConvert ⟨3⟩ ⟨6⟩ table).1.map (·.discardsConst) = some true) ∧
    Unchanged table later ⟨8⟩ ∧ later.name ⟨8⟩ = "const struct S" ∧
    later.equals ⟨3⟩ ⟨6⟩ = table.equals ⟨3⟩ ⟨6⟩ ∧
    table.SameAnswer later (TypeM.implicitConvert ⟨3⟩ ⟨6⟩) TypeM.Denotes ∧
    table.SameAnswer later (TypeM.common ⟨3⟩ ⟨6⟩) TypeM.Unfolds := by
  have hhas : ∀ i < 9, table.Has ⟨i⟩ := by decide +kernel
  obtain ⟨htypes, hpairs⟩ := issued_types_immutable reaches reaches_later
  obtain ⟨hequals, -, hconvert, -, hcommon⟩ := hpairs ⟨3⟩ ⟨6⟩ (hhas 3 (by omega)) (hhas 6 (by omega))
  exact ⟨⟨reaches, reaches_later, by decide +kernel, by decide +kernel, by decide +kernel⟩,
    htypes ⟨8⟩ (hhas 8 (by omega)), by decide +kernel, hequals, hconvert, hcommon⟩

end TypedCore
