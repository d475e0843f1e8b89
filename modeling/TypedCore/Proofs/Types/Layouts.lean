import Mathlib.Data.List.Forall2
import TypedCore.Proofs.Types.Immutability
import TypedCore.Proofs.Types.Transparency
import TypedCore.Proofs.Typing.Constructors

/-!
# Layouts

A type that has a layout keeps it, whatever is done to the table. All structs within a layout are the layouts of
struct types (`layout_describes`), and these are told apart by their names: two struct types have one name if and
only if they are the same struct (`layoutName?_inj`).
-/

namespace TypedCore

namespace Ir.Ty

/-- Objects of the type hold one of type `x`: they are one, or an element or a field of theirs holds it. -/
inductive Within (x : Ty) : Ty → Prop
  | self : Within x x
  | element {n : Nat} {element : Ty} (h : Within x element) : Within x (.array n element)
  | field {name : Option String} {fields : List Ty} {field : Ty} (hf : field ∈ fields) (h : Within x field) :
      Within x (.struct name fields)

/-- Neither an array nor a struct. -/
def isFlat : Ty → Bool
  | .array .. | .struct .. => false
  | _ => true

theorem Within.eq_of_isFlat {x ty : Ty} (h : x.Within ty) (hflat : ty.isFlat = true) : x = ty := by
  cases h with
  | self => rfl
  | element h => cases hflat
  | field hf h => cases hflat

end Ir.Ty

theorem except_map_ok {ε α β : Type} {x : Except ε α} {f : α → β} {b : β} :
    f <$> x = .ok b ↔ ∃ a, x = .ok a ∧ f a = b := by
  cases x with
  | error e => exact ⟨nofun, fun ⟨_, h, _⟩ => nomatch h⟩
  | ok a => exact ⟨fun h => ⟨a, rfl, Except.ok.inj h⟩, fun ⟨_, h, hb⟩ => Except.ok.inj h ▸ hb ▸ rfl⟩

theorem mapM_ok_iff {ε α β : Type} {f : α → Except ε β} {xs : List α} {ys : List β} :
    xs.mapM f = .ok ys ↔ List.Forall₂ (fun x y => f x = .ok y) xs ys := by
  induction xs generalizing ys with
  | nil =>
    rw [List.mapM_nil, List.forall₂_nil_left_iff]
    exact ⟨fun h => (Except.ok.inj h).symm, fun h => h ▸ rfl⟩
  | cons x xs ih =>
    simp only [List.mapM_cons, except_bind_ok, ih, List.forall₂_cons_left_iff]
    constructor
    · rintro ⟨y, hy, ys', hys, h⟩
      exact ⟨y, ys', hy, hys, (Except.ok.inj h).symm⟩
    · rintro ⟨y, ys', hy, hys, rfl⟩
      exact ⟨y, hy, ys', hys, rfl⟩

theorem exists_of_forall₂ {α β : Type} {R : α → β → Prop} {xs : List α} {ys : List β} (h : List.Forall₂ R xs ys)
    {y : β} (hy : y ∈ ys) : ∃ x, R x y := by
  induction h with
  | nil => cases hy
  | cons hxy _ ih =>
    rcases List.mem_cons.1 hy with rfl | hy
    · exact ⟨_, hxy⟩
    · exact ih hy

namespace TypeTable

variable {t t' : TypeTable} {ty a b : TypeId} {ir : Ir.Ty}

theorem isStruct_iff : t.isStruct ty = true ↔ ∃ id, t.shape ty = .struct id := by
  unfold isStruct
  cases t.shape ty <;> simp

/-! ### Names -/

theorem layoutName?_of_shape {id : StructId} (h : t.shape ty = .struct id) :
    t.layoutName? ty = some ((t.struct id).name ++ "." ++ toString id.index) := by
  simp only [layoutName?, structName?, structId?, h]
  rfl

/-- What follows the last dot is the same. -/
theorem eq_of_append_dot {p q xs ys : List Char} (h : p ++ '.' :: xs = q ++ '.' :: ys) (hxs : '.' ∉ xs)
    (hys : '.' ∉ ys) : xs = ys := by
  obtain ⟨r, -, hr⟩ | ⟨r, -, hr⟩ := List.append_eq_append_iff.1 h
  · cases r with
    | nil => exact (List.cons.inj hr).2
    | cons c r =>
      rw [(List.cons.inj hr).2] at hxs
      exact absurd (by simp) hxs
  · cases r with
    | nil => exact (List.cons.inj hr).2.symm
    | cons c r =>
      rw [(List.cons.inj hr).2] at hys
      exact absurd (by simp) hys

theorem eq_of_numbered {p q : String} {m n : Nat} (h : p ++ "." ++ toString m = q ++ "." ++ toString n) : m = n := by
  have hdot (n : Nat) : '.' ∉ Nat.toDigits 10 n := fun hmem =>
    Bool.noConfusion (Nat.isDigit_of_mem_toDigits (by omega) (by omega) hmem : '.'.isDigit = true)
  have hchars := congrArg String.toList h
  simp only [Nat.toString_eq_ofList_toDigits, String.toList_append, String.toList_ofList, List.append_assoc] at hchars
  have hdigits := eq_of_append_dot hchars (hdot m) (hdot n)
  simpa using congrArg (fun ds => Nat.ofDigitChars 10 ds 0) hdigits

/-- The name of a struct in layouts tells which one it is, whatever it is called. -/
theorem layoutName?_inj (ha : t.isStruct a = true) (hb : t.isStruct b = true) :
    t.layoutName? a = t.layoutName? b ↔ t.structId? a = t.structId? b := by
  obtain ⟨i, hi⟩ := isStruct_iff.1 ha
  obtain ⟨j, hj⟩ := isStruct_iff.1 hb
  simp only [structId?, hi, hj, Option.some.injEq]
  constructor
  · intro h
    rw [layoutName?_of_shape hi, layoutName?_of_shape hj, Option.some.injEq] at h
    exact congrArg StructId.mk (eq_of_numbered h)
  · rintro rfl
    exact layoutName?_congr hi hj

/-! ### Layouts stay -/

theorem Has.layoutName?_eq (hty : t.Has ty) (hissued : t.Issued) (ht : t ≤ t') :
    t'.layoutName? ty = t.layoutName? ty := by
  rw [layoutName?, layoutName?, hty.structId?_eq ht, hty.structName?_eq hissued ht]

theorem layoutWith_mono {struct struct' : TypeId → StructId → Except Fault Ir.Ty} (hissued : t.Issued) (ht : t ≤ t')
    (hstruct : ∀ ty id ir, t.Has ty → struct ty id = .ok ir → struct' ty id = .ok ir) (hty : t.Has ty)
    (h : t.layoutWith struct ty = .ok ir) : t'.layoutWith struct' ty = .ok ir := by
  induction ty using t.parts_induction generalizing ir with
  | step ty ih =>
    have hpart : ∀ p ∈ (t.shape ty).parts, ∀ ir, t.layoutWith struct p = .ok ir → t'.layoutWith struct' p = .ok ir :=
      fun p hp ir h => ih p hp (hty.part hp) h
    rw [layoutWith_eq] at h ⊢
    rw [hty.shape_eq ht]
    cases hs : t.shape ty with
    | pointer target? =>
      cases target? with
      | none => simpa only [hs] using h
      | some target =>
        have hmem : target ∈ (t.shape ty).parts := by simp [hs, Shape.parts]
        have htarget := hty.part hmem
        simp only [hs] at h ⊢
        rw [htarget.shape_eq ht]
        cases htshape : t.shape target with
        | void => simpa only [htshape] using h
        | struct id =>
          simp only [htshape] at h ⊢
          rw [htarget.layoutName?_eq hissued ht, h]
        | _ =>
          simp only [htshape, except_map_ok] at h ⊢
          obtain ⟨ir, hir, rfl⟩ := h
          exact ⟨ir, hpart target hmem ir hir, rfl⟩
    | array element dim =>
      simp only [hs, except_map_ok] at h ⊢
      obtain ⟨ir, hir, rfl⟩ := h
      exact ⟨ir, hpart element (by simp [hs, Shape.parts]) ir hir, rfl⟩
    | function ret params variadic =>
      simp only [hs, except_bind_ok, mapM_ok_iff] at h ⊢
      obtain ⟨r, hr, ps, hps, h⟩ := h
      refine ⟨r, hpart ret (by simp [hs, Shape.parts]) r hr, ps, ?_, h⟩
      refine ((List.forall₂_and_left _ _).2 ⟨fun p hp => hp, hps⟩).imp fun p ir hp => ?_
      exact hpart p (by simp [hs, Shape.parts, hp.1]) ir hp.2
    | struct id =>
      simp only [hs] at h ⊢
      exact hstruct ty id ir hty h
    | named name target => exact absurd hs (t.shape_ne_named ty name target)
    | float width =>
      rw [hs] at h
      cases width <;> exact h
    | _ => simpa only [hs] using h

theorem exists_layoutWithin (t : TypeTable) (depth : Nat) : ∃ struct, t.layoutWithin depth = t.layoutWith struct := by
  cases depth <;> exact ⟨_, rfl⟩

/-- The layout of a struct has the layouts of its members. -/
theorem layoutWithin_struct_ok {depth : Nat} {id : StructId} (hs : t.shape ty = .struct id) :
    t.layoutWithin depth ty = .ok ir ↔ ∃ d ms fields, depth = d + 1 ∧ (t.struct id).members = some ms ∧
      List.Forall₂ (fun m field => t.layoutWithin d m.ty = .ok field) ms fields ∧
      ir = .struct (t.layoutName? ty) fields := by
  cases depth with
  | zero =>
    rw [layoutWithin, layoutWith_eq, hs]
    simp
  | succ depth =>
    rw [layoutWithin, layoutWith_eq, hs]
    cases hms : (t.struct id).members with
    | none => simp [hms]
    | some ms =>
      simp only [hms, except_bind_ok, mapM_ok_iff]
      constructor
      · rintro ⟨fields, hfields, h⟩
        exact ⟨depth, ms, fields, rfl, rfl, hfields, (Except.ok.inj h).symm⟩
      · rintro ⟨_, _, fields, ⟨⟩, ⟨⟩, hfields, rfl⟩
        exact ⟨fields, hfields, rfl⟩

theorem layoutWithin_mono (hclosed : t.Closed) (hissued : t.Issued) (ht : t ≤ t') {depth depth' : Nat}
    (hdepth : depth ≤ depth') (hty : t.Has ty) (h : t.layoutWithin depth ty = .ok ir) :
    t'.layoutWithin depth' ty = .ok ir := by
  induction depth generalizing depth' ty ir with
  | zero =>
    obtain ⟨struct', hstruct'⟩ := t'.exists_layoutWithin depth'
    rw [hstruct']
    exact layoutWith_mono hissued ht (by simp) hty h
  | succ depth ih =>
    obtain ⟨d, rfl⟩ : ∃ d, depth' = d + 1 := Nat.exists_eq_add_one.2 (by omega)
    refine layoutWith_mono hissued ht (fun ty id ir hty h => ?_) hty h
    cases hms : (t.struct id).members with
    | none => simp [hms] at h
    | some ms =>
      simp only [hms, structMembers_of_le ht hms, except_bind_ok, mapM_ok_iff] at h ⊢
      obtain ⟨fields, hfields, h⟩ := h
      rw [hty.layoutName?_eq hissued ht]
      refine ⟨fields, ?_, h⟩
      refine ((List.forall₂_and_left _ _).2 ⟨fun m hm => hm, hfields⟩).imp fun m field hm => ?_
      exact ih (by omega) (hclosed id ms hms m hm.1) hm.2

/-- A pointer is laid out as a pointer. -/
theorem layoutWith_pointer {struct : TypeId → StructId → Except Fault Ir.Ty} {target? : Option TypeId}
    (hs : t.shape ty = .pointer target?) (h : t.layoutWith struct ty = .ok ir) : ∃ pointee, ir = .ptr pointee := by
  rw [layoutWith_eq] at h
  cases target? with
  | none =>
    rw [hs] at h
    exact ⟨_, (Except.ok.inj h).symm⟩
  | some target =>
    simp only [hs] at h
    split at h
    · exact ⟨_, (Except.ok.inj h).symm⟩
    · exact ⟨_, (Except.ok.inj h).symm⟩
    · obtain ⟨pointee, -, hir⟩ := except_map_ok.1 h
      exact ⟨pointee, hir.symm⟩

/-- A layout is that of a struct or of an array, or it is flat. -/
theorem layoutWith_cases {struct : TypeId → StructId → Except Fault Ir.Ty} (h : t.layoutWith struct ty = .ok ir) :
    (∃ id, t.shape ty = .struct id) ∨
    (∃ element dim part, t.shape ty = .array element dim ∧ t.layoutWith struct element = .ok part ∧
      ir = .array dim part) ∨
    ir.isFlat = true ∧ (ir = .void → t.shape ty = .void) := by
  have hpointer {target? : Option TypeId} (hs : t.shape ty = .pointer target?) := layoutWith_pointer hs h
  rw [layoutWith_eq] at h
  cases hs : t.shape ty with
  | struct id => exact .inl ⟨id, rfl⟩
  | array element dim =>
    simp only [hs, except_map_ok] at h
    obtain ⟨part, hpart, rfl⟩ := h
    exact .inr (.inl ⟨element, dim, part, rfl, hpart, rfl⟩)
  | named name target => exact absurd hs (t.shape_ne_named ty name target)
  | void | bool =>
    rw [hs] at h
    cases h
    exact .inr (.inr ⟨rfl, by simp⟩)
  | float width =>
    rw [hs] at h
    cases width <;> cases h <;> exact .inr (.inr ⟨rfl, by simp⟩)
  | integer bits signed =>
    rw [hs] at h
    cases h
    refine .inr (.inr ?_)
    unfold Ir.Ty.int
    split <;> exact ⟨rfl, by simp⟩
  | pointer target? =>
    obtain ⟨pointee, rfl⟩ := hpointer hs
    exact .inr (.inr ⟨rfl, by simp⟩)
  | function ret params variadic =>
    simp only [hs, except_bind_ok] at h
    obtain ⟨r, -, ps, -, h⟩ := h
    cases h
    exact .inr (.inr ⟨rfl, by simp⟩)

/-- Only void is laid out as void. -/
theorem isVoid_of_layout (h : t.layout ty = .ok .void) : t.isVoid ty = true := by
  rw [isVoid, beq_iff_eq]
  obtain ⟨struct, hstruct⟩ := t.exists_layoutWithin t.structs.size
  have hcases := h
  rw [layout, hstruct] at hcases
  obtain ⟨id, hs⟩ | ⟨_, _, _, -, -, hir⟩ | ⟨-, hvoid⟩ := layoutWith_cases hcases
  · obtain ⟨_, _, _, -, -, -, hir⟩ := (layoutWithin_struct_ok hs).1 h
    cases hir
  · cases hir
  · exact hvoid rfl

/-! ### Structs within layouts -/

/-- Induction on how a layout comes about: on the depth of structs, and inside of one on the parts of the type. -/
theorem layoutWithin_induction {motive : Nat → TypeId → Ir.Ty → Prop}
    (struct : ∀ {depth ty id ms fields}, t.shape ty = .struct id → (t.struct id).members = some ms →
      List.Forall₂ (fun m field => t.layoutWithin depth m.ty = .ok field ∧ motive depth m.ty field) ms fields →
      motive (depth + 1) ty (.struct (t.layoutName? ty) fields))
    (array : ∀ {depth ty element dim part}, t.shape ty = .array element dim → motive depth element part →
      motive depth ty (.array dim part))
    (flat : ∀ {depth ty ir}, (∀ id, t.shape ty ≠ .struct id) → (∀ element dim, t.shape ty ≠ .array element dim) →
      t.layoutWithin depth ty = .ok ir → motive depth ty ir) {depth : Nat} (h : t.layoutWithin depth ty = .ok ir) :
    motive depth ty ir := by
  induction depth using Nat.strongRecOn generalizing ty ir with
  | ind depth ih =>
    induction ty using t.parts_induction generalizing ir with
    | step ty ihty =>
      by_cases hs : ∃ id, t.shape ty = .struct id
      · obtain ⟨id, hs⟩ := hs
        obtain ⟨d, ms, fields, rfl, hms, hfields, rfl⟩ := (layoutWithin_struct_ok hs).1 h
        exact struct hs hms (hfields.imp fun m field hm => ⟨hm, ih d (Nat.lt_succ_self d) hm⟩)
      by_cases ha : ∃ element dim, t.shape ty = .array element dim
      · obtain ⟨element, dim, ha⟩ := ha
        obtain ⟨layout, hlayout⟩ := t.exists_layoutWithin depth
        rw [hlayout, layoutWith_eq] at h
        simp only [ha, except_map_ok, ← hlayout] at h
        obtain ⟨part, hpart, rfl⟩ := h
        exact array ha (ihty element (by simp [ha, Shape.parts]) hpart)
      · exact flat (not_exists.1 hs) (by simpa using ha) h

theorem layoutWithin_within {depth : Nat} {name : Option String} {fields : List Ir.Ty}
    (h : t.layoutWithin depth ty = .ok ir) (hw : (Ir.Ty.struct name fields).Within ir) :
    ∃ b d, d ≤ depth ∧ t.isStruct b = true ∧ t.layoutWithin d b = .ok (.struct name fields) := by
  refine layoutWithin_induction (motive := fun depth _ ir => (Ir.Ty.struct name fields).Within ir →
    ∃ b d, d ≤ depth ∧ t.isStruct b = true ∧ t.layoutWithin d b = .ok (.struct name fields)) ?_ ?_ ?_ h hw
  · intro depth ty id ms fs hs hms hfs hw
    cases hw with
    | self =>
      have hself := (layoutWithin_struct_ok hs).2 ⟨depth, ms, fields, rfl, hms, hfs.imp fun _ _ hm => hm.1, rfl⟩
      exact ⟨ty, depth + 1, Nat.le_refl _, isStruct_iff.2 ⟨id, hs⟩, hself⟩
    | field hf hw =>
      obtain ⟨m, -, hm⟩ := exists_of_forall₂ hfs hf
      obtain ⟨b, d, hd, hb⟩ := hm hw
      exact ⟨b, d, Nat.le_succ_of_le hd, hb⟩
  · intro depth ty element dim part hs ih hw
    cases hw with
    | element hw => exact ih hw
  · intro depth ty ir hstruct harray h hw
    obtain ⟨layout, hlayout⟩ := t.exists_layoutWithin depth
    rw [hlayout] at h
    obtain ⟨id, hs⟩ | ⟨element, dim, _, hs, -⟩ | ⟨hflat, -⟩ := layoutWith_cases h
    · exact absurd hs (hstruct id)
    · exact absurd hs (harray element dim)
    · cases hw.eq_of_isFlat hflat
      cases hflat

/-- Every struct within the type is the layout of a struct type. -/
def Describes (t : TypeTable) (ir : Ir.Ty) : Prop :=
  ∀ name fields, (Ir.Ty.struct name fields).Within ir →
    ∃ ty, t.isStruct ty = true ∧ t.layout ty = .ok (.struct name fields)

theorem has_of_isStruct (h : t.isStruct ty = true) : t.Has ty := by
  obtain ⟨id, hs⟩ := isStruct_iff.1 h
  exact has_of_shape (by simp [hs])

/-- A layout is the layout for good. -/
theorem layout_of_le (hclosed : t.Closed) (hissued : t.Issued) (ht : t ≤ t') (hty : t.Has ty)
    (h : t.layout ty = .ok ir) : t'.layout ty = .ok ir :=
  layoutWithin_mono hclosed hissued ht (Steps.structs_le ht) hty h

theorem layout_describes (hclosed : t.Closed) (hissued : t.Issued) (h : t.layout ty = .ok ir) : t.Describes ir := by
  intro name fields hw
  obtain ⟨b, d, hd, hb, hlayout⟩ := layoutWithin_within h hw
  exact ⟨b, hb, layoutWithin_mono hclosed hissued le_rfl hd (has_of_isStruct hb) hlayout⟩

theorem Describes.of_le (h : t.Describes ir) (hclosed : t.Closed) (hissued : t.Issued) (ht : t ≤ t') :
    t'.Describes ir := by
  intro name fields hw
  obtain ⟨b, hb, hlayout⟩ := h name fields hw
  have hhas := has_of_isStruct hb
  obtain ⟨id, hs⟩ := isStruct_iff.1 hb
  exact ⟨b, isStruct_iff.2 ⟨id, (hhas.shape_eq ht).trans hs⟩, layout_of_le hclosed hissued ht hhas hlayout⟩

/-! ### Structs by name -/

theorem layoutName?_of_layout {name : Option String} {fields : List Ir.Ty} (hty : t.isStruct ty = true)
    (h : t.layout ty = .ok (.struct name fields)) : t.layoutName? ty = name := by
  obtain ⟨id, hs⟩ := isStruct_iff.1 hty
  obtain ⟨_, _, _, -, -, -, hir⟩ := (layoutWithin_struct_ok hs).1 h
  cases hir
  rfl

/-- Struct types of one name have one layout. -/
theorem layout_eq_of_name (ha : t.isStruct a = true) (hb : t.isStruct b = true)
    (hname : t.layoutName? a = t.layoutName? b) (h : t.layout a = .ok ir) : t.layout b = .ok ir := by
  have hid := (layoutName?_inj ha hb).1 hname
  obtain ⟨i, hi⟩ := isStruct_iff.1 ha
  obtain ⟨j, hj⟩ := isStruct_iff.1 hb
  simp only [structId?, hi, hj, Option.some.injEq] at hid
  subst hid
  rw [layout, layoutWithin_struct_ok hi] at h
  rwa [layout, layoutWithin_struct_ok hj, ← hname]

namespace Describes

variable {ir' : Ir.Ty} {name : Option String} {fields fields' : List Ir.Ty}

theorem named (h : t.Describes ir) (hw : (Ir.Ty.struct name fields).Within ir) : name.isSome = true := by
  obtain ⟨ty, hty, hlayout⟩ := h name fields hw
  obtain ⟨id, hs⟩ := isStruct_iff.1 hty
  rw [← layoutName?_of_layout hty hlayout, layoutName?_of_shape hs]
  rfl

/-- One name stands for one struct. -/
theorem unique (h : t.Describes ir) (h' : t.Describes ir') (hw : (Ir.Ty.struct name fields).Within ir)
    (hw' : (Ir.Ty.struct name fields').Within ir') : fields = fields' := by
  obtain ⟨a, ha, hlayout⟩ := h name fields hw
  obtain ⟨b, hb, hlayout'⟩ := h' name fields' hw'
  have hname := (layoutName?_of_layout ha hlayout).trans (layoutName?_of_layout hb hlayout').symm
  cases (layout_eq_of_name ha hb hname hlayout).symm.trans hlayout'
  rfl

end Describes

end TypeTable

end TypedCore
