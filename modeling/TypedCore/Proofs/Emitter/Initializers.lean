import TypedCore.Proofs.Emitter.Effects
import TypedCore.Proofs.Session.Elaborated
import TypedCore.Proofs.Types.Layouts

/-!
# What elements of initializers are stored as

Elements in braces have been converted to the types of the parts of the braces, but what they are put into are the parts
of the declared object. These are laid out alike if no conversion of the braces changes more than the dimensions of
arrays: then each value is put into a part of the layout of its own type (`initializer_parts_agree`). A conversion of
braces to an array with elements of another layout is accepted as well, and the elements are stored without being
converted.
-/

namespace TypedCore

open Ir Lowering

/-- The two differ in the dimensions of arrays at most. -/
inductive Ir.Ty.Like : Ty → Ty → Prop
  | refl (a : Ty) : Like a a
  | array {a b : Ty} (m n : Nat) (h : Like a b) : Like (.array m a) (.array n b)

namespace Ir.Ty.Like

variable {a b c : Ty}

theorem trans (h : a.Like b) (h' : b.Like c) : a.Like c := by
  induction h generalizing c with
  | refl => exact h'
  | array m n h ih =>
    cases h' with
    | refl => exact .array m n h
    | array _ k h' => exact .array m k (ih h')

theorem isFlat_eq (h : a.Like b) : a.isFlat = b.isFlat := by
  cases h <;> rfl

theorem eq_of_isFlat (h : a.Like b) (hb : b.isFlat = true) : a = b := by
  cases h with
  | refl => rfl
  | array m n h => cases hb

theorem eq_of_struct {name : Option String} {fields : List Ty} (h : a.Like (.struct name fields)) :
    a = .struct name fields := by
  cases h with
  | refl => rfl

theorem exists_array {n : Nat} (h : a.Like (.array n b)) : ∃ m a', a = .array m a' ∧ a'.Like b := by
  cases h with
  | refl => exact ⟨n, b, rfl, .refl b⟩
  | array m _ h => exact ⟨m, _, rfl, h⟩

end Ir.Ty.Like

namespace TypeTable

variable {t : TypeTable} {a b c ty : TypeId} {ir : Ty}

/-! ### Layouts and shapes -/

theorem layout_array {element : TypeId} {dim : Nat} (hs : t.shape ty = .array element dim) :
    t.layout ty = .array dim <$> t.layout element := by
  obtain ⟨struct, hstruct⟩ := t.exists_layoutWithin t.structs.size
  rw [layout, layout, hstruct, layoutWith_eq, hs]

/-- A layout tells the kind of the type. -/
theorem layout_cases (h : t.layout ty = .ok ir) :
    (∃ id fields, t.shape ty = .struct id ∧ ir = .struct (t.layoutName? ty) fields) ∨
    (∃ element dim part, t.shape ty = .array element dim ∧ t.layout element = .ok part ∧ ir = .array dim part) ∨
    t.isScalar ty = true ∧ ir.isFlat = true := by
  cases hs : t.shape ty with
  | struct id =>
    obtain ⟨_, _, fields, -, -, -, hir⟩ := (layoutWithin_struct_ok hs).1 h
    exact .inl ⟨id, fields, rfl, hir⟩
  | array element dim =>
    rw [layout_array hs, except_map_ok] at h
    obtain ⟨part, hpart, hir⟩ := h
    exact .inr (.inl ⟨element, dim, part, rfl, hpart, hir.symm⟩)
  | _ =>
    obtain ⟨struct, hstruct⟩ := t.exists_layoutWithin t.structs.size
    rw [layout, hstruct] at h
    rcases layoutWith_cases h with ⟨id, hid⟩ | ⟨element, dim, part, hs', -⟩ | ⟨hflat, -⟩
    · cases hs.symm.trans hid
    · cases hs.symm.trans hs'
    · exact .inr (.inr ⟨by simp [isScalar, isArray, isStruct, hs], hflat⟩)

theorem isScalar_of_layout (h : t.layout ty = .ok ir) : t.isScalar ty = ir.isFlat := by
  rcases layout_cases h with ⟨id, fields, hs, rfl⟩ | ⟨element, dim, part, hs, -, rfl⟩ | ⟨hscalar, hflat⟩
  · simp [isScalar, isStruct, hs, Ty.isFlat]
  · simp [isScalar, isArray, hs, Ty.isFlat]
  · rw [hscalar, hflat]

theorem elementType_of_isScalar (h : t.isScalar ty = true) (i : Nat) : t.elementType ty i = .ok ty := by
  unfold elementType
  split <;> simp_all [isScalar, isArray, isStruct]

theorem takes_of_isScalar {xs : List TypeId} (h : t.isScalar ty = true) (hrule : Expr.BracesRule t ty xs) :
    ∀ x ∈ xs, Expr.Takes t ty x := by
  unfold Expr.BracesRule at hrule
  split at hrule
  · simp_all [isScalar, isArray]
  · simp_all [isScalar, isStruct]
  · exact hrule.2

/-! ### Types that fill objects of a type -/

/-- Whatever an object of type `b` is laid out as, one of type `a` is so too but for the dimensions of arrays. -/
def Fills (t : TypeTable) (a b : TypeId) : Prop := ∀ ir, t.layout b = .ok ir → ∃ ir', t.layout a = .ok ir' ∧ ir'.Like ir

namespace Fills

theorem refl (t : TypeTable) (a : TypeId) : t.Fills a a := fun ir h => ⟨ir, h, .refl ir⟩

theorem trans (h : t.Fills a b) (h' : t.Fills b c) : t.Fills a c := by
  intro ir hir
  obtain ⟨irb, hb, hlike⟩ := h' ir hir
  obtain ⟨ira, ha, hlike'⟩ := h irb hb
  exact ⟨ira, ha, hlike'.trans hlike⟩

theorem of_equals (hc : t.Canonical) (ha : t.Has a) (hb : t.Has b) (h : t.equals a b = true) : t.Fills a b := by
  intro ir hir
  have hsame : (t.layout a).toOption = (t.layout b).toOption := layout_congr ((hc.equals_iff ha hb).1 h)
  rw [hir] at hsame
  cases ha : t.layout a with
  | error f => simp [ha, Except.toOption] at hsame
  | ok ir' =>
    rw [ha] at hsame
    cases hsame
    exact ⟨ir, rfl, .refl ir⟩

theorem of_bounds {dim : Nat} (h : t.Bounds b dim a) : t.Fills a b := by
  obtain ⟨element, hb, ha, -⟩ := h
  intro ir hir
  rw [layout_array hb, except_map_ok] at hir
  obtain ⟨part, hpart, rfl⟩ := hir
  exact ⟨.array dim part, by rw [layout_array ha, hpart]; rfl, .array dim 0 (.refl part)⟩

theorem of_takes (hc : t.Canonical) (ha : t.Has a) (hb : t.Has b) (h : Expr.Takes t b a) : t.Fills a b := by
  rcases h with h | ⟨dim, h⟩
  · exact of_equals hc ha hb h
  · exact of_bounds h

/-- A scalar is filled by what has its layout. -/
theorem layout_eq (h : t.Fills a b) (hb : t.isScalar b = true) (hir : t.layout b = .ok ir) : t.layout a = .ok ir := by
  obtain ⟨ir', ha, hlike⟩ := h ir hir
  rw [isScalar_of_layout hir] at hb
  rw [ha, hlike.eq_of_isFlat hb]

theorem isScalar_eq (h : t.Fills a b) (hir : t.layout b = .ok ir) : t.isScalar a = t.isScalar b := by
  obtain ⟨ir', ha, hlike⟩ := h ir hir
  rw [isScalar_of_layout ha, isScalar_of_layout hir, hlike.isFlat_eq]

/-- Elements in braces that fill an object fill the parts of it. -/
theorem element {xs : List TypeId} {i : Nat} {x part : TypeId} (hc : t.Canonical) (ha : t.Has a)
    (hxs : ∀ x ∈ xs, t.Has x) (hrule : Expr.BracesRule t a xs) (h : t.Fills a ty) (hir : t.layout ty = .ok ir)
    (hx : xs[i]? = some x) (hpart : t.elementType ty i = .ok part) : t.Fills x part := by
  obtain ⟨ir', hir', hlike⟩ := h ir hir
  have hmem := List.mem_of_getElem? hx
  rcases layout_cases hir with ⟨id, fields, hs, rfl⟩ | ⟨g, dim, irg, hs, hg, rfl⟩ | ⟨hscalar, hflat⟩
  · obtain rfl := hlike.eq_of_struct
    rcases layout_cases hir' with ⟨id', fields', hs', heq⟩ | ⟨_, _, _, _, _, heq⟩ | ⟨-, hflat⟩
    · -- structs of one name are the same struct
      have hid := (layoutName?_inj (isStruct_iff.2 ⟨id, hs⟩) (isStruct_iff.2 ⟨id', hs'⟩)).1 (Ty.struct.inj heq).1
      simp only [structId?, hs, hs', Option.some.injEq] at hid
      subst hid
      simp only [Expr.BracesRule, hs'] at hrule
      obtain ⟨ms, hms, hhas, -, htakes⟩ := hrule
      simp only [elementType, hs, hms, Option.getD_some] at hpart
      split at hpart
      · rename_i m hm
        cases hpart
        have hzip : (m.ty, x) ∈ (ms.map (·.ty)).zip xs :=
          List.mem_of_getElem? (List.getElem?_zip_eq_some.2 ⟨by rw [List.getElem?_map, hm]; rfl, hx⟩)
        exact of_takes hc (hxs x hmem) (hhas m (List.mem_of_getElem? hm)) (htakes _ hzip)
      · cases hpart
    · cases heq
    · cases hflat
  · obtain ⟨m, irf, rfl, hlike'⟩ := hlike.exists_array
    rcases layout_cases hir' with ⟨_, _, _, heq⟩ | ⟨f, _, _, hs', hf, heq⟩ | ⟨-, hflat⟩
    · cases heq
    · cases heq
      simp only [Expr.BracesRule, hs'] at hrule
      simp only [elementType, hs] at hpart
      cases hpart
      have hfill : t.Fills f part := by
        intro irp hp
        cases hg.symm.trans hp
        exact ⟨irf, hf, hlike'⟩
      exact (of_takes hc (hxs x hmem) (ha.element hs') (hrule.2 x hmem)).trans hfill
    · cases hflat
  · obtain rfl := hlike.eq_of_isFlat hflat
    have hscalar' : t.isScalar a = true := (isScalar_of_layout hir').trans hflat
    rw [elementType_of_isScalar hscalar] at hpart
    cases hpart
    exact (of_takes hc (hxs x hmem) ha (takes_of_isScalar hscalar' hrule x hmem)).trans h

end Fills

end TypeTable

/-! ### Braces below conversions -/

namespace Expr

variable {t : TypeTable}

theorem PartOf.of_braces {x : Expr} : ∀ {e : Expr} {es : List Expr}, e.braces? t = some es → x ∈ es → x.PartOf e
  | aggregate elements note, es, h, hx => by
    cases h
    exact fun Q hQ => allOf_iff.1 hQ.2 x hx
  | proxy target note, es, h, hx => fun Q hQ => of_braces (e := target) h hx Q hQ.2
  | unary op child note, es, h, hx => by
    cases op with
    | cast =>
      rw [braces?] at h
      split at h
      · cases h
      · exact fun Q hQ => of_braces h hx Q hQ.2
    | _ => simp [braces?] at h
  | literal .., _, h, _ | identifier .., _, h, _ | binary .., _, h, _ | conditional .., _, h, _ | call .., _, h, _
  | member .., _, h, _ => by simp [braces?] at h

/-- The node converts elements in braces, which are not all known, to a type that their own type does not fill. -/
def ChangesLayout (t : TypeTable) : Expr → Prop
  | unary .cast child note => (unary .cast child note).constant? t = none ∧
      ((unary .cast child note).braces? t).isSome ∧ ¬ t.Fills child.ty note.ty
  | _ => False

/-- `x` lies in `e` below a conversion of braces to another layout. -/
def Recast (t : TypeTable) (e x : Expr) : Prop := ∃ c : Expr, c.PartOf e ∧ x.PartOf c ∧ c.ChangesLayout t

theorem Recast.mono {e e' x x' : Expr} (h : Recast t e x) (he : e.PartOf e') (hx : x'.PartOf x) : Recast t e' x' := by
  obtain ⟨c, hc, hxc, hchanges⟩ := h
  exact ⟨c, hc.trans he, hx.trans hxc, hchanges⟩

theorem convertConstant?_aggregate {src dst : TypeId} {items : List Constant} :
    t.convertConstant? src dst (.aggregate items) = if t.isScalar dst then none else some (.aggregate items) := by
  unfold TypeTable.convertConstant? TypeTable.isScalar TypeTable.isArray TypeTable.isStruct
  cases t.shape dst <;> rfl

/-- What is known of elements in braces is known element by element. -/
theorem exists_aggregate_of_braces : ∀ {e : Expr} {es : List Expr} {c : Constant}, e.braces? t = some es →
    e.constant? t = some c → ∃ items, c = .aggregate items
  | aggregate elements note, _, c, _, hc => by
    rw [constant?, Option.map_eq_some_iff] at hc
    obtain ⟨items, -, rfl⟩ := hc
    exact ⟨items, rfl⟩
  | proxy target note, _, c, h, hc => exists_aggregate_of_braces (e := target) h hc
  | unary op child note, _, c, h, hc => by
    cases op with
    | cast =>
      rw [braces?] at h
      split at h
      · cases h
      · simp only [constant?, Option.bind_eq_bind, Option.bind_eq_some_iff] at hc
        obtain ⟨c', hc', hconvert⟩ := hc
        obtain ⟨items, rfl⟩ := exists_aggregate_of_braces h hc'
        rw [TypeTable.unaryConstant?, convertConstant?_aggregate] at hconvert
        split at hconvert
        · cases hconvert
        · exact ⟨items, (Option.some.inj hconvert).symm⟩
    | _ => simp [braces?] at h
  | literal .., _, _, h, _ | identifier .., _, _, h, _ | binary .., _, _, h, _ | conditional .., _, _, h, _
  | call .., _, _, h, _ | member .., _, _, h, _ => by simp [braces?] at h

/-- Elements in braces that are not all known fill what their conversion fills, unless it changes the layout. -/
theorem fills_of_braces {ty : TypeId} {ir : Ty} (hir : t.layout ty = .ok ir) : ∀ {e : Expr} {es : List Expr},
    e.Coherent t → e.constant? t = none → e.braces? t = some es → t.Fills e.ty ty →
    (∃ note : Note, t.Fills note.ty ty ∧ (aggregate es note).PartOf e) ∨ ∀ x ∈ es, Recast t e x
  | aggregate elements note, es, _, _, hes, hfills => by
    cases hes
    exact .inl ⟨note, hfills, .refl _⟩
  | proxy target note, es, he, hc, hes, hfills => by
    have hty : target.ty = note.ty := he.1.2
    have hpart : target.PartOf (proxy target note) := fun Q h => h.2
    rcases fills_of_braces hir he.2 hc hes (hty ▸ hfills) with ⟨note', hnote, hbraces⟩ | hrecast
    · exact .inl ⟨note', hnote, hbraces.trans hpart⟩
    · exact .inr fun x hx => (hrecast x hx).mono hpart (.refl x)
  | unary op child note, es, he, hc, hes, hfills => by
    cases op with
    | cast =>
      have hsome := hes
      rw [braces?] at hes
      split at hes
      · cases hes
      rename_i hscalar
      by_cases hkeeps : t.Fills child.ty note.ty
      · have hchild : child.constant? t = none := by
          -- a known array or struct is known after a conversion to another one
          by_contra hknown
          obtain ⟨c, hc'⟩ := Option.ne_none_iff_exists'.1 hknown
          obtain ⟨items, rfl⟩ := exists_aggregate_of_braces hes hc'
          obtain ⟨ir', hir', -⟩ : ∃ ir', t.layout note.ty = .ok ir' ∧ ir'.Like ir := hfills ir hir
          have hnote : t.isScalar note.ty = t.isScalar child.ty := (hkeeps.isScalar_eq hir').symm
          simp [constant?, hc', TypeTable.unaryConstant?, convertConstant?_aggregate, hnote, hscalar] at hc
        have hpart : child.PartOf (unary .cast child note) := fun Q h => h.2
        rcases fills_of_braces hir he.2 hchild hes (hkeeps.trans hfills) with ⟨note', hnote, hbraces⟩ | hrecast
        · exact .inl ⟨note', hnote, hbraces.trans hpart⟩
        · exact .inr fun x hx => (hrecast x hx).mono hpart (.refl x)
      · exact .inr fun x hx => ⟨_, .refl _, .of_braces hsome hx, hc, Option.isSome_of_mem hsome, hkeeps⟩
    | _ => simp [braces?] at hes
  | literal .., _, _, _, hes, _ | identifier .., _, _, _, hes, _ | binary .., _, _, _, hes, _
  | conditional .., _, _, _, hes, _ | call .., _, _, _, hes, _ | member .., _, _, _, hes, _ => by
    simp [braces?] at hes

/-- Elements in braces that fill an object fill its parts. -/
theorem element_fills {e x : Expr} {ty part : TypeId} {ir : Ty} {es : List Expr} {i : Nat} (hc : t.Canonical)
    (he : e.Elaborated t) (hir : t.layout ty = .ok ir) (hconst : e.constant? t = none) (hes : e.braces? t = some es)
    (hx : es[i]? = some x) (hpart : t.elementType ty i = .ok part) (hfills : t.Fills e.ty ty) :
    t.Fills x.ty part ∨ Recast t e x := by
  rcases fills_of_braces hir he.coherent hconst hes hfills with ⟨note, hnote, hbraces⟩ | hrecast
  · have hcoherent := hbraces _ he.coherent
    have hhas : ∀ ty ∈ es.map Expr.ty, t.Has ty := by
      intro ty hty
      obtain ⟨x, hx, rfl⟩ := List.mem_map.1 hty
      exact Coherent.has (allOf_iff.1 hcoherent.2 x hx)
    have hx' : (es.map Expr.ty)[i]? = some x.ty := by rw [List.getElem?_map, hx]; rfl
    exact .inl (hnote.element hc (Coherent.has hcoherent) hhas (hbraces _ he.formed).1 hir hx' hpart)
  · exact .inr (hrecast x (List.mem_of_getElem? hx))

end Expr

/-- The one object of type `ty` at `slot`, which is initialized by `e`. -/
def Objects.only (slot : Value) (e : Expr) (ty : TypeId) : Objects := fun v x ty' => v = slot ∧ x = e ∧ ty' = ty

/-- `L` is a ledger of the code that initializes the object of type `ty` at `slot` by `e`, with the effects of `e`. -/
structure InitLedger (t : TypeTable) (slot : Value) (e : Expr) (ty : TypeId) (m : Emitter) (L : List Attributed)
    (m' : Emitter) : Prop where
  ledger : Ledger t (·.PartOf e) (.only slot e ty) m L m'
  effects : L.filterMap Attributed.node? = e.effects t

section Agreement

variable {t : TypeTable} {slot a : Value} {e x : Expr} {ty part : TypeId} {I : List Instr}

/-- What an object that is initialized by `e` receives is part of `e`, and so is what temporaries receive. -/
theorem Receives.partOf (h : Receives t (·.PartOf e) (.only slot e ty) I a x part) : x.PartOf e := by
  induction h with
  | object h => exact h.2.1 ▸ .refl _
  | temporary hx => exact hx
  | part _ _ _ hes hx _ _ ih => exact (Expr.PartOf.of_braces hes (List.mem_of_getElem? hx)).trans ih

/-- Values fill the objects that they are put into, unless their braces are converted to a type that they do not fill.
The induction is on the way from the whole object to its part. -/
theorem Receives.fills (h : Receives t (·.PartOf e) (.only slot e ty) I a x part) (hc : t.Canonical)
    (he : e.Elaborated t) (hty : e.ty = ty) : t.Fills x.ty part ∨ Expr.Recast t e x := by
  induction h with
  | object h =>
    obtain ⟨-, rfl, rfl⟩ := h
    exact .inl (hty ▸ .refl t _)
  | temporary => exact .inl (.refl t _)
  | @part base a y x ty' part ir es i hbase hir hconst hes hx hpart _ ih =>
    have hy : y.PartOf e := hbase.partOf
    have hxy : x.PartOf y := .of_braces hes (List.mem_of_getElem? hx)
    rcases ih with hfills | hrecast
    · have hel : y.Elaborated t := ⟨hy _ he.coherent, hy _ he.formed⟩
      exact (Expr.element_fills hc hel hir hconst hes hx hpart hfills).imp_right (·.mono hy (.refl x))
    · exact .inr (hrecast.mono (.refl e) hxy)

end Agreement

open Session in
/-- Initializers are converted down to the element, as far as conversions of braces keep the layout but for the
dimensions of arrays. After the slot of a variable that is declared with an initializer has been made, the code is a
ledger with the effects of the initializer. In all such ledgers, a value that is put into an object for the sake of
initialization is the value of a part of the initializer, and is put into what is to receive it: the variable, the part
of it at the same place as the value in its braces, at any depth, or a temporary for the value or a part of it. If this
is a scalar, the type of the value has the layout that is stored. Values in braces that are converted to a type that
they do not fill are the exception. -/
theorem initializer_parts_agree {s s' : Session} {es : List Expr} (h : s.Reachable es) {name : String} {ty : TypeId}
    {span : Span} {e₀ e : Expr} {d : Declaration} (hty : s.types.Has ty) (he₀ : e₀ ∈ es)
    (hd : Ends (declareVariable name ty (some e₀) span) s (.ok d) s') (he : d.init = some e) {t : TypeTable}
    (ht : TypeTable.Reaches s'.types t) {m m' : Emitter} (hm : m.Drafting)
    (hlocal : Ends (localDeclaration t d) m (.ok ()) m') :
    ∃ ir slot m₁, t.layout d.ty = .ok ir ∧ Ends (Emit.localVariable d.symbol d.name ir) m (.ok slot) m₁ ∧
      (∃ L, InitLedger t slot e d.ty m₁ L m') ∧
      ∀ L, InitLedger t slot e d.ty m₁ L m' → ∀ pre x part i post, L = pre ++ ⟨.init x part, i⟩ :: post →
        x.PartOf e ∧ ∃ v a ir', i = .store v a ir' ∧ t.layout part = .ok ir' ∧
          Receives t (·.PartOf e) (.only slot e d.ty) (pre.map (·.instr)) a x part ∧
          (t.isScalar part = true → t.layout x.ty = .ok ir' ∨ Expr.Recast t e x) := by
  have hreached : s'.Reachable _ := h.declareVariable hty (fun e he => Option.some.inj he ▸ he₀) hd
  have hel : e.Elaborated t := (hreached.elaborated e (by simp [Except.toOption, he])).mono ht.steps.le
  have hc : t.Canonical := hreached.sound.1.canonical.reaches ht
  have hdty : e.ty = d.ty := by
    obtain ⟨⟨stop, hstop⟩, -⟩ | ⟨d', s₁, symbols, hd', hinits, -⟩ := declareVariable_cases hd
    · cases hstop
    · cases hd'
      exact (he ▸ hinits).ty_eq
  unfold localDeclaration at hlocal
  obtain ⟨ir, _, hlayout, hrest⟩ := Ends.bind_ok_iff.1 hlocal
  obtain ⟨hir, rfl⟩ := Ends.lift_iff.1 hlayout
  obtain ⟨slot, m₁, hslot, hinit⟩ := Ends.bind_ok_iff.1 hrest
  obtain ⟨k, -, hmade⟩ := Emit.localVariable_writes hm hslot
  refine ⟨ir, slot, m₁, hir.symm, hslot, ?_, fun L hL pre x part i post heq => ?_⟩
  · simp only [he] at hinit
    have hexplained : Explained t (·.PartOf e) e := lower_explained (Expr.PartOf.all e)
    obtain ⟨L, hL⟩ := hexplained.init (.only slot e d.ty) slot d.ty ⟨rfl, rfl, rfl⟩ hmade.drafting hinit
    exact ⟨L, hL.ledger, hL.nodes_eq⟩
  · obtain ⟨v, a, ir', hi, hir', ha⟩ := hL.ledger.exists_receives heq
    refine ⟨ha.partOf, v, a, ir', hi, hir', ha, fun hscalar => ?_⟩
    exact (ha.fills hc hel hdty).imp_left (·.layout_eq hscalar hir')

/-- If all effects of an initializer are calls, a value that is stored from a temporary is stored to initialize. -/
theorem InitLedger.exists_init {t : TypeTable} {slot : Value} {e : Expr} {ty : TypeId} {m m' : Emitter}
    {L : List Attributed} (h : InitLedger t slot e ty m L m') (hcalls : ∀ n ∈ e.effects t, n.isCall = true)
    {k : TempId} {a : Value} {ir : Ty} (hi : .store (.temp k) a ir ∈ L.map (·.instr)) :
    ∃ x part, ⟨.init x part, .store (.temp k) a ir⟩ ∈ L ∧ x.PartOf e ∧ t.layout part = .ok ir := by
  obtain ⟨l, hl, hlast⟩ := List.mem_map.1 hi
  obtain ⟨pre, post, heq⟩ := List.append_of_mem hl
  have hjust := h.ledger.justified pre l post heq
  cases hjust with
  | @effect node _ _ _ _ _ _ hperforms =>
    have hnode : node ∈ e.effects t := h.effects ▸ List.mem_filterMap.2 ⟨_, hl, rfl⟩
    have hcall := hcalls node hnode
    cases hperforms with
    | call => cases hlast
    | assign | compound | step => cases hcall
  | init _ _ _ _ _ hir ha =>
    cases hlast
    exact ⟨_, _, hl, ha.partOf, hir⟩
  | @clear _ _ _ ir' =>
    simp only [Instr.store.injEq] at hlast
    obtain ⟨hzero, -, -⟩ := hlast
    cases ir' <;> cases hzero
  | compute hquiet =>
    cases hlast
    cases hquiet

namespace Couples

open Session

/-- Two numbers `{f(), f()}`, as numbers of 64 bits without sign and as numbers of 32 bits. -/
def history : History := .run
  [.types [.integer 32 true, .array ⟨0⟩ 2, .integer 64 false, .array ⟨2⟩ 2, .integer 64 true, .array ⟨4⟩ 2,
      .integer 8 false, .array ⟨6⟩ 2, .function ⟨0⟩ [] false],
    .declareFunction "f" ⟨8⟩, .openScope, .identifier "f", .call 0 [], .aggregate [1, 1] ⟨3⟩, .aggregate [1, 1] ⟨1⟩]

def words : Expr := history.expr 2

def ints : Expr := history.expr 3

def longArray : TypeId := ⟨5⟩

def byteArray : TypeId := ⟨7⟩

/-- `a` is declared with an initializer. -/
def declared (ty : TypeId) (init : Expr) : Except Stop Declaration × Session :=
  (declareVariable "a" ty (some init) default).run.run history.session

def declaration (ty : TypeId) (init : Expr) : Declaration := (declared ty init).1.toOption.getD default

theorem declared_ends {ty : TypeId} {init : Expr} (hok : (declared ty init).1.isOk = true) :
    Ends (declareVariable "a" ty (some init) default) history.session (.ok (declaration ty init))
      (declared ty init).2 := by
  obtain ⟨d, hd⟩ := Ends.of_isOk hok
  have heq : declaration ty init = d := by
    rw [declaration, show (declared ty init).1 = .ok d from congrArg Prod.fst hd]
    rfl
  rw [heq]
  exact hd

/-- The table with which code is generated for it. -/
def table (ty : TypeId) (init : Expr) : TypeTable := (declared ty init).2.types

/-- In a function without parameters. -/
def begun : Emitter := (Emitter.new "m").enter "g" .void [] false

theorem begun_drafting : begun.Drafting := Emitter.enter_drafting (Emitter.new "m") "g" .void [] false

def emitted (ty : TypeId) (init : Expr) : Except Fault Unit × Emitter :=
  (localDeclaration (table ty init) (declaration ty init)).run.run begun

theorem emitted_ends {ty : TypeId} {init : Expr} (hok : (emitted ty init).1.isOk = true) :
    Ends (localDeclaration (table ty init) (declaration ty init)) begun (.ok ()) (emitted ty init).2 := by
  obtain ⟨⟨⟩, h⟩ := Ends.of_isOk hok
  exact h

/-- The result of a call, with its type. -/
def called? : Instr → Option (TempId × Ty)
  | .call (some k) _ _ ty => some (k, ty)
  | _ => none

/-- What is stored, with the type that it is stored as. -/
def stored? : Instr → Option (TempId × Ty)
  | .store (.temp k) _ ty => some (k, ty)
  | _ => none

theorem exists_of_stored {I : List Instr} {p : TempId × Ty} (h : p ∈ I.filterMap stored?) :
    ∃ a, .store (.temp p.1) a p.2 ∈ I := by
  obtain ⟨i, hi, hp⟩ := List.mem_filterMap.1 h
  unfold stored? at hp
  split at hp
  · cases hp
    exact ⟨_, hi⟩
  · cases hp

end Couples

open Couples Session in
/-- Two numbers are converted to 64 bits each, and the array of them to one of numbers with sign. -/
theorem words_fill_longs : history.session.Reachable history.exprs ∧ words ∈ history.exprs ∧ begun.Drafting ∧
    Ends (declareVariable "a" longArray (some words) default) history.session (.ok (declaration longArray words))
      (declared longArray words).2 ∧
    Ends (localDeclaration (table longArray words) (declaration longArray words)) begun (.ok ())
      (emitted longArray words).2 ∧
    ∃ e ir slot m₁, (declaration longArray words).init = some e ∧
      Ends (Emit.localVariable (declaration longArray words).symbol (declaration longArray words).name ir) begun
        (.ok slot) m₁ ∧
      ∃ L, InitLedger (table longArray words) slot e (declaration longArray words).ty m₁ L (emitted longArray words).2 ∧
        ∀ pre x part i post, L = pre ++ ⟨.init x part, i⟩ :: post →
          x.PartOf e ∧ ∃ v a ir', i = .store v a ir' ∧ (table longArray words).layout part = .ok ir' ∧
            Receives (table longArray words) (·.PartOf e) (.only slot e (declaration longArray words).ty)
              (pre.map (·.instr)) a x part ∧
            ((table longArray words).isScalar part = true → (table longArray words).layout x.ty = .ok ir' ∨
              Expr.Recast (table longArray words) e x) := by
  have hwords : words ∈ history.exprs := History.expr_mem (by decide +kernel)
  have hd := declared_ends (show (declared longArray words).1.isOk = true by decide +kernel)
  have hlocal := emitted_ends (show (emitted longArray words).1.isOk = true by decide +kernel)
  have hinit : (declaration longArray words).init.isSome = true := by decide +kernel
  obtain ⟨e, he⟩ := Option.isSome_iff_exists.1 hinit
  obtain ⟨ir, slot, m₁, -, hslot, ⟨L, hL⟩, hagree⟩ :=
    initializer_parts_agree (History.run_reachable _) (by decide +kernel) hwords hd he .refl begun_drafting hlocal
  exact ⟨History.run_reachable _, hwords, begun_drafting, hd, hlocal, e, ir, slot, m₁, he, hslot, L, hL, hagree L hL⟩

open Couples Session in
/-- Two calls that return 32 bits each initialize an array of bytes, and their results are stored as bytes. However the
code is accounted for, a value of another layout is put into a byte. -/
theorem call_stored_unconverted : history.session.Reachable history.exprs ∧ ints ∈ history.exprs ∧
    Ends (declareVariable "a" byteArray (some ints) default) history.session (.ok (declaration byteArray ints))
      (declared byteArray ints).2 ∧
    Ends (localDeclaration (table byteArray ints) (declaration byteArray ints)) begun (.ok ())
      (emitted byteArray ints).2 ∧
    (instrsOf (emitted byteArray ints).2.blocks).filterMap called? = [(2, .i32), (4, .i32)] ∧
    (instrsOf (emitted byteArray ints).2.blocks).filterMap stored? = [(2, .i8), (4, .i8)] ∧
    ∃ e, (declaration byteArray ints).init = some e ∧ ∀ ir slot m₁ L,
      Ends (Emit.localVariable (declaration byteArray ints).symbol (declaration byteArray ints).name ir) begun
        (.ok slot) m₁ →
      InitLedger (table byteArray ints) slot e (declaration byteArray ints).ty m₁ L (emitted byteArray ints).2 →
      ∃ x part a, ⟨.init x part, .store (.temp 2) a .i8⟩ ∈ L ∧ (table byteArray ints).isScalar part = true ∧
        (table byteArray ints).layout x.ty ≠ .ok .i8 := by
  have hstored : (instrsOf (emitted byteArray ints).2.blocks).filterMap stored? = [(2, .i8), (4, .i8)] := by
    decide +kernel
  have hinit : ∃ e, (declaration byteArray ints).init = some e ∧
      (∀ n ∈ e.effects (table byteArray ints), n.isCall = true) ∧
      e.All fun n => ((table byteArray ints).layout n.ty).toOption ≠ some .i8 := by
    have hsome : ((declaration byteArray ints).init.map fun e =>
        decide ((∀ n ∈ e.effects (table byteArray ints), n.isCall = true) ∧
          e.All fun n => ((table byteArray ints).layout n.ty).toOption ≠ some .i8)) = some true := by decide +kernel
    obtain ⟨e, he, hdecided⟩ := Option.map_eq_some_iff.1 hsome
    exact ⟨e, he, of_decide_eq_true hdecided⟩
  obtain ⟨e, he, hcalls, hnodes⟩ := hinit
  refine ⟨History.run_reachable _, History.expr_mem (by decide +kernel), declared_ends (by decide +kernel),
    emitted_ends (by decide +kernel), by decide +kernel, hstored, e, he, fun ir slot m₁ L hslot hL => ?_⟩
  obtain ⟨k, -, hmade⟩ := Emit.localVariable_writes begun_drafting hslot
  have hbegun : instrsOf begun.blocks = [] := by decide +kernel
  have hmem : ((2, .i8) : TempId × Ty) ∈ (L.map (·.instr)).filterMap stored? := by
    rw [(hmade.trans hL.ledger.writes).instrs_eq, hbegun] at hstored
    simp only [List.filterMap_append, List.filterMap_cons, stored?, List.filterMap_nil, List.nil_append] at hstored
    simp [hstored]
  obtain ⟨a, ha⟩ := exists_of_stored hmem
  obtain ⟨x, part, hl, hx, hpart⟩ := hL.exists_init hcalls ha
  refine ⟨x, part, a, hl, TypeTable.isScalar_of_layout hpart, fun hlayout => ?_⟩
  exact (hx _ hnodes).self (by rw [hlayout]; rfl)

end TypedCore
