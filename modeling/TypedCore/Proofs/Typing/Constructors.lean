import TypedCore.Proofs.Typing.Elaboration

/-!
# Constructors build coherent expressions

What each constructor builds from coherent expressions is coherent. Members of structs and elements in
braces get types that structs mention, which have been issued in a table that is `Closed`.
-/

namespace TypedCore

/-! ### Members of structs -/

namespace TypeTable

variable {t t' : TypeTable} {ty : TypeId}

/-- The types of members have been issued. -/
def Closed (t : TypeTable) : Prop :=
  ∀ id ms, (t.struct id).members = some ms → ∀ m ∈ ms, t.Has m.ty

theorem closed_empty (sizeBits : Nat) : (empty sizeBits).Closed := by
  intro id ms h
  simp [struct, empty] at h

theorem ty_mem_of_mem_zipWith {m : Member} :
    ∀ {names : List String} {types : List TypeId}, m ∈ List.zipWith Member.mk names types → m.ty ∈ types
  | [], _, h => (nomatch h)
  | _ :: _, [], h => (nomatch h)
  | _ :: _, _ :: _, h => by
    rcases List.mem_cons.1 h with rfl | h
    · exact List.mem_cons_self ..
    · exact List.mem_cons_of_mem _ (ty_mem_of_mem_zipWith h)

theorem hasSize_of_memberFault? {name : String} {before ms : List Member} (h : t.memberFault? name before ms = none) :
    ∀ m ∈ ms, t.hasSize m.ty = true := by
  induction ms generalizing before with
  | nil => exact nofun
  | cons m ms ih =>
    unfold memberFault? at h
    split at h
    · cases h
    · split at h
      · cases h
      · rename_i hsize
        exact List.forall_mem_cons.2 ⟨by simpa using hsize, ih h⟩

theorem names_of_memberFault? {name : String} {before ms : List Member} (h : t.memberFault? name before ms = none) :
    (∀ b ∈ before, ∀ m ∈ ms, b.name ≠ m.name) ∧ (ms.map (·.name)).Nodup := by
  induction ms generalizing before with
  | nil => exact ⟨nofun, List.nodup_nil⟩
  | cons m ms ih =>
    unfold memberFault? at h
    split at h
    · cases h
    · rename_i hfresh
      split at h
      · cases h
      · obtain ⟨hbefore, hnodup⟩ := ih h
        have hm : ∀ b ∈ before, b.name ≠ m.name := by simpa using hfresh
        refine ⟨fun b hb => List.forall_mem_cons.2 ⟨hm b hb, hbefore b (List.mem_append_left _ hb)⟩, ?_⟩
        rw [List.map_cons, List.nodup_cons]
        refine ⟨fun hmem => ?_, hnodup⟩
        obtain ⟨m', hm', heq⟩ := List.mem_map.1 hmem
        exact hbefore m (List.mem_append_right _ (List.mem_singleton_self m)) m' hm' heq.symm

/-- Members are given once. They have a type and a size, and different names. -/
theorem Step.members_cases (hstep : Step t t') {id : StructId} {ms : List Member}
    (hms : (t'.struct id).members = some ms) :
    (t.struct id).members = some ms ∨
      (ms.map (·.name)).Nodup ∧ ∀ m ∈ ms, t.Has m.ty ∧ t.hasSize m.ty = true := by
  cases hstep with
  | enter => exact .inl (struct_push t _ id ▸ hms)
  | declare name => exact .inl (members_declare t name id ▸ hms)
  | @complete ty names types _ hhas hc =>
    obtain ⟨id', -, hfault, rfl⟩ := completeStruct_ok hc
    have hsize := hasSize_of_memberFault? hfault
    rcases t.struct_modifyStruct id' id _ with hs | ⟨-, hs⟩
    · exact .inl (hs ▸ hms)
    · rw [hs] at hms
      cases hms
      exact .inr ⟨(names_of_memberFault? hfault).2, fun m hm => ⟨hhas _ (ty_mem_of_mem_zipWith hm), hsize m hm⟩⟩
  | remove ty => exact .inl ((t.struct_removeStruct ty id).2 ▸ hms)

theorem Closed.steps (h : t.Closed) (hsteps : Steps t t') : t'.Closed := by
  induction hsteps with
  | refl => exact h
  | tail _ hstep ih =>
    intro id ms hms m hm
    rcases hstep.members_cases hms with hms | hms
    · exact (ih id ms hms m hm).mono hstep.le
    · exact (hms.2 m hm).1.mono hstep.le

/-- Members have a size. -/
def Roomy (t : TypeTable) : Prop :=
  ∀ id ms, (t.struct id).members = some ms → ∀ m ∈ ms, t.hasSize m.ty = true

theorem roomy_of_steps {sizeBits : Nat} (h : Steps (empty sizeBits) t) : t.Roomy := by
  induction h with
  | refl =>
    intro id ms h
    simp [struct, empty] at h
  | tail hsteps hstep ih =>
    have hclosed := (closed_empty sizeBits).steps hsteps
    intro id ms hms m hm
    rcases hstep.members_cases hms with hms | hms
    · exact (hclosed id ms hms m hm).hasSize_of_le hstep.le (ih id ms hms m hm)
    · exact (hms.2 m hm).1.hasSize_of_le hstep.le (hms.2 m hm).2

theorem Closed.members_has (h : t.Closed) {ms : List Member} (hms : t.members ty = .ok ms) :
    ∀ m ∈ ms, t.Has m.ty := by
  obtain ⟨id, -, hms⟩ := members_ok_iff.1 hms
  exact h id ms hms

theorem Closed.member_has (h : t.Closed) {name : String} {index : Nat} {ty' : TypeId}
    (hm : t.member ty name = .ok (index, ty')) : t.Has ty' := by
  obtain ⟨ms, hms, hm⟩ := except_bind_ok.1 hm
  split at hm
  · rename_i m i hfind
    cases hm
    exact h.members_has hms m (List.fst_mem_of_mem_zipIdx (List.mem_of_find?_eq_some hfind))
  · cases hm

end TypeTable

/-! ### Constructors -/

namespace Node

open Session Expr

variable {t : TypeTable}

/-! ### Leaves -/

section Leaves

variable {span : Span}

/-- A literal whose type is entered for it. -/
theorem literal_yields {value : Literal} {shape : Shape} (hshape : ∀ name target, shape ≠ .named name target)
    (hparts : ∀ p ∈ shape.parts, t.Has p)
    (hrule : ∀ t ty span, t.Has ty → t.shape ty = shape → Ruled t (.literal value ⟨ty, span⟩))
    (hstruct : ∀ id, shape ≠ .struct id := by intro _ h; cases h) :
    Yields t (do return .literal value ⟨← onTypes (.intern shape false), span⟩ : SessionM Expr)
      fun e t' => e.Coherent t' := by
  refine .bind (.onTypes (TypeM.intern_yields_plain hparts hshape hstruct))
    (onTypes_grows (TypeM.intern_grows _ hstruct)) fun ty t₁ _ ⟨hty, hplain⟩ => .pure fun _ h₂ => ?_
  exact Coherent.mono (t := t₁) (hrule t₁ ty span hty hplain.shape_eq) h₂

theorem integer_yields {value : Int64} : Yields t (integer value span) fun e t' => e.Coherent t' :=
  literal_yields nofun nofun fun _ _ _ h hs => ⟨h, TypeTable.isInteger_iff.2 ⟨_, _, hs⟩⟩

theorem typedInteger_yields {value : Int64} {ty : TypeId} :
    Yields t (typedInteger value ty span) fun e t' => e.Coherent t' := by
  refine .currentTypes fun t₁ _ => .ite (fun h => .pure fun t₂ h₂ => ?_) fun _ => .reject
  obtain ⟨bits, signed, hs⟩ := TypeTable.isInteger_iff.1 h
  have hty : t₁.Has ty := TypeTable.has_of_shape (by rw [hs]; exact nofun)
  exact Coherent.mono (t := t₁) (show Ruled t₁ _ from ⟨hty, h⟩) h₂

theorem float_yields {value : Float} {width : FloatWidth} :
    Yields t (float value width span) fun e t' => e.Coherent t' :=
  literal_yields nofun nofun fun _ _ _ h _ => ⟨h, trivial⟩

theorem bool_yields {value : Bool} : Yields t (bool value span) fun e t' => e.Coherent t' :=
  literal_yields nofun nofun fun _ _ _ h hs => ⟨h, TypeTable.isBool_iff.2 hs⟩

theorem nullptr_yields : Yields t (nullptr span) fun e t' => e.Coherent t' :=
  literal_yields nofun nofun fun _ _ _ h _ => ⟨h, trivial⟩

theorem string_yields {text : String} : Yields t (string text span) fun e t' => e.Coherent t' := by
  refine .bind (.onTypes (TypeM.intern_yields nofun nofun)) (onTypes_grows (TypeM.intern_grows _))
    fun byte t₁ _ hbyte => .bind (.onTypes (TypeM.withConst_yields hbyte)) (onTypes_grows (TypeM.withConst_grows _ _))
    fun element t₂ _ hel => ?_
  exact literal_yields nofun (fun p hp => List.mem_singleton.1 hp ▸ hel.has) fun _ _ _ h _ => ⟨h, trivial⟩

end Leaves

/-! ### Operations -/

theorem unary_yields {op : UnaryOp} {child : Expr} {span : Span} (h : child.Coherent t) :
    Yields t (unary op child span) fun e t' => e.Coherent t' :=
  .bind (.check (Typing.unary_yields h)) (check_grows (Typing.unary_grows _ _ _)) fun _ t₁ _ hr =>
    .pure fun _ h₂ => Coherent.mono (t := t₁) ⟨⟨hr.has, hr.rule⟩, hr.child⟩ h₂

theorem binary_yields {op : BinaryOp} {left right : Expr} {span : Span} (hl : left.Coherent t)
    (hr : right.Coherent t) :
    Yields t (binary op left right span) fun e t' => e.Coherent t' :=
  .bind (.check (Typing.binary_yields hl hr)) (check_grows (Typing.binary_grows _ _ _ _))
    fun _ _ _ hr => .pure fun _ h₂ => (hr span).mono h₂

theorem call_yields {callee : Expr} {args : List Expr} {span : Span} (hc : callee.Coherent t)
    (ha : ∀ e ∈ args, e.Coherent t) : Yields t (call callee args span) fun e t' => e.Coherent t' :=
  .bind (.check (Typing.call_yields hc ha)) (check_grows (Typing.call_grows _ _ _))
    fun _ _ _ hr => .pure fun _ h₂ => (hr span).mono h₂

theorem proxy_coherent {target : Expr} {span : Span} (h : target.Coherent t) : (proxy target span).Coherent t :=
  ⟨⟨h.has, rfl⟩, h⟩

theorem implicitCast_yields {child : Expr} {ty : TypeId} (h : child.Coherent t) (hty : t.Has ty) :
    Yields t (implicitCast child ty) (Typing.Converted (t.dim? child.ty) ty) :=
  .check (Typing.implicitCast_yields h hty)

/-- A choice between arrays without bound is one. -/
theorem choiceType_yields {a b : TypeId} (ha : t.Has a) (hb : t.Has b) :
    TypeM.Yields t (choiceType a b) fun r t' => ∀ ty, r = some ty →
      t'.Has ty ∧ ∀ dim, t'.dim? ty = some dim → t.dim? a = some dim ∧ t.dim? b = some dim := by
  refine .get fun t₁ h₁ => ?_
  refine .ite (fun hvoid => ?_) fun _ => ?_
  · refine .pure fun t₂ h₂ ty hty => ?_
    cases hty
    refine ⟨ha.mono (h₁.trans h₂), fun dim hdim => ?_⟩
    have hs : t₁.shape a = .void := by simpa [TypeTable.isVoid] using (Bool.and_eq_true_iff.1 hvoid).1
    replace hdim : t₂.dim? a = some dim := hdim
    rw [(ha.mono h₁).dim?_eq h₂, TypeTable.dim?, hs] at hdim
    cases hdim
  · refine .bind (TypeM.withConst_yields (ha.mono h₁)) (TypeM.withConst_grows _ _) fun x t₂ h₂ hx =>
      .bind (TypeM.withConst_yields (hb.mono (h₁.trans h₂))) (TypeM.withConst_grows _ _) fun y t₃ h₃ hy => ?_
    replace hx := hx.mono (ha.mono (h₁.trans h₂)) h₃
    have hle := (h₁.trans h₂).trans h₃
    have hdimx : t₃.dim? x = t.dim? a := (TypeTable.dim?_congr hx.spelling.1).trans (ha.dim?_eq hle)
    have hdimy : t₃.dim? y = t.dim? b := (TypeTable.dim?_congr hy.spelling.1).trans (hb.dim?_eq hle)
    refine .of_spec fun t₄ r t₅ h₄ hc hr => ?_
    have hyields := TypeM.common_yields hx.has hy.has
    refine ⟨hyields.canonical h₄ hc hr, fun ty hty => ?_⟩
    have hcommon := hyields.result h₄ hc hr ty hty
    refine ⟨hcommon.has, fun dim hdim => ?_⟩
    have hle' := h₄.trans ((TypeM.common_grows _ _).le hr)
    rw [← hdimx, ← hdimy, ← hx.has.dim?_eq hle', ← hy.has.dim?_eq hle']
    exact hcommon.dim?_eq dim hdim

theorem conditional_yields {cond thenExpr elseExpr : Expr} {span : Span} (hc : cond.Coherent t)
    (ha : thenExpr.Coherent t) (hb : elseExpr.Coherent t) :
    Yields t (conditional cond thenExpr elseExpr span) fun e t' => e.Coherent t' := by
  refine .bind (.onTypes Typing.bool_yields) (onTypes_grows Typing.bool_grows) fun bool t₁ h₁ hbool =>
    .bind (implicitCast_yields (hc.mono h₁) hbool.1) (implicitCast_grows _ _) fun cond t₂ h₂ hcond => ?_
  have hle₂ := h₁.trans h₂
  refine .bind (.onTypes (choiceType_yields (ha.has.mono hle₂) (hb.has.mono hle₂)))
    (onTypes_grows (choiceType_grows _ _)) fun ty t₃ h₃ hty => ?_
  cases ty with
  | none => exact .currentTypes fun _ _ => .reject
  | some ty =>
    obtain ⟨hhas, hdim⟩ := hty ty rfl
    have hle₃ := hle₂.trans h₃
    refine .bind (implicitCast_yields (ha.mono hle₃) hhas) (implicitCast_grows _ _) fun thenExpr' t₄ h₄ hthen =>
      .bind (implicitCast_yields (hb.mono (hle₃.trans h₄)) (hhas.mono h₄)) (implicitCast_grows _ _)
        fun elseExpr' t₅ h₅ helse => .pure fun t₆ h₆ => Coherent.mono (t := t₅) ?_ h₆
    have hcond₅ := hcond.mono ((h₃.trans h₄).trans h₅)
    have hbool₅ := hbool.2.mono hbool.1 (((h₂.trans h₃).trans h₄).trans h₅)
    have hthen₅ := hthen.mono h₅
    have hequals : t₅.equals thenExpr'.ty ty = true := by
      refine hthen₅.equals fun hzero dim hdim' => ?_
      rw [hhas.dim?_eq (h₄.trans h₅)] at hzero
      rw [ha.has.dim?_eq hle₃, ← ha.has.dim?_eq hle₂, (hdim 0 hzero).1] at hdim'
      exact (Option.some.inj hdim').symm
    have hequals' : t₅.equals elseExpr'.ty ty = true := by
      refine helse.equals fun hzero dim hdim' => ?_
      rw [hhas.dim?_eq (h₄.trans h₅)] at hzero
      rw [hb.has.dim?_eq (hle₃.trans h₄), ← hb.has.dim?_eq hle₂, (hdim 0 hzero).2] at hdim'
      exact (Option.some.inj hdim').symm
    exact ⟨⟨helse.has, hcond₅.bool hbool₅, hequals, hequals'⟩, hcond₅.coherent, hthen₅.coherent, helse.coherent⟩

theorem cast_yields {child : Expr} {ty : TypeId} {span : Span} (h : child.Coherent t) (hty : t.Has ty) :
    Yields t (cast child ty span) fun e t' => e.Coherent t' :=
  .check (Typing.explicitCast_yields h hty)

/-! ### Members and braces -/

section Members

variable {span : Span}

theorem member_yields {object : Expr} {name : String} (hclosed : t.Closed) (h : object.Coherent t) :
    Yields t (member object name span) fun e t' => e.Coherent t' := by
  refine .currentTypes fun t₁ h₁ => .ite (fun _ => .reject) fun _ => ?_
  have hobject := h.mono h₁
  cases hm : t₁.member object.ty name with
  | error error => exact .reject
  | ok p =>
    obtain ⟨index, ty⟩ := p
    have hty := (hclosed.steps h₁).member_has hm
    refine .either
      (R := fun ty' t' => t'.Has ty' ∧ if t₁.isConst object.ty then t'.Qualified ty true ty' else ty' = ty)
      (fun hconst => .imp (.onTypes (TypeM.withConst_yields hty)) fun _ _ h => ⟨h.has, ?_⟩)
      (onTypes_grows (TypeM.withConst_grows _ _)) (fun hconst => .pure fun _ ht => ⟨hty.mono ht, if_neg hconst ▸ rfl⟩)
      (.pure _) (fun ty' t₂ h₂ ⟨hhas, hty'⟩ => .pure fun t₃ h₃ => Coherent.mono (t := t₂) ?_ h₃)
    · rw [if_pos hconst]
      exact h
    · rw [← hobject.has.isConst_eq h₂] at hty'
      exact ⟨⟨hhas, ty, hty.mono h₂, hobject.has.member_of_le h₂ hm, hty'⟩, hobject.mono h₂⟩

theorem arrow_yields {pointer : Expr} {name : String} (hclosed : t.Closed) (h : pointer.Coherent t) :
    Yields t (arrow pointer name span) fun e t' => e.Coherent t' :=
  .bind (unary_yields h) (unary_grows _ _ _) fun _ _ h₁ hobject => member_yields (hclosed.steps h₁) hobject

theorem initialized_has {ty : TypeId} {count : Nat} {targets : List TypeId} (hclosed : t.Closed)
    (hty : t.Has ty) (h : initialized t ty count = .ok targets) : ∀ x ∈ targets, t.Has x := by
  unfold initialized at h
  split at h
  · rename_i element dim hs
    cases h
    intro x hx
    obtain rfl := List.eq_of_mem_replicate hx
    exact hty.part (by rw [hs]; exact List.mem_singleton_self _)
  · cases hms : t.members ty with
    | error error =>
      rw [hms] at h
      cases h
    | ok ms =>
      rw [hms] at h
      cases h
      intro x hx
      obtain ⟨m, hm, rfl⟩ := List.mem_map.1 hx
      exact hclosed.members_has hms m hm
  · cases h
    intro x hx
    exact List.mem_singleton.1 hx ▸ hty

theorem convertAll_yields : ∀ {t : TypeTable} {es : List Expr} {tys : List TypeId},
    (∀ e ∈ es, e.Coherent t) → (∀ ty ∈ tys, t.Has ty) →
      Yields t (convertAll es tys) fun es' t' => ∀ e ∈ es', e.Coherent t'
  | t, [], _, _, _ => .pure fun _ _ _ => nofun
  | t, _ :: _, [], _, _ => .pure fun _ _ _ => nofun
  | t, e :: es, ty :: tys, hes, htys => by
    refine .bind (implicitCast_yields (hes e (List.mem_cons_self ..)) (htys ty (List.mem_cons_self ..)))
      (implicitCast_grows _ _) fun e t₁ h₁ he => ?_
    refine .bind (convertAll_yields (fun e he => (hes e (List.mem_cons_of_mem _ he)).mono h₁)
      fun ty hty => (htys ty (List.mem_cons_of_mem _ hty)).mono h₁) (convertAll_grows _ _)
      fun es t₂ h₂ hes => .pure fun t₃ h₃ e' he' => ?_
    rcases List.mem_cons.1 he' with rfl | he'
    · exact he.coherent.mono (h₂.trans h₃)
    · exact (hes e' he').mono h₃

theorem aggregate_yields {elements : List Expr} {ty : TypeId} (hclosed : t.Closed)
    (hes : ∀ e ∈ elements, e.Coherent t) (hty : t.Has ty) :
    Yields t (aggregate elements ty span) fun e t' => e.Coherent t' := by
  refine .currentTypes fun t₁ h₁ => ?_
  have hty₁ := hty.mono h₁
  split
  · exact .reject
  · rename_i targets htargets
    have hconverted := convertAll_yields (fun e he => (hes e he).mono h₁)
      (initialized_has (hclosed.steps h₁) hty₁ htargets)
    refine .ite (fun _ => .reject) fun _ => .bind hconverted (convertAll_grows _ _) fun converted t₂ h₂ hconv =>
      .bind (.onTypes (TypeM.bindArray_yields (hty₁.mono h₂))) (onTypes_grows (TypeM.bindArray_grows _ _))
      fun ty' t₃ h₃ hty' => .pure fun t₄ h₄ => ?_
    exact ⟨⟨hty'.has.mono h₄, trivial⟩, allOf_iff.2 fun e he => (hconv e he).mono (h₃.trans h₄)⟩

end Members

end Node

end TypedCore
