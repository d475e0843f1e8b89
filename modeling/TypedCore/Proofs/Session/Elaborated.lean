import TypedCore.Proofs.Session.Reachable
import TypedCore.Proofs.Typing.Formed

/-!
# Sessions hand out elaborated expressions

Whatever a session has handed out is `Elaborated`: besides the types also the forms of operands and braces
are right at every node. A name that is bound to a value is bound to one that has been handed out.
-/

namespace TypedCore

/-! ### Constructors -/

namespace Node

open Session Expr Typing

variable {t t' : TypeTable} {span : Span}

theorem unary_elaborated {op : UnaryOp} {child : Expr} (h : child.Elaborated t) :
    Yields t (unary op child span) fun e t' => e.Elaborated t' :=
  .bind (.check (Typing.unary_elaborated h)) (check_grows (Typing.unary_grows _ _ _)) fun _ _ _ hr =>
    .pure fun _ h₂ => (hr span).mono h₂

theorem binary_elaborated {op : BinaryOp} {left right : Expr} (hl : left.Elaborated t) (hr : right.Elaborated t) :
    Yields t (binary op left right span) fun e t' => e.Elaborated t' :=
  .bind (.check (Typing.binary_elaborated hl hr)) (check_grows (Typing.binary_grows _ _ _ _))
    fun _ _ _ hr => .pure fun _ h₂ => (hr span).mono h₂

theorem call_elaborated {callee : Expr} {args : List Expr} (hc : callee.Elaborated t)
    (ha : ∀ e ∈ args, e.Elaborated t) : Yields t (call callee args span) fun e t' => e.Elaborated t' :=
  .bind (.check (Typing.call_elaborated hc ha)) (check_grows (Typing.call_grows _ _ _))
    fun _ _ _ hr => .pure fun _ h₂ => (hr span).mono h₂

theorem nullptr_elaborated : Yields t (nullptr span) fun e t' => e.Elaborated t' := by
  refine .bind (.onTypes (TypeM.intern_yields_plain nofun nofun)) (onTypes_grows (TypeM.intern_grows _))
    fun ty t₁ _ ⟨hty, hplain⟩ => .pure fun t₂ h₂ => Elaborated.mono (t := t₁) ⟨⟨hty, trivial⟩, ?_⟩ h₂
  show t₁.isPointer ty = true
  rw [TypeTable.isPointer, hplain.shape_eq]

theorem conditional_elaborated {cond thenExpr elseExpr : Expr} (hc : cond.Elaborated t) (ha : thenExpr.Elaborated t)
    (hb : elseExpr.Elaborated t) :
    Yields t (conditional cond thenExpr elseExpr span) fun e t' => e.Elaborated t' := by
  refine ((conditional_yields hc.coherent ha.coherent hb.coherent).and (R := fun e t' => e.All (Formed t')) ?_).imp
    fun _ _ h => ⟨h.1, h.2⟩
  refine .bind (.onTypes Typing.bool_yields) (onTypes_grows Typing.bool_grows) fun bool t₁ h₁ hbool =>
    .bind (.check (implicitCast_elaborated (hc.mono h₁) hbool.1)) (implicitCast_grows _ _)
    fun cond t₂ h₂ hcond => ?_
  have hle₂ := h₁.trans h₂
  refine .bind (.onTypes (choiceType_yields (ha.has.mono hle₂) (hb.has.mono hle₂)))
    (onTypes_grows (choiceType_grows _ _)) fun ty t₃ h₃ hty => ?_
  cases ty with
  | none => exact .currentTypes fun _ _ => .reject
  | some ty =>
    have hhas := (hty ty rfl).1
    have hle₃ := hle₂.trans h₃
    refine .bind (.check (implicitCast_elaborated (ha.mono hle₃) hhas)) (implicitCast_grows _ _)
      fun thenExpr' t₄ h₄ hthen => .bind (.check (implicitCast_elaborated (hb.mono (hle₃.trans h₄)) (hhas.mono h₄)))
        (implicitCast_grows _ _) fun elseExpr' t₅ h₅ helse => .pure fun t₆ h₆ => ?_
    exact ⟨trivial, (hcond.mono ((h₃.trans h₄).trans (h₅.trans h₆))).formed, (hthen.mono (h₅.trans h₆)).formed,
      (helse.mono h₆).formed⟩

section Members

theorem member_elaborated {object : Expr} {name : String} (hclosed : t.Closed) (h : object.Elaborated t) :
    Yields t (member object name span) fun e t' => e.Elaborated t' := by
  refine ((member_yields hclosed h.coherent).and (R := fun e t' => e.All (Formed t')) ?_).imp fun _ _ h => ⟨h.1, h.2⟩
  refine .currentTypes fun t₁ h₁ => .ite (fun _ => .reject) fun _ => ?_
  split
  · exact .reject
  · exact .either (R := fun _ _ => True) (fun _ => .onTypes (TypeM.withConst_keeps _ _ _))
      (onTypes_grows (TypeM.withConst_grows _ _)) (fun _ => .pure fun _ _ => trivial) (.pure _) fun ty t₂ h₂ _ =>
      .pure fun t₃ h₃ => ⟨trivial, (h.mono ((h₁.trans h₂).trans h₃)).formed⟩

theorem arrow_elaborated {pointer : Expr} {name : String} (hclosed : t.Closed) (h : pointer.Elaborated t) :
    Yields t (arrow pointer name span) fun e t' => e.Elaborated t' :=
  .bind (unary_elaborated h) (unary_grows _ _ _) fun _ _ h₁ hobject => member_elaborated (hclosed.steps h₁) hobject

/-! ### Braces -/

/-- Elements are converted to the types of the parts that they stand for. -/
theorem convertAll_passed : ∀ {t : TypeTable} {es : List Expr} {tys : List TypeId}, es.length ≤ tys.length →
    (∀ e ∈ es, e.Elaborated t) → (∀ ty ∈ tys, t.Has ty) →
      Yields t (convertAll es tys) fun es' t' => Passed tys es.length es' t' ∧ ∀ e ∈ es', e.Elaborated t'
  | t, [], _, _, _, _ => .pure fun _ _ => ⟨⟨nofun, rfl, by simp, by simp⟩, nofun⟩
  | t, e :: es, ty :: tys, hlen, hes, htys => by
    have he := hes e (List.mem_cons_self ..)
    have hty := htys ty (List.mem_cons_self ..)
    refine .bind ((implicitCast_yields he.coherent hty).and (.check (implicitCast_elaborated he hty)))
      (implicitCast_grows _ _) fun e' t₁ h₁ he' => ?_
    refine .bind (convertAll_passed (Nat.le_of_succ_le_succ hlen)
      (fun e he => (hes e (List.mem_cons_of_mem _ he)).mono h₁)
      fun ty hty => (htys ty (List.mem_cons_of_mem _ hty)).mono h₁) (convertAll_grows _ _)
      fun es' t₂ h₂ hes' => .pure fun t₃ h₃ => ⟨?_, List.forall_mem_cons.2 ⟨?_, fun a ha => ?_⟩⟩
    · have he₂ := he'.1.mono h₂
      exact (hes'.1.cons_fixed he₂.coherent he₂.takes).mono (fun p hp => (htys p hp).mono (h₁.trans h₂)) h₃
    · exact he'.2.mono (h₂.trans h₃)
    · exact (hes'.2 a ha).mono h₃

theorem takes_of_replicate {element : TypeId} {n : Nat} {args : List TypeId} (hlen : args.length ≤ n)
    (h : ∀ p ∈ (List.replicate n element).zip args, Takes t p.1 p.2) : ∀ x ∈ args, Takes t element x := by
  intro x hx
  obtain ⟨i, hi, rfl⟩ := List.getElem_of_mem hx
  refine h (element, args[i]) (List.mem_iff_getElem.2 ⟨i, by simp; omega, ?_⟩)
  simp

theorem bindArray_yields_or {ty : TypeId} {dim : Nat} (hty : t.Has ty) :
    TypeM.Yields t (TypeM.bindArray ty dim) fun ty' t' =>
      t'.Has ty' ∧ (t'.Bounds ty dim ty' ∨ (∀ element, t.shape ty ≠ .array element 0) ∧ ty' = ty) := by
  refine .of_spec fun t₁ ty' t' ht hc h => ?_
  by_cases hs : ∃ element, t₁.shape ty = .array element 0
  · obtain ⟨element, hs⟩ := hs
    obtain ⟨hc', hhas, hbounds⟩ := TypeM.bindArray_bounds h hc (hty.mono ht) hs
    exact ⟨hc', hhas, .inl hbounds⟩
  · obtain ⟨rfl, rfl⟩ := TypeM.bindArray_eq h (not_exists.1 hs)
    refine ⟨hc, hty.mono ht, .inr ⟨fun element => ?_, rfl⟩⟩
    rw [← hty.shape_eq ht]
    exact not_exists.1 hs element

/-- Elements that have been converted fit the parts of the type that their braces get. -/
theorem bracesRule_of_passed {ty ty' : TypeId} {count : Nat} {targets : List TypeId} {es : List Expr}
    (hclosed : t.Closed) (hty : t.Has ty) (hinit : initialized t ty count = .ok targets)
    (hcount : count ≤ targets.length) (ht : t ≤ t') (hes : Passed targets count es t')
    (hty' : t'.Bounds ty count ty' ∨ (∀ element, t.shape ty ≠ .array element 0) ∧ ty' = ty) :
    BracesRule t' ty' (es.map Expr.ty) := by
  have hlen : (es.map Expr.ty).length ≤ count := Nat.le_of_eq (by rw [List.length_map, hes.length_eq])
  have hshape := hty.shape_eq ht
  rcases hty' with ⟨element, hs, hs', -⟩ | ⟨hbound, rfl⟩
  · rw [hshape] at hs
    simp only [initialized, hs, if_true, Except.ok.injEq] at hinit
    subst hinit
    unfold BracesRule
    rw [hs']
    exact ⟨hlen, takes_of_replicate hlen hes.fixed⟩
  · unfold BracesRule initialized at *
    rw [hshape]
    cases hs : t.shape ty' with
    | array element dim =>
      have hdim : dim ≠ 0 := fun h => hbound element (h ▸ hs)
      simp only [hs, if_neg hdim, Except.ok.injEq] at hinit
      subst hinit
      rw [List.length_replicate] at hcount
      exact ⟨by omega, takes_of_replicate (Nat.le_trans hlen hcount) hes.fixed⟩
    | struct id =>
      simp only [hs] at hinit
      cases hms : t.members ty' with
      | error error =>
        rw [hms] at hinit
        cases hinit
      | ok ms =>
        rw [hms] at hinit
        cases hinit
        obtain ⟨id', hs', hmembers⟩ := TypeTable.members_ok_iff.1 hms
        cases hs.symm.trans hs'
        rw [List.length_map] at hcount
        exact ⟨ms, TypeTable.structMembers_of_le ht hmembers, fun m hm => (hclosed.members_has hms m hm).mono ht,
          Nat.le_trans hlen hcount, hes.fixed⟩
    | _ =>
      simp only [hs, Except.ok.injEq] at hinit
      subst hinit
      exact ⟨Nat.le_trans hlen hcount, takes_of_replicate (n := 1) (Nat.le_trans hlen hcount) hes.fixed⟩

theorem aggregate_elaborated {elements : List Expr} {ty : TypeId} (hclosed : t.Closed)
    (hes : ∀ e ∈ elements, e.Elaborated t) (hty : t.Has ty) :
    Yields t (aggregate elements ty span) fun e t' => e.Elaborated t' := by
  refine ((aggregate_yields hclosed (fun e he => (hes e he).coherent) hty).and (R := fun e t' => e.All (Formed t'))
    ?_).imp fun _ _ h => ⟨h.1, h.2⟩
  refine .currentTypes fun t₀ h₀ => ?_
  have hclosed₀ := hclosed.steps h₀
  have hty₀ := hty.mono h₀
  split
  · exact .reject
  · rename_i targets htargets
    have htargets' := initialized_has hclosed₀ hty₀ htargets
    refine .ite (fun _ => .reject) fun hcount => .bind
      (convertAll_passed (Nat.le_of_not_lt hcount) (fun e he => (hes e he).mono h₀) htargets')
      (convertAll_grows _ _) fun converted t₁ h₁ ⟨hpassed, hconv⟩ => ?_
    rw [hpassed.length_eq]
    refine .bind (.onTypes (bindArray_yields_or (hty₀.mono h₁))) (onTypes_grows (TypeM.bindArray_grows _ _))
      fun ty' t₂ h₂ ⟨hhas, hty'⟩ => .pure fun t₃ h₃ => ⟨?_, ?_⟩
    · rw [hty₀.shape_eq h₁] at hty'
      have hrule := bracesRule_of_passed hclosed₀ hty₀ htargets (Nat.le_of_not_lt hcount) (h₁.trans h₂)
        (hpassed.mono (fun p hp => (htargets' p hp).mono h₁) h₂) hty'
      refine BracesRule.mono hrule hhas (fun x hx => ?_) h₃
      obtain ⟨e, he, rfl⟩ := List.mem_map.1 hx
      exact ((hconv e he).mono h₂).has
    · exact allOf_iff.2 fun e he => ((hconv e he).mono (h₂.trans h₃)).formed

end Members

end Node

/-! ### Reachable sessions -/

namespace Session

open Expr

variable {s s' : Session} {es : List Expr}

/-- A binding whose value, if there is one, is among `es`. -/
def BoundTo (es : List Expr) (b : Binding) : Prop := ∀ e, b.value = some e → e ∈ es

theorem Initializes.elaborated {ty ty' : TypeId} {init init' : Option Expr} (h : Initializes ty s init init' ty' s')
    (hc : s.types.Canonical) (hty : s.types.Has ty) (hinit : ∀ e, init = some e → e.Elaborated s.types) :
    ∀ e, init' = some e → e.Elaborated s'.types := by
  cases h with
  | absent => exact nofun
  | @converted e e' s' hcast =>
    intro e₁ he₁
    cases he₁
    exact (Yields.check (Typing.implicitCast_elaborated (hinit e rfl) hty)).result le_rfl hc hcast

theorem bind_boundTo {name : String} {binding : Binding} {span : Span} {target : Target} {r : Except Stop SymbolId}
    (h : s.symbols.Holds (BoundTo es)) (hb : BoundTo es binding)
    (hx : Ends (Session.bind name binding span target) s r s') : s'.symbols.Holds (BoundTo es) := by
  rcases bind_cases hx with ⟨stop, log, -, rfl⟩ | ⟨id, symbols, -, hd, rfl⟩
  · exact h
  · exact h.declare hb hd

/-- What names are bound to has been handed out. -/
theorem Reachable.boundTo (h : Reachable s es) : s.symbols.Holds (BoundTo es) := by
  induction h with
  | new options source =>
    intro scope hscope symbol hsymbol
    obtain rfl := List.mem_singleton.1 hscope
    cases hsymbol
  | @construct s s' es x r h hx hr ih =>
    rw [(hx.grows hr).symbols]
    exact ih.imp fun b hb e he => List.mem_append_right _ (hb e he)
  | types h ht ih => exact ih
  | @declareVariable s s' es name ty init span r h hty hinit hr ih =>
    have ih' : s.symbols.Holds (BoundTo ((r.toOption.bind (·.init)).toList ++ es)) :=
      ih.imp fun b hb e he => List.mem_append_right _ (hb e he)
    rcases declareVariable_cases hr with ⟨-, hg⟩ | ⟨d, s₁, symbols, rfl, hinits, -, -, hd, rfl⟩
    · rw [hg.symbols]
      exact ih'
    · rw [hinits.grown.symbols] at hd
      refine ih'.declare (fun e he => List.mem_append_left _ ?_) hd
      exact Option.mem_toList.2 (variableBinding_value he)
  | declareFunction h hty hr ih =>
    rcases declareFunction_cases hr with ⟨symbol, -, -, -, -, rfl⟩ | hr
    · exact ih
    · exact bind_boundTo ih (fun e he => by cases he) hr
  | declareParameter h hty hr ih => exact bind_boundTo ih (fun e he => by cases he) hr
  | declareStruct h hr ih =>
    rcases declareStruct_cases hr with ⟨tag, -, -, rfl⟩ | ⟨ty, types, id, tags, -, -, -, rfl⟩
    · exact ih
    · exact ih
  | completeStruct h hm hr ih =>
    rcases completeStruct_cases hr with ⟨stop, log, -, rfl⟩ | ⟨types, -, -, rfl⟩
    · exact ih
    · exact ih
  | openScope h ih => exact ih.openScope
  | closeScope h ih => exact ih.closeScope

theorem Constructs.elaborated {x : SessionM Expr} {e : Expr} (h : Constructs s.types es x) (hs : s.Sound)
    (hbound : s.symbols.Holds (BoundTo es)) (hes : ∀ e ∈ es, e.Elaborated s.types) (hx : Ends x s (.ok e) s') :
    e.Elaborated s'.types := by
  have hc := hs.canonical
  have hcoherent := (h.yields hs (fun e he => (hes e he).coherent) hx).2 e rfl
  cases h with
  | integer | float | bool =>
    obtain ⟨ty, s₁, -, hx⟩ := Ends.bind_ok_iff.1 hx
    obtain ⟨he, rfl⟩ := Ends.pure_iff.1 hx
    cases he
    exact ⟨hcoherent, trivial⟩
  | typedInteger =>
    refine ⟨hcoherent, ?_⟩
    unfold Node.typedInteger at hx
    rw [currentTypes_bind_iff] at hx
    split at hx
    · obtain ⟨he, rfl⟩ := Ends.pure_iff.1 hx
      cases he
      trivial
    · exact absurd hx not_reject_ok
  | nullptr => exact Node.nullptr_elaborated.result le_rfl hc hx
  | string =>
    obtain ⟨byte, s₁, -, hx⟩ := Ends.bind_ok_iff.1 hx
    obtain ⟨element, s₂, -, hx⟩ := Ends.bind_ok_iff.1 hx
    obtain ⟨ty, s₃, -, hx⟩ := Ends.bind_ok_iff.1 hx
    obtain ⟨he, rfl⟩ := Ends.pure_iff.1 hx
    cases he
    exact ⟨hcoherent, trivial⟩
  | identifier =>
    refine ⟨hcoherent, ?_⟩
    unfold Node.identifier at hx
    rw [Ends.get_bind_iff] at hx
    split at hx
    · rename_i symbol hl
      obtain ⟨he, rfl⟩ := Ends.pure_iff.1 hx
      cases he
      cases hv : symbol.value.value with
      | none => exact trivial
      | some v => exact ⟨trivial, (hes v (hbound.lookup hl v hv)).formed⟩
    · exact absurd hx not_reject_ok
  | proxy h =>
    obtain ⟨he, rfl⟩ := Ends.pure_iff.1 hx
    cases he
    exact ⟨hcoherent, trivial, (hes _ h).formed⟩
  | unary op h => exact (Node.unary_elaborated (hes _ h)).result le_rfl hc hx
  | binary op hl hr => exact (Node.binary_elaborated (hes _ hl) (hes _ hr)).result le_rfl hc hx
  | call hcallee ha => exact (Node.call_elaborated (hes _ hcallee) fun e he => hes e (ha e he)).result le_rfl hc hx
  | conditional hcond ha hb =>
    exact (Node.conditional_elaborated (hes _ hcond) (hes _ ha) (hes _ hb)).result le_rfl hc hx
  | member h => exact (Node.member_elaborated hs.closed (hes _ h)).result le_rfl hc hx
  | arrow h => exact (Node.arrow_elaborated hs.closed (hes _ h)).result le_rfl hc hx
  | cast h hty => exact (Yields.check (Typing.explicitCast_elaborated (hes _ h) hty)).result le_rfl hc hx
  | implicitCast h hty => exact (Yields.check (Typing.implicitCast_elaborated (hes _ h) hty)).result le_rfl hc hx
  | aggregate h hty =>
    exact (Node.aggregate_elaborated hs.closed (fun e he => hes e (h e he)) hty).result le_rfl hc hx

/-- Types are only ever added to those of a new session. -/
theorem Reachable.steps (h : Reachable s es) : ∃ sizeBits, TypeTable.Steps (.empty sizeBits) s.types := by
  have hlater {s s' : Session} (h : ∃ sizeBits, TypeTable.Steps (.empty sizeBits) s.types)
      (hle : s.types ≤ s'.types) : ∃ sizeBits, TypeTable.Steps (.empty sizeBits) s'.types :=
    ⟨h.choose, h.choose_spec.trans hle⟩
  induction h with
  | new options source => exact ⟨_, .refl⟩
  | construct h hx hr ih => exact hlater ih (hx.grows hr).le
  | types h ht ih => exact hlater ih ht.steps.le
  | declareVariable h hty hinit hr ih =>
    exact hlater ih (declareVariable_sound h.sound.1 hty (fun e he => h.sound.2 e (hinit e he)) hr).2.1
  | declareFunction h hty hr ih => exact hlater ih (declareFunction_sound h.sound.1 hty hr).2
  | declareParameter h hty hr ih => exact hlater ih (bind_sound h.sound.1 ⟨hty, fun e he => by cases he⟩ hr).2
  | declareStruct h hr ih => exact hlater ih (declareStruct_sound h.sound.1 hr).2
  | completeStruct h hm hr ih => exact hlater ih (completeStruct_sound h.sound.1 hm hr).2
  | openScope h ih => exact ih
  | @closeScope s es h ih => exact hlater ih s.closeScope_le

/-- Everything that a session has handed out is elaborated. -/
theorem Reachable.elaborated (h : Reachable s es) : ∀ e ∈ es, e.Elaborated s.types := by
  have hlater {s s' : Session} {es : List Expr} (hes : ∀ e ∈ es, e.Elaborated s.types) (hle : s.types ≤ s'.types) :
      ∀ e ∈ es, e.Elaborated s'.types := fun e he => (hes e he).mono hle
  induction h with
  | new options source => exact nofun
  | @construct s s' es x r h hx hr ih =>
    intro e he
    rcases List.mem_append.1 he with he | he
    · cases r with
      | error => cases he
      | ok e' =>
        obtain rfl := List.mem_singleton.1 he
        exact hx.elaborated h.sound.1 h.boundTo ih hr
    · exact (ih e he).mono (hx.grows hr).le
  | types h ht ih => exact hlater ih ht.steps.le
  | @declareVariable s s' es name ty init span r h hty hinit hr ih =>
    intro e he
    rcases List.mem_append.1 he with he | he
    · rcases declareVariable_cases hr with ⟨⟨stop, rfl⟩, -⟩ | ⟨d, s₁, symbols, rfl, hinits, -, -, -, rfl⟩
      · cases he
      · exact hinits.elaborated h.sound.1.canonical hty (fun e he => ih e (hinit e he)) e (Option.mem_toList.1 he)
    · exact (ih e he).mono (declareVariable_sound h.sound.1 hty (fun e he => h.sound.2 e (hinit e he)) hr).2.1
  | declareFunction h hty hr ih => exact hlater ih (declareFunction_sound h.sound.1 hty hr).2
  | declareParameter h hty hr ih => exact hlater ih (bind_sound h.sound.1 ⟨hty, fun e he => by cases he⟩ hr).2
  | declareStruct h hr ih => exact hlater ih (declareStruct_sound h.sound.1 hr).2
  | completeStruct h hm hr ih => exact hlater ih (completeStruct_sound h.sound.1 hm hr).2
  | openScope h ih => exact ih
  | @closeScope s es h ih => exact hlater ih s.closeScope_le.le

end Session

end TypedCore
