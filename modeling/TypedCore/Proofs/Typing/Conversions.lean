import TypedCore.Proofs.Typing.Coherent

/-!
# Conversions of expressions

A conversion of a coherent expression is coherent and of the type that is wanted, apart from arrays
without bound. What rules and constructors do is put together from such steps by `Session.Yields`.
-/

namespace TypedCore

namespace Session

variable {ε α β : Type}

/-- A computation leaves the types alone. -/
def Quiet (x : ExceptT ε (StateM Session) α) : Prop := ∀ ⦃s r s'⦄, Ends x s r s' → s'.types = s.types

namespace Quiet

theorem pure (a : α) : Quiet (Pure.pure a : ExceptT ε (StateM Session) α) :=
  fun _ _ _ h => congrArg types (Ends.pure_iff.1 h).2

theorem throw (e : ε) : Quiet (throw e : ExceptT ε (StateM Session) α) :=
  fun _ _ _ h => congrArg types (Ends.throw_iff.1 h).2

theorem get : Quiet (get : ExceptT ε (StateM Session) Session) :=
  fun _ _ _ h => congrArg types (Ends.get_iff.1 h).2

theorem bind {x : ExceptT ε (StateM Session) α} {f : α → ExceptT ε (StateM Session) β} (hx : Quiet x)
    (hf : ∀ a, Quiet (f a)) : Quiet (x >>= f) := by
  intro s r s' h
  rcases Ends.bind_iff.1 h with ⟨a, s₁, h₁, h₂⟩ | ⟨e, -, h₁⟩
  · exact (hf a h₂).trans (hx h₁)
  · exact hx h₁

end Quiet

theorem warn_quiet (message : String) (span : Span) :
    Quiet (warn message span : ExceptT ε (StateM Session) Unit) := by
  intro s r s' h
  obtain ⟨-, rfl⟩ := Ends.modify_iff.1 h
  rfl

theorem reject_quiet (r : Rejection) : Quiet (reject r : SessionM α) := by
  refine .bind (fun s _ s' h => ?_) fun _ => .bind .get fun s => ?_
  · obtain ⟨-, rfl⟩ := Ends.modify_iff.1 h
    rfl
  · split <;> exact .throw _

/-- From the types `t` on, a computation keeps the types canonical, and a result is one for which `Q` holds. -/
def Yields (t : TypeTable) (x : ExceptT ε (StateM Session) α) (Q : α → TypeTable → Prop) : Prop :=
  ∀ ⦃s r s'⦄, t ≤ s.types → s.types.Canonical → Ends x s r s' →
    s'.types.Canonical ∧ ∀ a, r = .ok a → Q a s'.types

/-- From the types `t` on, a computation keeps the types canonical. -/
abbrev Keeps (t : TypeTable) (x : ExceptT ε (StateM Session) α) : Prop := Yields t x fun _ _ => True

namespace Yields

variable {t : TypeTable} {Q : α → TypeTable → Prop} {s s' : Session}

theorem canonical {x : ExceptT ε (StateM Session) α} {r : Except ε α} (h : Yields t x Q) (ht : t ≤ s.types)
    (hc : s.types.Canonical) (hx : Ends x s r s') : s'.types.Canonical :=
  (h ht hc hx).1

theorem result {x : ExceptT ε (StateM Session) α} {a : α} (h : Yields t x Q) (ht : t ≤ s.types)
    (hc : s.types.Canonical) (hx : Ends x s (.ok a) s') : Q a s'.types :=
  (h ht hc hx).2 a rfl

theorem of_ok {x : ExceptT ε (StateM Session) α} (hkeeps : Keeps t x)
    (h : ∀ ⦃s a s'⦄, t ≤ s.types → s.types.Canonical → Ends x s (.ok a) s' → Q a s'.types) : Yields t x Q := by
  refine fun s r s' ht hc hx => ⟨hkeeps.canonical ht hc hx, fun a ha => ?_⟩
  subst ha
  exact h ht hc hx

theorem of_quiet {x : ExceptT ε (StateM Session) α} (hx : Quiet x) : Keeps t x :=
  fun _ _ _ _ hc h => ⟨hx h ▸ hc, fun _ _ => trivial⟩

theorem pure {a : α} (h : ∀ t', t ≤ t' → Q a t') :
    Yields t (Pure.pure a : ExceptT ε (StateM Session) α) Q := by
  refine of_ok (of_quiet (.pure a)) fun s a' s' ht _ hx => ?_
  obtain ⟨ha, rfl⟩ := Ends.pure_iff.1 hx
  cases ha
  exact h _ ht

theorem throw {e : ε} : Yields t (throw e : ExceptT ε (StateM Session) α) Q := by
  refine of_ok (of_quiet (.throw e)) fun s a s' _ _ hx => ?_
  cases (Ends.throw_iff.1 hx).1

theorem bind {R : β → TypeTable → Prop} {x : ExceptT ε (StateM Session) β}
    {f : β → ExceptT ε (StateM Session) α} (hx : Yields t x R) (hgrows : Grows x)
    (hf : ∀ b t₁, t ≤ t₁ → R b t₁ → Yields t₁ (f b) Q) : Yields t (x >>= f) Q := by
  intro s r s' ht hc h
  rcases Ends.bind_iff.1 h with ⟨b, s₁, h₁, h₂⟩ | ⟨e, rfl, h₁⟩
  · have hle : t ≤ s₁.types := ht.trans (hgrows h₁).le
    exact hf b s₁.types hle (hx.result ht hc h₁) le_rfl (hx.canonical ht hc h₁) h₂
  · exact ⟨hx.canonical ht hc h₁, by rintro a ⟨⟩⟩

/-- Where nothing is asked of an intermediate result, and no types are added. -/
theorem after {x : ExceptT ε (StateM Session) β} {f : β → ExceptT ε (StateM Session) α} (hx : Quiet x)
    (hf : ∀ b t₁, t ≤ t₁ → Yields t₁ (f b) Q) : Yields t (x >>= f) Q := by
  intro s r s' ht hc h
  rcases Ends.bind_iff.1 h with ⟨b, s₁, h₁, h₂⟩ | ⟨e, rfl, h₁⟩
  · have hsame := hx h₁
    exact hf b s₁.types (hsame ▸ ht) le_rfl (hsame ▸ hc) h₂
  · exact ⟨hx h₁ ▸ hc, by rintro a ⟨⟩⟩

theorem ite {p : Prop} [Decidable p] {x y : ExceptT ε (StateM Session) α} (hx : p → Yields t x Q)
    (hy : ¬ p → Yields t y Q) : Yields t (if p then x else y) Q := by
  split
  · exact hx ‹p›
  · exact hy ‹¬ p›

/-- Something is checked first, or reported. -/
theorem optional {p : Prop} [Decidable p] {x : ExceptT ε (StateM Session) PUnit}
    {k : PUnit → ExceptT ε (StateM Session) α} (hx : Quiet x)
    (hk : ∀ u t₁, t ≤ t₁ → Yields t₁ (k u) Q) : Yields t (if p then x >>= k else k ⟨⟩) Q :=
  ite (fun _ => after hx hk) fun _ => hk _ _ le_rfl

theorem guard {p : Prop} [Decidable p] {e : ε} {k : PUnit → ExceptT ε (StateM Session) α}
    (hk : ¬ p → Yields t (k ⟨⟩) Q) : Yields t (if p then MonadExcept.throw e >>= k else k ⟨⟩) Q :=
  ite (fun _ => bind (R := fun _ _ => False) throw (.throw e) fun _ _ _ h => h.elim) hk

/-- Two ways to an intermediate result. -/
theorem either {p : Prop} [Decidable p] {R : β → TypeTable → Prop} {x y : ExceptT ε (StateM Session) β}
    {k : β → ExceptT ε (StateM Session) α} (hx : p → Yields t x R) (hgx : Grows x)
    (hy : ¬ p → Yields t y R) (hgy : Grows y) (hk : ∀ b t₁, t ≤ t₁ → R b t₁ → Yields t₁ (k b) Q) :
    Yields t (if p then x >>= k else y >>= k) Q :=
  ite (fun hp => bind (hx hp) hgx hk) fun hp => bind (hy hp) hgy hk

theorem currentTypes {f : TypeTable → ExceptT ε (StateM Session) α}
    (hf : ∀ t₁, t ≤ t₁ → Yields t₁ (f t₁) Q) : Yields t (currentTypes >>= f) Q :=
  fun s _ _ ht hc h => hf s.types ht le_rfl hc h

theorem onTypes {x : TypeM α} (hx : TypeM.Yields t x Q) :
    Yields t (onTypes x : ExceptT ε (StateM Session) α) Q := by
  intro s r s' ht hc h
  obtain ⟨rfl, rfl⟩ := onTypes_iff.1 h
  refine ⟨(hx ht hc).1, fun a ha => ?_⟩
  cases ha
  exact (hx ht hc).2

theorem check {rules : RuleM α} (h : Yields t rules Q) : Yields t (check rules) Q := by
  intro s r s' ht hc hx
  rcases check_iff.1 hx with ⟨a, rfl, hok⟩ | ⟨e, s₁, herror, hr⟩
  · refine ⟨h.canonical ht hc hok, ?_⟩
    rintro a ⟨⟩
    exact h.result ht hc hok
  · refine ⟨reject_quiet e hr ▸ h.canonical ht hc herror, ?_⟩
    rintro a rfl
    exact absurd hr not_reject_ok

theorem reject {r : Rejection} : Yields t (reject r : SessionM α) Q :=
  of_ok (of_quiet (reject_quiet r)) fun _ _ _ _ _ hx => absurd hx not_reject_ok

theorem imp {x : ExceptT ε (StateM Session) α} {R : α → TypeTable → Prop} (h : Yields t x R)
    (hRQ : ∀ a t', R a t' → Q a t') : Yields t x Q :=
  of_ok (fun _ _ _ ht hc hx => ⟨h.canonical ht hc hx, fun _ _ => trivial⟩)
    fun _ _ _ ht hc hx => hRQ _ _ (h.result ht hc hx)

theorem map {x : ExceptT ε (StateM Session) β} {g : β → α} (h : Yields t x fun b t' => Q (g b) t') :
    Yields t (g <$> x) Q := by
  intro s r s' ht hc hx
  obtain ⟨r₀, hx₀, rfl⟩ := Ends.map_iff.1 hx
  obtain ⟨hc', hb⟩ := h ht hc hx₀
  refine ⟨hc', fun a ha => ?_⟩
  cases r₀ with
  | error e => cases ha
  | ok b =>
    cases ha
    exact hb b rfl

theorem keeps {x : ExceptT ε (StateM Session) α} (h : Yields t x Q) : Keeps t x := h.imp fun _ _ _ => trivial

theorem and {x : ExceptT ε (StateM Session) α} {R : α → TypeTable → Prop} (h : Yields t x Q) (h' : Yields t x R) :
    Yields t x fun a t' => Q a t' ∧ R a t' :=
  of_ok h.keeps fun _ _ _ ht hc hx => ⟨h.result ht hc hx, h'.result ht hc hx⟩

/-- What is asked of a result may rely on the types that it is found with. -/
theorem and_canonical {x : ExceptT ε (StateM Session) α} (h : Yields t x Q) :
    Yields t x fun a t' => Q a t' ∧ t'.Canonical :=
  of_ok h.keeps fun _ _ _ ht hc hx => ⟨h.result ht hc hx, h.canonical ht hc hx⟩

end Yields

end Session

namespace Typing

open Session Expr

variable {t t' : TypeTable}

/-- A coherent expression where a value of type `ty` is wanted and `dim?` is the dimension of what there
was: it is of that type, unless that is an array without bound. -/
structure Converted (dim? : Option Nat) (ty : TypeId) (e : Expr) (t : TypeTable) : Prop where
  coherent : e.Coherent t
  has : t.Has ty
  equals_or_bounds : t.equals e.ty ty = true ∨ ∃ dim, dim? = some dim ∧ t.Bounds ty dim e.ty

namespace Converted

variable {dim? : Option Nat} {ty : TypeId} {e : Expr}

theorem mono (h : Converted dim? ty e t) (ht : t ≤ t') : Converted dim? ty e t' where
  coherent := h.coherent.mono ht
  has := h.has.mono ht
  equals_or_bounds := h.equals_or_bounds.imp
    (fun heq => (h.coherent.has.equals_eq h.has ht).trans heq)
    fun ⟨dim, hdim, hbounds⟩ => ⟨dim, hdim, hbounds.mono h.has h.coherent.has ht⟩

theorem takes (h : Converted dim? ty e t) : Takes t ty e.ty :=
  h.equals_or_bounds.imp_right fun ⟨dim, _, hbounds⟩ => ⟨dim, hbounds⟩

/-- An array without bound stays one if it was one. -/
theorem equals (h : Converted dim? ty e t) (hdim : t.dim? ty = some 0 → ∀ dim, dim? = some dim → dim = 0) :
    t.equals e.ty ty = true := by
  rcases h.equals_or_bounds with heq | ⟨dim, hdim?, hbounds⟩
  · exact heq
  · obtain rfl := hdim hbounds.dim?_eq dim hdim?
    exact hbounds.equals

theorem equals_of_isArithmetic (h : Converted dim? ty e t) (hty : t.isArithmetic ty = true) :
    t.equals e.ty ty = true :=
  h.equals fun hdim => by rw [TypeTable.dim?_of_isArithmetic hty] at hdim; cases hdim

/-- Where a number is wanted, there is one of the same shape that is not const either. -/
theorem plain {shape : Shape} (h : Converted dim? ty e t) (hty : t.Plain shape ty)
    (harith : t.isArithmetic ty = true) : t.Plain shape e.ty := by
  have heq := h.equals_of_isArithmetic harith
  exact ⟨(TypeTable.shape_of_equals heq (.inr harith)).trans hty.shape_eq,
    (TypeTable.isConst_of_equals heq).trans hty.isConst_eq⟩

end Converted

/-- A conversion asks nothing of its operand. -/
theorem coherent_cast {e : Expr} {note : Note} (h : e.Coherent t) (hty : t.Has note.ty) :
    (Expr.unary .cast e note).Coherent t :=
  ⟨⟨hty, trivial⟩, h⟩

/-- What is no array, and may be changed if `writable` says so. -/
structure Decayed (writable : Prop) (e : Expr) (t : TypeTable) : Prop where
  coherent : e.Coherent t
  not_isArray : t.isArray e.ty = false
  writable : writable → t.isReadOnly e.ty = false

theorem Decayed.mono {writable : Prop} {e : Expr} (h : Decayed writable e t) (ht : t ≤ t') :
    Decayed writable e t' where
  coherent := h.coherent.mono ht
  not_isArray := (h.coherent.has.isArray_eq ht).trans h.not_isArray
  writable hw := (h.coherent.has.isReadOnly_eq ht).trans (h.writable hw)

theorem decay_yields {e : Expr} (he : e.Coherent t) :
    Yields t (decay e) (Decayed (t.isReadOnly e.ty = false)) := by
  refine .currentTypes fun t₁ h₁ => ?_
  have he₁ := he.mono h₁
  have hcast {target : TypeId} (htarget : t₁.Has target) :
      Yields t₁ (do return .unary .cast e ⟨← onTypes (.pointer target), e.span⟩ : RuleM Expr)
        (Decayed (t.isReadOnly e.ty = false)) := by
    refine .bind (.onTypes (TypeM.intern_yields_plain (fun p hp => ?_) nofun))
      (onTypes_grows (TypeM.intern_grows _)) fun ty t₂ h₂ ⟨hty, hplain⟩ => .pure fun t₃ h₃ =>
      Decayed.mono (t := t₂) ⟨coherent_cast (he₁.mono h₂) hty, ?_, fun _ => ?_⟩ h₃
    · obtain rfl := List.mem_singleton.1 hp
      exact htarget
    · show t₂.isArray ty = false
      rw [TypeTable.isArray, hplain.shape_eq]
    · show t₂.isReadOnly ty = false
      rw [TypeTable.isReadOnly_eq, hplain.shape_eq]
      exact hplain.isConst_eq
  split
  · rename_i element dim hs
    exact hcast (he₁.has.part (by rw [hs]; exact List.mem_singleton_self _))
  · exact hcast he₁.has
  · rename_i harray _
    refine .pure fun t₂ h₂ => Decayed.mono (t := t₁) ⟨he₁, ?_, (he.has.isReadOnly_eq h₁).trans⟩ h₂
    unfold TypeTable.isArray
    split
    · rename_i element dim hs
      exact absurd hs (harray element dim)
    · rfl

/-! Types that are looked at have been issued, so that conversions keep a table canonical whatever is converted. -/

theorem decay_keeps (t : TypeTable) (e : Expr) : Session.Keeps t (decay e) := by
  refine .currentTypes fun t₁ _ => ?_
  have hcast {target : TypeId} (htarget : t₁.Has target) :
      Session.Keeps t₁ (do return .unary .cast e ⟨← onTypes (.pointer target), e.span⟩ : RuleM Expr) := by
    refine .bind (.onTypes (TypeM.intern_yields_plain (fun p hp => ?_) nofun))
      (onTypes_grows (TypeM.intern_grows _)) fun _ _ _ _ => .pure fun _ _ => trivial
    obtain rfl := List.mem_singleton.1 hp
    exact htarget
  split
  · rename_i element dim hs
    exact hcast ((TypeTable.has_of_shape (by rw [hs]; exact nofun)).element hs)
  · rename_i hs
    exact hcast (TypeTable.has_of_shape (by rw [hs]; exact nofun))
  · exact .pure fun _ _ => trivial

theorem implicitCast_keeps (t : TypeTable) (e : Expr) (ty : TypeId) : Session.Keeps t (implicitCast e ty) := by
  unfold implicitCast
  refine .currentTypes fun t₁ _ => .ite (fun _ => .pure fun _ _ => trivial) fun _ =>
    .either (R := fun _ _ => True) (fun _ => decay_keeps _ e) (decay_grows e) (fun _ => .pure fun _ _ => trivial)
      (.pure e) fun e' t₂ _ _ =>
    .bind (.onTypes (TypeM.convert_keeps _ _ _ _)) (onTypes_grows (TypeM.convert_grows _ _ _)) fun conversion t₃ _ _ =>
    .currentTypes fun t₄ _ => ?_
  cases conversion with
  | none => exact .throw
  | some conversion =>
    exact .optional (warn_quiet _ _) fun _ _ _ => .after .get fun _ _ _ =>
      .optional (warn_quiet _ _) fun _ _ _ => .pure fun _ _ => trivial

theorem implicitCast_yields {e : Expr} {ty : TypeId} (he : e.Coherent t) (hty : t.Has ty) :
    Yields t (implicitCast e ty) (Converted (t.dim? e.ty) ty) := by
  unfold implicitCast
  refine .currentTypes fun t₁ h₁ => .ite (fun heq => .pure fun t₂ h₂ => ?_) fun _ => ?_
  · exact Converted.mono ⟨he.mono h₁, hty.mono h₁, .inl heq⟩ h₂
  · refine .either (R := fun e' t' => e'.Coherent t' ∧ t'.dim? e'.ty = t.dim? e.ty) (fun hfun => ?_) (decay_grows e)
      (fun _ => .pure fun t₂ h₂ => ⟨he.mono (h₁.trans h₂), he.has.dim?_eq (h₁.trans h₂)⟩) (.pure e)
      fun e' t₂ h₂ he₂ => ?_
    · refine (decay_yields (he.mono h₁)).imp fun e' t' he' => ⟨he'.coherent, ?_⟩
      rw [TypeTable.dim?_of_not_isArray he'.not_isArray, ← he.has.dim?_eq h₁]
      exact (TypeTable.dim?_of_isFunction (Bool.and_eq_true_iff.1 hfun).1).symm
    rw [← he₂.2]
    replace he₂ := he₂.1
    have hty₂ := hty.mono (h₁.trans h₂)
    refine .bind (.onTypes (TypeM.convert_aims false he₂.has hty₂)) (onTypes_grows (TypeM.convert_grows _ _ _))
      fun conversion t₃ h₃ haims => .currentTypes fun t₄ h₄ => ?_
    cases conversion with
    | none => exact .throw
    | some conversion =>
      have hserves := (haims conversion rfl).mono (hty₂.mono h₃) h₄
      refine .optional (warn_quiet _ _) fun _ t₅ h₅ => .after .get fun _ t₆ h₆ =>
        .optional (warn_quiet _ _) fun _ t₇ h₇ => .pure fun t₈ h₈ => ?_
      have hle := ((h₅.trans h₆).trans h₇).trans h₈
      refine Converted.mono (t := t₄) ⟨coherent_cast (he₂.mono (h₃.trans h₄)) hserves.has,
        hty₂.mono (h₃.trans h₄), hserves.eq_or_bounds.imp_left fun heq => ?_⟩ hle
      show t₄.equals conversion.target ty = true
      rw [heq, TypeTable.equals_eq, if_pos rfl]

theorem explicitCast_yields {e : Expr} {ty : TypeId} {span : Span} (he : e.Coherent t) (hty : t.Has ty) :
    Yields t (explicitCast e ty span) fun e' t' => e'.Coherent t' := by
  refine .currentTypes fun t₁ h₁ => .either (R := fun e' t' => e'.Coherent t')
    (fun _ => (decay_yields (he.mono h₁)).imp fun _ _ h => h.coherent) (decay_grows e)
    (fun _ => .pure fun t₂ h₂ => he.mono (h₁.trans h₂)) (.pure e) fun e t₂ h₂ he₂ => ?_
  refine .bind (.onTypes (TypeM.explicitCast_yields he₂.has (hty.mono (h₁.trans h₂))))
    (onTypes_grows (TypeM.explicitCast_grows _ _)) fun conversion t₃ h₃ hconv => .currentTypes fun t₄ h₄ => ?_
  cases conversion with
  | none => exact .throw
  | some conversion =>
    refine .optional (warn_quiet _ _) fun _ t₅ h₅ => .pure fun t₆ h₆ => ?_
    have hle := (h₄.trans h₅).trans h₆
    exact ⟨⟨(hconv conversion rfl).mono hle, trivial⟩, he₂.mono (h₃.trans hle)⟩

/-- What is referred to, which has a size. -/
structure Sized (pointer target : TypeId) (t : TypeTable) : Prop where
  has : t.Has target
  target?_eq : t.target? pointer = some target
  hasSize : t.hasSize target = true

theorem Sized.mono {pointer target : TypeId} (h : Sized pointer target t) (hp : t.Has pointer) (ht : t ≤ t') :
    Sized pointer target t' :=
  ⟨h.has.mono ht, (hp.target?_eq ht).trans h.target?_eq, h.has.hasSize_of_le ht h.hasSize⟩

theorem sizedTarget_quiet (pointer : TypeId) (span : Span) : Quiet (sizedTarget pointer span) := by
  refine .bind (.bind .get fun _ => .pure _) fun t => ?_
  split
  · exact .throw _
  · split
    · exact .pure _
    · exact .throw _

theorem sizedTarget_yields {pointer : TypeId} {span : Span} (h : t.Has pointer) :
    Yields t (sizedTarget pointer span) (Sized pointer) := by
  refine .currentTypes fun t₁ h₁ => ?_
  split
  · exact .throw
  · rename_i target htarget
    have hp := h.mono h₁
    exact .ite (fun hsize => .pure fun t₂ h₂ =>
      Sized.mono (t := t₁) ⟨hp.target htarget, htarget, hsize⟩ hp h₂) fun _ => .throw

/-- A coherent expression of a plain type of the given shape. -/
structure Of (shape : Shape) (e : Expr) (t : TypeTable) : Prop where
  coherent : e.Coherent t
  plain : t.Plain shape e.ty

theorem Of.mono {shape : Shape} {e : Expr} (h : Of shape e t) (ht : t ≤ t') : Of shape e t' :=
  ⟨h.coherent.mono ht, h.plain.mono h.coherent.has ht⟩

theorem offset_keeps (t : TypeTable) (index : Expr) : Session.Keeps t (offset index) :=
  .bind (.onTypes (.get fun _ _ => TypeM.intern_yields nofun nofun))
    (onTypes_grows (.bind .get fun _ => TypeM.intern_grows _)) fun ty t₁ _ _ => implicitCast_keeps t₁ index ty

theorem offset_yields {index : Expr} (h : index.Coherent t) :
    Yields t (offset index) (Of (.integer t.sizeBits false)) := by
  have hsize : TypeM.Yields t TypeM.size fun ty t' => t'.Has ty ∧ t'.Plain (.integer t.sizeBits false) ty := by
    refine .get fun t₁ h₁ => ?_
    rw [← TypeTable.sizeBits_of_le h₁]
    exact TypeM.intern_yields_plain nofun nofun
  refine .bind (.onTypes hsize) (onTypes_grows (.bind .get fun _ => TypeM.intern_grows _))
    fun ty t₁ h₁ ⟨hty, hplain⟩ => ?_
  have hcast := implicitCast_yields (h.mono h₁) hty
  refine .of_ok hcast.keeps fun s e s' hle hc hx => ?_
  have hconv := hcast.result hle hc hx
  have hplain' := hplain.mono hty (hle.trans (implicitCast_grows _ _ hx).le)
  refine ⟨hconv.coherent, hconv.plain hplain' ?_⟩
  exact TypeTable.isArithmetic_of_isIntegral (TypeTable.isIntegral_iff.2 (.inr ⟨_, _, hplain'.shape_eq⟩))

end Typing

end TypedCore
