import TypedCore.Proofs.Session.Reachable
import TypedCore.Proofs.Types.Const

/-!
# Const objects stay as they are

A part of a const object, reached by way of members and elements, is not assigned to nor stepped, and a pointer
to its elements is one to what is read-only, or there is a warning. Members inherit the flag of their struct, but
elements do not inherit that of their array. So this is about parts that are reached through arrays whose elements
are read-only themselves if the array is const.
-/

namespace TypedCore

namespace TypeTable

/-- An array whose elements are read-only if it is const. -/
def FixedElements (t : TypeTable) (ty : TypeId) : Prop :=
  ∃ element dim, t.shape ty = .array element dim ∧ (t.isConst ty = true → t.isReadOnly element = true)

/-- An object that is read-only, or a part of one that is reached by way of members and of elements of such
arrays. -/
inductive ConstPart (t : TypeTable) : Expr → Prop
  | object {object : Expr} (h : t.isReadOnly object.ty = true) : ConstPart t object
  | member {object : Expr} (h : ConstPart t object) (name : String) (index : Nat) (note : Note) :
      ConstPart t (.member object name index note)
  | element {array : Expr} (h : ConstPart t array) (harray : t.FixedElements array.ty) (index : Expr) (note : Note) :
      ConstPart t (.binary .index array index note)

variable {t t' : TypeTable} {ty element : TypeId} {dim : Nat} {e : Expr}

theorem FixedElements.mono (h : t.FixedElements ty) (hty : t.Has ty) (ht : t ≤ t') : t'.FixedElements ty := by
  obtain ⟨element, dim, hs, hfixed⟩ := h
  have helement := hty.element hs
  refine ⟨element, dim, (hty.shape_eq ht).trans hs, ?_⟩
  rw [hty.isConst_eq ht, helement.isReadOnly_eq ht]
  exact hfixed

theorem FixedElements.isReadOnly_element (h : t.FixedElements ty) (hs : t.shape ty = .array element dim)
    (hread : t.isReadOnly ty = true) : t.isReadOnly element = true := by
  obtain ⟨element', dim', hs', hfixed⟩ := h
  cases hs.symm.trans hs'
  rcases isReadOnly_iff.1 hread with hconst | ⟨element', dim', hs', helement⟩
  · exact hfixed hconst
  · cases hs.symm.trans hs'
    exact helement

theorem isReadOnly_member {object : TypeId} {name : String} {index : Nat} (hread : t.isReadOnly object = true)
    (h : Expr.MemberRule t object name index ty) : t.isReadOnly ty = true := by
  obtain ⟨ty', -, hmember, hflag⟩ := h
  obtain ⟨ms, hms, -⟩ := except_bind_ok.1 hmember
  obtain ⟨id, hs, -⟩ := members_ok_iff.1 hms
  have hconst : t.isConst object = true := by
    rcases isReadOnly_iff.1 hread with hconst | ⟨element, dim, hs', -⟩
    · exact hconst
    · cases hs.symm.trans hs'
  rw [if_pos hconst] at hflag
  exact isReadOnly_iff.2 (.inl hflag.spelling.2.1)

namespace ConstPart

theorem mono (h : t.ConstPart e) (he : e.Coherent t) (ht : t ≤ t') : t'.ConstPart e := by
  induction h with
  | object h => exact .object ((he.has.isReadOnly_eq ht).trans h)
  | member h name index note ih => exact .member (ih he.2) name index note
  | element h harray index note ih => exact .element (ih he.2.1) (harray.mono (Expr.Coherent.has he.2.1) ht) index note

/-- What belongs to something read-only is read-only. -/
theorem isReadOnly (h : t.ConstPart e) (he : e.Coherent t) : t.isReadOnly e.ty = true := by
  induction h with
  | object h => exact h
  | member h name index note ih => exact isReadOnly_member (ih he.2) he.1.2
  | @element array h harray index note ih =>
    have htarget : t.target? array.ty = some note.ty := he.1.2.1.1
    obtain ⟨element, dim, hs, -⟩ := id harray
    rw [target?, hs] at htarget
    cases htarget
    exact harray.isReadOnly_element hs (ih he.2.1)

end ConstPart

end TypeTable

namespace Typing

open Session

variable {s s' : Session} {e e' : Expr} {ty : TypeId} {span : Span}

theorem binary_of_isReadOnly {op : BinaryOp} {right : Expr} (hop : op.isAssignment = true)
    (hread : s.types.isReadOnly e.ty = true) :
    Ends (binary op e right span) s (.error ⟨.readOnlyAssignment (e.text s.types), e.span⟩) s := by
  have hcheck : Ends (checkAssignable e) s (.error ⟨.readOnlyAssignment (e.text s.types), e.span⟩) s := by
    unfold checkAssignable
    rw [currentTypes_bind_iff, if_pos hread]
    exact Ends.bind_iff.2 (.inr ⟨_, rfl, Ends.throw_iff.2 ⟨rfl, rfl⟩⟩)
  unfold binary
  rw [if_pos hop]
  exact Ends.bind_iff.2 (.inr ⟨_, rfl, hcheck⟩)

/-- The fault of a step of something read-only. -/
def steppedFault (op : UnaryOp) (text : String) : Cause :=
  if op.isIncrement then .readOnlyIncrement text else .readOnlyDecrement text

theorem unary_of_isReadOnly {op : UnaryOp}
    (hop : op ∈ [.preIncrement, .postIncrement, .preDecrement, .postDecrement])
    (hread : s.types.isReadOnly e.ty = true) :
    Ends (unary op e span) s (.error ⟨steppedFault op (e.text s.types), e.span⟩) s := by
  have hstep : unary op e span = step op e span := by
    simp only [List.mem_cons, List.not_mem_nil, or_false] at hop
    obtain rfl | rfl | rfl | rfl := hop <;> rfl
  rw [hstep, step, currentTypes_bind_iff, if_pos hread]
  exact Ends.bind_iff.2 (.inr ⟨_, rfl, Ends.throw_iff.2 ⟨rfl, rfl⟩⟩)

/-- An array is indexed in place. -/
theorem binary_index_left {t : TypeTable} {right : Expr} (he : t.Has e.ty) (harray : t.isArray e.ty = true) :
    Yields t (binary .index e right span) fun r _ => r.left = e := by
  have helement : ∀ t', Yields t' (element e right span) fun r _ => r.left = e := fun t' =>
    .currentTypes fun _ _ => .optional (.throw _) fun _ _ _ => .after (sizedTarget_quiet _ _) fun _ t₁ _ =>
    .bind (offset_keeps t₁ right) (offset_grows right) fun _ _ _ _ => .pure fun _ _ => rfl
  have hdispatch : Yields t (dispatch .index e right span) fun r _ => r.left = e := by
    refine .currentTypes fun t₁ h₁ => ?_
    have harray₁ : t₁.isArray e.ty = true := (he.isArray_eq h₁).trans harray
    refine .ite (fun _ => invalidOperands_yields) fun _ => .ite (fun _ => ?_) fun h => ?_
    · refine .currentTypes fun t₂ h₂ => .ite (fun _ => helement t₂) fun h => ?_
      exact absurd (((he.mono h₁).isArray_eq h₂).trans harray₁) h
    · exact absurd (by rw [harray₁, Bool.true_or]) h
  exact .bind hdispatch (dispatch_grows _ _ _ _) fun r _ _ hr => .currentTypes fun _ _ =>
    .optional (.throw _) fun _ _ _ => .pure fun _ _ => hr

/-- An array decays to a pointer to its elements. -/
theorem decay_of_array {element : TypeId} {dim : Nat} (hc : s.types.Canonical) (he : s.types.Has e.ty)
    (hs : s.types.shape e.ty = .array element dim) :
    ∃ note s', Ends (decay e) s (.ok (.unary .cast e note)) s' ∧ s.types ≤ s'.types ∧
      s'.types.shape note.ty = .pointer (some element) := by
  have hparts : ∀ p ∈ (Shape.pointer (some element)).parts, s.types.Has p := by
    intro p hp
    obtain rfl := List.mem_singleton.1 hp
    exact he.part (by simp [hs, Shape.parts])
  have hpointer : TypeM.intern (.pointer (some element)) false s.types = TypeM.pointer element s.types := rfl
  obtain ⟨-, -, hplain⟩ := TypeM.intern_plain hpointer hc hparts (by rintro _ _ ⟨⟩)
  have hends : Ends (decay e) s (.ok (.unary .cast e ⟨(TypeM.pointer element s.types).1, e.span⟩))
      { s with types := (TypeM.pointer element s.types).2 } := by
    unfold decay
    rw [currentTypes_bind_iff]
    simp only [hs]
    exact Ends.bind_ok_iff.2 ⟨_, _, onTypes_iff.2 ⟨rfl, rfl⟩, Ends.pure_iff.2 ⟨rfl, rfl⟩⟩
  exact ⟨_, _, hends, (TypeM.intern_grows _ (by rintro _ ⟨⟩) s.types).le, hplain.shape_eq⟩

/-- The warning about a conversion that loses a const flag. -/
def discardedFlag (t : TypeTable) (src dst : TypeId) : String :=
  s!"conversion from '{t.name src}' to '{t.name dst}'" ++ " discards const qualifier"

/-- A conversion of an array to a pointer is reported if its elements could be written then. -/
theorem implicitCast_of_array {element target : TypeId} {dim : Nat} (hcan : s.types.Canonical)
    (he : s.types.Has e.ty) (hty : s.types.Has ty) (hs : s.types.shape e.ty = .array element dim)
    (hs' : s.types.shape ty = .pointer (some target))
    (hread : s.types.isReadOnly element = true) (h : Ends (implicitCast e ty) s (.ok e') s') :
    e' = .unary .cast e ⟨ty, e.span⟩ ∧ (s.types.isReadOnly target = true ∨
      s'.log = s.log.warning (discardedFlag s'.types e.ty ty) e.span) := by
  have hne : s.types.equals e.ty ty = false := TypeTable.not_equals_of_array_of_pointer hs hs'
  have hfun : s.types.isFunction e.ty = false := by rw [TypeTable.isFunction, hs]
  unfold implicitCast at h
  rw [currentTypes_bind_iff, if_neg (by simp [hne]), hfun] at h
  obtain ⟨e₁, s₁, he₁, h⟩ := Ends.bind_ok_iff.1 h
  obtain ⟨he₁, hs₁⟩ := Ends.pure_iff.1 he₁
  cases he₁
  subst s₁
  obtain ⟨conversion, s₂, hconv, h⟩ := Ends.bind_ok_iff.1 h
  obtain ⟨hconv, hs₂⟩ := onTypes_iff.1 hconv
  cases hconv
  subst s₂
  rw [currentTypes_bind_iff] at h
  have hlost := (TypeM.convert_array_to_pointer he hty hs hs' hread).result le_rfl hcan rfl
  cases hc : (TypeM.implicitConvert e.ty ty s.types).1 with
  | none =>
    simp only [hc] at h
    cases (Ends.throw_iff.1 h).1
  | some conversion =>
    obtain ⟨htarget, hlost⟩ := hlost conversion hc
    have hgrown : s.types ≤ (TypeM.implicitConvert e.ty ty s.types).2 := (TypeM.convert_grows _ _ _ s.types).le
    -- a pointer is not narrower than an array, so the first warning is the only one
    have hnarrow : isNarrowing (TypeM.implicitConvert e.ty ty s.types).2 e ty = false := by
      rw [isNarrowing, he.shape_eq hgrown, hs]
      rfl
    simp only [hc, htarget, hnarrow, Bool.and_false, Bool.false_eq_true, if_false] at h
    by_cases hdiscards : conversion.discardsConst = true
    · rw [if_pos hdiscards, warn, Ends.modify_bind_iff, Ends.get_bind_iff] at h
      obtain ⟨he', rfl⟩ := Ends.pure_iff.1 h
      cases he'
      exact ⟨rfl, .inr rfl⟩
    · rw [if_neg hdiscards, Ends.get_bind_iff] at h
      obtain ⟨he', -⟩ := Ends.pure_iff.1 h
      cases he'
      exact ⟨rfl, .inl (hlost.resolve_right hdiscards)⟩

end Typing

open Session

variable {s s' : Session} {e e' : Expr} {span : Span}

theorem Node.member_eq {name : String} (h : Ends (Node.member e name span) s (.ok e') s') :
    ∃ index note, e' = .member e name index note := by
  unfold Node.member at h
  rw [currentTypes_bind_iff] at h
  split at h
  · exact absurd h not_reject_ok
  · split at h
    · exact absurd h not_reject_ok
    · split at h
      all_goals
        obtain ⟨ty, s₁, -, h⟩ := Ends.bind_ok_iff.1 h
        obtain ⟨he', -⟩ := Ends.pure_iff.1 h
        cases he'
        exact ⟨_, _, rfl⟩

theorem Node.index_eq {index : Expr} (hc : s.types.Canonical) (he : s.types.Has e.ty)
    (harray : s.types.isArray e.ty = true) (h : Ends (Node.binary .index e index span) s (.ok e') s') :
    ∃ index' note, e' = .binary .index e index' note := by
  unfold Node.binary at h
  obtain ⟨r, s₁, hr, h⟩ := Ends.bind_ok_iff.1 h
  obtain ⟨he', -⟩ := Ends.pure_iff.1 h
  cases he'
  rw [(Typing.binary_index_left he harray).result le_rfl hc (check_ok_iff.1 hr)]
  exact ⟨_, _, rfl⟩

open TypeTable in
/-- The parts of a part of a const object are parts of it, if the elements of const arrays are read-only
themselves. Such a part is not assigned to nor stepped, and pointers to its elements do not make them writable
without a warning. -/
theorem const_object_stays_readOnly {s : Session} {es : List Expr} (h : s.Reachable es) {e : Expr} (he : e ∈ es)
    (hpart : s.types.ConstPart e) :
    (∀ name span e' s', Ends (Node.member e name span) s (.ok e') s' → s'.types.ConstPart e') ∧
    (∀ op right span, op.isAssignment = true → ∀ r s', Ends (Node.binary op e right span) s r s' ↔
      Ends (reject ⟨.readOnlyAssignment (e.text s.types), e.span⟩) s r s') ∧
    (∀ op span, op ∈ [.preIncrement, .postIncrement, .preDecrement, .postDecrement] → ∀ r s',
      Ends (Node.unary op e span) s r s' ↔
        Ends (reject ⟨Typing.steppedFault op (e.text s.types), e.span⟩) s r s') ∧
    (s.types.FixedElements e.ty →
      (∀ index span e' s', Ends (Node.binary .index e index span) s (.ok e') s' → s'.types.ConstPart e') ∧
      (∃ note s' element, Ends (Typing.decay e) s (.ok (.unary .cast e note)) s' ∧
        s'.types.shape note.ty = .pointer (some element) ∧ s'.types.isReadOnly element = true) ∧
      ∀ ty target e' s', s.types.Has ty → s.types.shape ty = .pointer (some target) →
        Ends (Node.implicitCast e ty) s (.ok e') s' → e'.ty = ty ∧ (s.types.isReadOnly target = true ∨
          s'.log = s.log.warning (Typing.discardedFlag s'.types e.ty ty) e.span)) := by
  have hcan := h.sound.1.canonical
  have hcoherent := h.sound.2 e he
  have hread := hpart.isReadOnly hcoherent
  refine ⟨fun name span e' s' hx => ?_,
    fun op right span hop r s' => check_bind_of_error (Typing.binary_of_isReadOnly hop hread),
    fun op span hop r s' => check_bind_of_error (Typing.unary_of_isReadOnly hop hread), fun hfixed => ?_⟩
  · obtain ⟨index, note, rfl⟩ := Node.member_eq hx
    exact .member (hpart.mono hcoherent (Node.member_grows _ _ _ hx).types) name index note
  obtain ⟨element, dim, hs, -⟩ := id hfixed
  have helement := hfixed.isReadOnly_element hs hread
  refine ⟨fun index span e' s' hx => ?_, ?_, fun ty target e' s' hty hs' hx => ?_⟩
  · have hle := (Node.binary_grows _ _ _ _ hx).types
    obtain ⟨index', note, rfl⟩ := Node.index_eq hcan hcoherent.has (by rw [isArray, hs]) hx
    exact .element (hpart.mono hcoherent hle) (hfixed.mono hcoherent.has hle) index' note
  · obtain ⟨note, s', hends, hle, hshape⟩ := Typing.decay_of_array hcan hcoherent.has hs
    have hhas : s.types.Has element := hcoherent.has.part (by simp [hs, Shape.parts])
    exact ⟨note, s', element, hends, hshape, (hhas.isReadOnly_eq hle).trans helement⟩
  · obtain ⟨rfl, hlog⟩ := Typing.implicitCast_of_array hcan hcoherent.has hty hs hs' helement (check_ok_iff.1 hx)
    exact ⟨rfl, hlog⟩

namespace Record

/-- There is a const struct with an array of const numbers. -/
def history : History := .run
  [.types [.incompleteStruct "S", .const ⟨0⟩, .integer 32 true, .const ⟨2⟩, .array ⟨3⟩ 2],
    .completeStruct ⟨0⟩ [⟨"n", ⟨3⟩⟩, ⟨"m", ⟨4⟩⟩], .declareParameter "o" ⟨1⟩, .identifier "o", .integer 0]

def o : Expr := history.expr 0

def zero : Expr := history.expr 1

def array : Expr := built (Node.member o "m" default) history.session

def named : Session := after (Node.member o "m" default) history.session

/-- `o.m[0]` -/
def element : Expr := built (Node.binary .index array zero default) named

def session : Session := after (Node.binary .index array zero default) named

theorem o_mem : o ∈ history.exprs := History.expr_mem (by decide +kernel)

theorem zero_mem : zero ∈ history.exprs := History.expr_mem (by decide +kernel)

theorem member_isOk : ((Node.member o "m" default).run.run history.session).1.isOk = true := by decide +kernel

theorem index_isOk : ((Node.binary .index array zero default).run.run named).1.isOk = true := by decide +kernel

theorem named_reachable : named.Reachable (array :: history.exprs) :=
  .built (History.run_reachable _) (.member o_mem _ _) member_isOk

theorem session_reachable : session.Reachable (element :: array :: history.exprs) :=
  .built named_reachable (.binary _ (by simp) (by simp [zero_mem]) _) index_isOk

end Record

open Record in
/-- The flag of `o` gets to `o.m[0]` by way of the array in it. -/
theorem const_record_stays_readOnly : session.Reachable (element :: array :: history.exprs) ∧
    session.types.ConstPart element ∧ ∀ r s', Ends (Node.binary .assign element zero default) session r s' ↔
      Ends (reject ⟨.readOnlyAssignment "o.m[0]", default⟩) session r s' := by
  have ho : history.session.types.ConstPart o := .object (by decide +kernel)
  have harray : named.types.ConstPart array :=
    (const_object_stays_readOnly (History.run_reachable _) o_mem ho).1 _ _ _ _ (ends_built member_isOk)
  have hfixed : named.types.FixedElements array.ty :=
    ⟨⟨3⟩, 2, by decide +kernel, fun _ => by decide +kernel⟩
  have helement : session.types.ConstPart element :=
    ((const_object_stays_readOnly named_reachable (by simp) harray).2.2.2 hfixed).1 _ _ _ _ (ends_built index_isOk)
  have htext : element.text session.types = "o.m[0]" := by decide +kernel
  have hspan : element.span = default := by decide +kernel
  have hrejected := (const_object_stays_readOnly session_reachable (by simp) helement).2.1 .assign zero default rfl
  rw [htext, hspan] at hrejected
  exact ⟨session_reachable, helement, hrejected⟩

namespace ConstArray

/-- There is a const array of numbers that are not const. -/
def history : History := .run
  [.types [.integer 32 true, .array ⟨0⟩ 2, .const ⟨1⟩], .declareVariable "a" ⟨2⟩ none, .identifier "a", .integer 1]

def a : Expr := history.expr 0

def one : Expr := history.expr 1

def element : Expr := built (Node.binary .index a one default) history.session

def indexed : Session := after (Node.binary .index a one default) history.session

/-- `a[1] = 1` -/
def store : Expr := built (Node.binary .assign element one default) indexed

def session : Session := after (Node.binary .assign element one default) indexed

end ConstArray

open ConstArray in
/-- An element of the const array `a` is assigned to. -/
theorem const_array_element_changes : history.session.Reachable history.exprs ∧ a ∈ history.exprs ∧
    one ∈ history.exprs ∧ history.session.types.isArray a.ty = true ∧ history.session.types.isConst a.ty = true ∧
    Ends (Node.binary .index a one default) history.session (.ok element) indexed ∧
    Ends (Node.binary .assign element one default) indexed (.ok store) session :=
  ⟨History.run_reachable _, History.expr_mem (by decide +kernel), History.expr_mem (by decide +kernel),
    by decide +kernel, by decide +kernel, ends_built (by decide +kernel), ends_built (by decide +kernel)⟩

end TypedCore
