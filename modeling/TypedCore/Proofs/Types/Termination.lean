import Mathlib.Data.Finset.Card
import TypedCore.Proofs.Types.Containment
import TypedCore.Proofs.Types.Layouts

/-!
# The recursion of layouts ends

The layout of a type is made from those of its parts, and of the members of a struct, which may mention any type: the
recursion crosses pointers to arrays, functions and pointers and stops only at a pointer to a struct. It ends in every
table whose structs are completed in order (`Op.InOrder`): a struct that a member mentions, other than directly behind a
pointer, is complete by then. The order of completion then decreases from a struct to the structs in its members, and
inside of one member the numbers of types do. No struct is met twice on the way down, so that the bound on the depth is
never what ends the recursion.
-/

namespace TypedCore

theorem except_map_error {ε α β : Type} {x : Except ε α} {f : α → β} {e : ε} :
    f <$> x = .error e ↔ x = .error e := by
  cases x with
  | error e' => exact ⟨fun h => congrArg _ (Except.error.inj h), fun h => congrArg _ (Except.error.inj h)⟩
  | ok a => exact ⟨fun h => (nomatch h), fun h => (nomatch h)⟩

theorem except_bind_error {ε α β : Type} {x : Except ε α} {f : α → Except ε β} {e : ε} :
    x >>= f = .error e ↔ x = .error e ∨ ∃ a, x = .ok a ∧ f a = .error e := by
  cases x with
  | error e' =>
    refine ⟨fun h => .inl (congrArg _ (Except.error.inj h)), ?_⟩
    rintro (h | ⟨a, h, -⟩)
    · exact congrArg _ (Except.error.inj h)
    · cases h
  | ok a =>
    refine ⟨fun h => .inr ⟨a, rfl, h⟩, ?_⟩
    rintro (h | ⟨b, h, h'⟩)
    · cases h
    · cases h
      exact h'

theorem exists_of_mapM_error {ε α β : Type} {f : α → Except ε β} {xs : List α} {e : ε} (h : xs.mapM f = .error e) :
    ∃ x ∈ xs, f x = .error e := by
  induction xs with
  | nil => cases h
  | cons x xs ih =>
    rw [List.mapM_cons, except_bind_error] at h
    obtain h | ⟨y, -, h⟩ := h
    · exact ⟨x, List.mem_cons_self .., h⟩
    · obtain h | ⟨_, -, h⟩ := except_bind_error.1 h
      · obtain ⟨x', hx', he⟩ := ih h
        exact ⟨x', List.mem_cons_of_mem _ hx', he⟩
      · cases h

theorem mapM_congr_mem {m : Type → Type} [Monad m] [LawfulMonad m] {α β : Type} {f g : α → m β} {xs : List α}
    (h : ∀ x ∈ xs, f x = g x) : xs.mapM f = xs.mapM g := by
  induction xs with
  | nil => rfl
  | cons x xs ih =>
    rw [List.mapM_cons, List.mapM_cons, h x (List.mem_cons_self ..), ih fun y hy => h y (List.mem_cons_of_mem _ hy)]

namespace TypeTable

variable {t t' : TypeTable} {ty p : TypeId} {id outer inner : StructId}

/-! ### One round of the recursion -/

/-- The layout of a type, from the layouts `f` of the types in it. -/
def layoutFrom (t : TypeTable) (f : TypeId → Except Fault Ir.Ty) (ty : TypeId) : Except Fault Ir.Ty :=
  match t.shape ty with
  | .struct id =>
    match (t.struct id).members with
    | none => .error (.unsupportedType (t.name ty))
    | some members => .struct (t.layoutName? ty) <$> members.mapM fun m => f m.ty
  | .function ret params variadic => do
    let ret ← f ret
    let params ← params.mapM f
    return .function ret params variadic
  | .array element dim => .array dim <$> f element
  | .pointer none => .ok (.ptr .i8)
  | .pointer (some target) =>
    match t.shape target with
    | .struct _ => .ok (.ptr (.struct (t.layoutName? target) []))
    | .void => .ok (.ptr .i8)
    | _ => .ptr <$> f target
  | .void => .ok .void
  | .bool => .ok .i1
  | .integer bits _ => .ok (.int bits)
  | .float .f32 => .ok .f32
  | .float .f64 => .ok .f64
  | .named .. => .error (.unsupportedType (t.name ty))

/-- The types in a type whose layouts its own is made from. -/
def layoutParts (t : TypeTable) (ty : TypeId) : List TypeId :=
  match t.shape ty with
  | .struct id => ((t.struct id).members.getD []).map (·.ty)
  | .pointer (some target) => if t.isVoid target || t.isStruct target then [] else [target]
  | shape => shape.parts

/-- Nothing but the layouts of these types matters. -/
theorem layoutFrom_congr {f g : TypeId → Except Fault Ir.Ty} (h : ∀ p ∈ t.layoutParts ty, f p = g p) :
    t.layoutFrom f ty = t.layoutFrom g ty := by
  unfold layoutParts at h
  unfold layoutFrom
  cases hs : t.shape ty with
  | struct id =>
    simp only [hs] at h ⊢
    cases hms : (t.struct id).members with
    | none => rfl
    | some members =>
      simp only [hms, Option.getD_some, List.forall_mem_map] at h
      simp only [mapM_congr_mem h]
  | function ret params variadic =>
    simp only [hs, Shape.parts, List.forall_mem_cons] at h ⊢
    rw [h.1, mapM_congr_mem h.2]
  | array element dim =>
    simp only [hs, Shape.parts, List.forall_mem_singleton] at h ⊢
    rw [h]
  | pointer target? =>
    cases target? with
    | none => rfl
    | some target =>
      simp only [hs] at h ⊢
      cases htarget : t.shape target with
      | struct | void => rfl
      | _ =>
        simp only [isVoid, isStruct, htarget] at h ⊢
        rw [h target (by simp)]
  | float width => cases width <;> rfl
  | _ => rfl

/-- An error is that of a struct without members, or comes from below. -/
theorem layoutFrom_error {f : TypeId → Except Fault Ir.Ty} {e : Fault} (h : t.layoutFrom f ty = .error e) :
    (∃ id, t.shape ty = .struct id ∧ (t.struct id).members = none ∧ e = .unsupportedType (t.name ty)) ∨
      ∃ p ∈ t.layoutParts ty, f p = .error e := by
  unfold layoutFrom at h
  unfold layoutParts
  cases hs : t.shape ty with
  | struct id =>
    simp only [hs] at h
    cases hms : (t.struct id).members with
    | none =>
      simp only [hms] at h
      exact .inl ⟨id, rfl, hms, (Except.error.inj h).symm⟩
    | some members =>
      simp only [hms] at h
      obtain ⟨m, hm, he⟩ := exists_of_mapM_error (except_map_error.1 h)
      exact .inr ⟨m.ty, by simpa [hms] using ⟨m, hm, rfl⟩, he⟩
  | function ret params variadic =>
    simp only [hs, except_bind_error] at h
    obtain h | ⟨_, -, h | ⟨_, -, h⟩⟩ := h
    · exact .inr ⟨ret, by simp [Shape.parts], h⟩
    · obtain ⟨p, hp, he⟩ := exists_of_mapM_error h
      exact .inr ⟨p, by simp [Shape.parts, hp], he⟩
    · cases h
  | array element dim =>
    simp only [hs] at h
    exact .inr ⟨element, by simp [Shape.parts], except_map_error.1 h⟩
  | pointer target? =>
    cases target? with
    | none => simp [hs] at h
    | some target =>
      simp only [hs] at h
      cases htarget : t.shape target with
      | struct | void => simp [htarget] at h
      | _ =>
        simp only [htarget] at h
        exact .inr ⟨target, by simp [isVoid, isStruct, htarget], except_map_error.1 h⟩
  | named name target => exact absurd hs (t.shape_ne_named ty name target)
  | float width => cases width <;> simp [hs] at h
  | _ => simp [hs] at h

/-- Outside of structs the depth stays. -/
theorem layoutWithin_eq_from (depth : Nat) (hne : ∀ id, t.shape ty ≠ .struct id) :
    t.layoutWithin depth ty = t.layoutFrom (t.layoutWithin depth) ty := by
  obtain ⟨struct, hstruct⟩ := t.exists_layoutWithin depth
  rw [hstruct, layoutWith_eq, layoutFrom]
  cases hs : t.shape ty with
  | struct id => exact absurd hs (hne id)
  | pointer target? =>
    cases target? with
    | none => rfl
    | some target =>
      simp only
      cases t.shape target <;> rfl
  | float width => cases width <;> rfl
  | _ => rfl

/-- Members have one struct less around them. -/
theorem layoutWithin_succ_of_struct (depth : Nat) (hs : t.shape ty = .struct id) :
    t.layoutWithin (depth + 1) ty = t.layoutFrom (t.layoutWithin depth) ty := by
  rw [layoutWithin, layoutWith_eq, layoutFrom, hs]
  cases hms : (t.struct id).members with
  | none => simp only [hms]
  | some members =>
    simp only [hms]
    rw [← bind_pure_comp]

theorem layoutWithin_of_incomplete (depth : Nat) (hs : t.shape ty = .struct id)
    (hms : (t.struct id).members = none) : t.layoutWithin depth ty = .error (.unsupportedType (t.name ty)) := by
  cases depth with
  | zero => simp [layoutWithin, layoutWith_eq, hs, hms]
  | succ depth => simp [layoutWithin, layoutWith_eq, hs, hms]

/-! ### Structs that a type mentions -/

/-- The structs that a type mentions, other than directly behind a pointer. -/
def mentioned (t : TypeTable) (ty : TypeId) : List StructId :=
  (t.structId? ty).toList ++ (t.shape ty).parts.attach.flatMap fun ⟨p, _⟩ =>
    if t.isPointer ty && t.isStruct p then [] else mentioned t p
termination_by ty.index
decreasing_by exact t.shape_part_lt ‹_›

theorem mem_mentioned : id ∈ t.mentioned ty ↔
    t.shape ty = .struct id ∨
      ∃ p ∈ (t.shape ty).parts, ¬ (t.isPointer ty = true ∧ t.isStruct p = true) ∧ id ∈ t.mentioned p := by
  rw [mentioned, List.mem_append, Option.mem_toList]
  refine or_congr ?_ ?_
  · rw [structId?]
    cases t.shape ty <;> simp
  · simp only [List.mem_flatMap, List.mem_attach, true_and, Subtype.exists]
    refine exists_congr fun p => ?_
    by_cases hdirect : t.isPointer ty = true ∧ t.isStruct p = true <;> simp_all

theorem Has.mem_mentioned_iff (h : t.Has ty) (ht : t ≤ t') : id ∈ t'.mentioned ty ↔ id ∈ t.mentioned ty := by
  induction ty using t.parts_induction with
  | step ty ih =>
    rw [t.mem_mentioned, t'.mem_mentioned, h.shape_eq ht]
    refine or_congr_right (exists_congr fun p => and_congr_right fun hp => ?_)
    rw [isPointer, isPointer, isStruct, isStruct, h.shape_eq ht, (h.part hp).shape_eq ht,
      ih p hp (h.part hp)]

/-- A complete struct has a member that mentions another one. -/
def Refers (t : TypeTable) (outer inner : StructId) : Prop :=
  ∃ ms, (t.struct outer).members = some ms ∧ ∃ m ∈ ms, inner ∈ t.mentioned m.ty

/-- Outside of structs the recursion goes to parts of the type, and past no pointer to a struct. -/
theorem mentioned_of_mem_layoutParts (hne : ∀ id, t.shape ty ≠ .struct id) (hp : p ∈ t.layoutParts ty) :
    p.index < ty.index ∧ t.mentioned p ⊆ t.mentioned ty := by
  obtain ⟨hpart, hdirect⟩ : p ∈ (t.shape ty).parts ∧ ¬ (t.isPointer ty = true ∧ t.isStruct p = true) := by
    unfold layoutParts at hp
    rw [isPointer]
    cases hs : t.shape ty with
    | struct id => exact absurd hs (hne id)
    | pointer target? =>
      cases target? with
      | none => simp [hs, Shape.parts] at hp
      | some target =>
        simp only [hs] at hp
        split at hp
        · cases hp
        · rename_i hflat
          rw [List.mem_singleton.1 hp]
          simp only [Bool.or_eq_true, not_or] at hflat
          exact ⟨by simp [Shape.parts], fun hdirect => hflat.2 hdirect.2⟩
    | _ => exact ⟨by simpa [hs] using hp, by simp⟩
  exact ⟨t.shape_part_lt hpart, fun id hid => mem_mentioned.2 (.inr ⟨p, hpart, hdirect, hid⟩)⟩

/-- The recursion ends at a type if it ends at the structs that it mentions. -/
theorem acc_of_mentioned (h : ∀ id ∈ t.mentioned ty, ∀ b, t.shape b = .struct id →
    Acc (fun p whole => p ∈ t.layoutParts whole) b) : Acc (fun p whole => p ∈ t.layoutParts whole) ty := by
  induction hn : ty.index using Nat.strongRecOn generalizing ty with
  | ind n ih =>
    subst hn
    by_cases hs : ∃ id, t.shape ty = .struct id
    · obtain ⟨id, hs⟩ := hs
      exact h id (mem_mentioned.2 (.inl hs)) ty hs
    · refine ⟨_, fun p hp => ?_⟩
      obtain ⟨hlt, hsub⟩ := mentioned_of_mem_layoutParts (not_exists.1 hs) hp
      exact ih p.index hlt (fun id hid => h id (hsub hid)) rfl

theorem layoutParts_wellFounded (hwf : WellFounded fun inner outer => t.Refers outer inner) :
    WellFounded fun p whole => p ∈ t.layoutParts whole := by
  have hstruct : ∀ id b, t.shape b = .struct id → Acc (fun p whole => p ∈ t.layoutParts whole) b := by
    intro id
    induction id using hwf.induction with
    | h id ih =>
      intro b hb
      refine ⟨_, fun p hp => acc_of_mentioned fun inner hinner c hc => ih inner ?_ c hc⟩
      simp only [layoutParts, hb, List.mem_map] at hp
      obtain ⟨m, hm, rfl⟩ := hp
      cases hms : (t.struct id).members with
      | none => simp [hms] at hm
      | some ms => exact ⟨ms, hms, m, by simpa [hms] using hm, hinner⟩
  exact ⟨fun ty => acc_of_mentioned fun id _ b hb => hstruct id b hb⟩

/-! ### The bound on the depth -/

theorem layoutParts_congr {a b : TypeId} (ha : t.shape a = .struct id) (hb : t.shape b = .struct id) :
    t.layoutParts a = t.layoutParts b := by
  simp only [layoutParts, ha, hb]

theorem lt_of_members {ms : List Member} (h : (t.struct id).members = some ms) : id.index < t.structs.size := by
  by_contra hlt
  rw [struct, Array.getElem?_eq_none (Nat.le_of_not_lt hlt)] at h
  cases h

theorem exists_layoutPart_ne {f g : TypeId → Except Fault Ir.Ty} (h : t.layoutFrom f ty ≠ t.layoutFrom g ty) :
    ∃ p ∈ t.layoutParts ty, f p ≠ g p := by
  by_contra hall
  refine h (layoutFrom_congr fun p hp => ?_)
  by_contra hne
  exact hall ⟨p, hp, hne⟩

/-- The recursion leads from one type to another. -/
abbrev LeadsTo (t : TypeTable) : TypeId → TypeId → Prop :=
  Relation.ReflTransGen fun whole p => p ∈ t.layoutParts whole

/-- No struct is met again in its members. -/
theorem not_leadsTo_self (hwf : WellFounded fun p whole => p ∈ t.layoutParts whole) {b : TypeId}
    (hs : t.shape ty = .struct id) (hb : t.shape b = .struct id) (hp : p ∈ t.layoutParts ty) : ¬ t.LeadsTo p b := by
  intro hreach
  rw [layoutParts_congr hs hb] at hp
  have hloop : Relation.TransGen (fun p whole => p ∈ t.layoutParts whole) p p :=
    Relation.transGen_swap.1 (.tail' hreach hp)
  exact hwf.transGen.asymmetric p p hloop hloop

/-- If one more level makes a difference, then that many structs, and one more, lie inside each other. They are told
apart by their numbers, since the recursion does not come back to a struct. -/
theorem exists_nested_of_ne (hwf : WellFounded fun p whole => p ∈ t.layoutParts whole) {depth : Nat}
    (h : t.layoutWithin depth ty ≠ t.layoutWithin (depth + 1) ty) :
    ∃ nested : Finset Nat, nested.card = depth + 1 ∧
      ∀ i ∈ nested, i < t.structs.size ∧ ∃ b, t.shape b = .struct ⟨i⟩ ∧ t.LeadsTo ty b := by
  induction depth using Nat.strongRecOn generalizing ty with
  | ind depth ihd =>
    induction hn : ty.index using Nat.strongRecOn generalizing ty with
    | ind n ihn =>
      subst hn
      by_cases hs : ∃ id, t.shape ty = .struct id
      · obtain ⟨id, hs⟩ := hs
        cases hms : (t.struct id).members with
        | none =>
          exact absurd ((layoutWithin_of_incomplete _ hs hms).trans (layoutWithin_of_incomplete _ hs hms).symm) h
        | some ms =>
          have hself : id.index < t.structs.size ∧ ∃ b, t.shape b = .struct ⟨id.index⟩ ∧ t.LeadsTo ty b :=
            ⟨lt_of_members hms, ty, hs, .refl⟩
          obtain _ | d := depth
          · exact ⟨{id.index}, Finset.card_singleton _, by simpa using hself⟩
          rw [layoutWithin_succ_of_struct d hs, layoutWithin_succ_of_struct (d + 1) hs] at h
          obtain ⟨p, hp, hne⟩ := exists_layoutPart_ne h
          obtain ⟨nested, hcard, hnested⟩ := ihd d (Nat.lt_succ_self d) hne
          have hfresh : id.index ∉ nested := fun hmem =>
            let ⟨_, _, hb, hreach⟩ := hnested _ hmem
            not_leadsTo_self hwf hs hb hp hreach
          refine ⟨insert id.index nested, by rw [Finset.card_insert_of_notMem hfresh, hcard], ?_⟩
          rw [Finset.forall_mem_insert]
          refine ⟨hself, fun i hi => ?_⟩
          obtain ⟨hlt, b, hb, hreach⟩ := hnested i hi
          exact ⟨hlt, b, hb, .head hp hreach⟩
      · rw [layoutWithin_eq_from _ (not_exists.1 hs), layoutWithin_eq_from _ (not_exists.1 hs)] at h
        obtain ⟨p, hp, hne⟩ := exists_layoutPart_ne h
        have hlt := (mentioned_of_mem_layoutParts (not_exists.1 hs) hp).1
        obtain ⟨nested, hcard, hnested⟩ := ihn p.index hlt hne rfl
        refine ⟨nested, hcard, fun i hi => ?_⟩
        obtain ⟨hlt, b, hb, hreach⟩ := hnested i hi
        exact ⟨hlt, b, hb, .head hp hreach⟩

/-- There are no more structs to lie inside each other than there are structs. -/
theorem layoutWithin_stable (hwf : WellFounded fun p whole => p ∈ t.layoutParts whole) {depth : Nat}
    (hdepth : t.structs.size ≤ depth) (ty : TypeId) : t.layoutWithin depth ty = t.layoutWithin (depth + 1) ty := by
  by_contra h
  obtain ⟨nested, hcard, hnested⟩ := exists_nested_of_ne hwf h
  have hle : nested.card ≤ t.structs.size := by
    rw [← Finset.card_range t.structs.size]
    exact Finset.card_le_card fun i hi => Finset.mem_range.2 (hnested i hi).1
  omega

/-- The layout is given by the recursion alone. -/
theorem layout_eq_from (hwf : WellFounded fun p whole => p ∈ t.layoutParts whole) (ty : TypeId) :
    t.layout ty = t.layoutFrom t.layout ty := by
  by_cases hs : ∃ id, t.shape ty = .struct id
  · obtain ⟨id, hs⟩ := hs
    exact (layoutWithin_stable hwf (Nat.le_refl _) ty).trans (layoutWithin_succ_of_struct _ hs)
  · exact layoutWithin_eq_from _ (not_exists.1 hs)

theorem layout_unique (hwf : WellFounded fun p whole => p ∈ t.layoutParts whole)
    {f : TypeId → Except Fault Ir.Ty} (hf : ∀ ty, f ty = t.layoutFrom f ty) : f = t.layout := by
  funext ty
  induction ty using hwf.induction with
  | h ty ih => rw [hf, layout_eq_from hwf, layoutFrom_congr ih]

/-- A type without layout leads to a struct without members. -/
theorem exists_incomplete_of_error (hwf : WellFounded fun p whole => p ∈ t.layoutParts whole) {e : Fault}
    (h : t.layout ty = .error e) :
    ∃ b, t.LeadsTo ty b ∧ t.isStruct b = true ∧ t.isComplete b = false ∧ e = .unsupportedType (t.name b) := by
  induction ty using hwf.induction with
  | h ty ih =>
    rw [layout_eq_from hwf] at h
    obtain ⟨id, hs, hms, rfl⟩ | ⟨p, hp, he⟩ := layoutFrom_error h
    · exact ⟨ty, .refl, isStruct_iff.2 ⟨id, hs⟩, by simp [isComplete, structId?, hs, hms], rfl⟩
    · obtain ⟨b, hreach, hb⟩ := ih p hp he
      exact ⟨b, .head hp hreach, hb⟩

/-! ### Completion in order -/

/-- The types of the members that an operation gives to a struct. -/
def Op.completed (t : TypeTable) : Op → List TypeId
  | .completeStruct ty names types => if (t.completeStruct ty names types).isOk then types else []
  | _ => []

/-- The structs that new members mention are complete. -/
def Op.InOrder (t : TypeTable) (op : Op) : Prop :=
  ∀ ty ∈ op.completed t, ∀ id ∈ t.mentioned ty, (t.struct id).members.isSome = true

/-- All structs are completed in order. -/
def Op.AllInOrder (t : TypeTable) : List Op → Prop
  | [] => True
  | op :: ops => op.InOrder t ∧ AllInOrder (op.apply t) ops

instance Op.decidableAllInOrder : ∀ (t : TypeTable) (ops : List Op), Decidable (Op.AllInOrder t ops)
  | _, [] => .isTrue trivial
  | t, op :: ops =>
    have := decidableAllInOrder (op.apply t) ops
    inferInstanceAs (Decidable ((∀ ty ∈ op.completed t, ∀ id ∈ t.mentioned ty, (t.struct id).members.isSome = true) ∧
      AllInOrder (op.apply t) ops))

theorem members_incompleteStruct (t : TypeTable) (name : String) (id : StructId) :
    ((TypeM.incompleteStruct name t).2.struct id).members = (t.struct id).members := by
  rw [← members_declare t name id]
  show ((TypeM.intern _ _ _).2.struct id).members = _
  rcases TypeM.intern_cases (.struct ⟨t.structs.size⟩) false
    { t with structs := t.structs.push ⟨name, none, false⟩ } with ⟨_, -, h⟩ | ⟨-, h⟩
  · rw [h]
  · rw [h, struct, structs_push]
    rfl

theorem Op.types_of_mem_completed {op : Op} (h : ty ∈ op.completed t) : ty ∈ op.types := by
  unfold completed at h
  split at h
  · split at h
    · exact List.mem_cons_of_mem _ h
    · cases h
  · cases h

/-- Members are there before an operation, or it gives them to a struct that had none. -/
theorem Op.members_cases (t : TypeTable) (op : Op) {ms : List Member}
    (hms : ((op.apply t).struct id).members = some ms) :
    (t.struct id).members = some ms ∨
      (t.struct id).members = none ∧ ∀ m ∈ ms, m.ty ∈ op.completed t := by
  rcases op.additions_or t with h | ⟨name, rfl⟩ | ⟨ty, names, types, rfl⟩ | ⟨ty, rfl⟩
  · rw [struct, h.structs_eq] at hms
    exact .inl hms
  · exact .inl (members_incompleteStruct t name id ▸ hms)
  · rcases Op.apply_completeStruct t ty names types with h | h
    · rw [h] at hms
      exact .inl hms
    · obtain ⟨id', hnone, -, happly⟩ := completeStruct_ok h
      rw [happly] at hms
      rcases t.struct_modifyStruct id' id _ with hs | ⟨rfl, hs⟩
      · exact .inl (hs ▸ hms)
      · rw [hs] at hms
        cases hms
        refine .inr ⟨hnone, fun m hm => ?_⟩
        rw [completed, h]
        exact ty_mem_of_mem_zipWith hm
  · exact .inl ((t.struct_removeStruct ty id).2 ▸ hms)

/-- Members mention complete structs only, and there is an end to what they mention. -/
structure Staged (t : TypeTable) : Prop where
  closed : t.Closed
  complete : ∀ outer inner, t.Refers outer inner → (t.struct inner).members.isSome = true
  wellFounded : WellFounded fun inner outer => t.Refers outer inner

theorem staged_empty (sizeBits : Nat) : (empty sizeBits).Staged := by
  have hnone : ∀ outer inner, ¬ (empty sizeBits).Refers outer inner := by
    rintro outer inner ⟨ms, hms, -⟩
    simp [struct, empty] at hms
  exact ⟨closed_empty sizeBits, fun outer inner h => absurd h (hnone outer inner),
    ⟨fun id => ⟨_, fun inner h => absurd h (hnone id inner)⟩⟩⟩

/-- What members mention after an operation was complete before it, and was mentioned before if the struct was
complete. -/
theorem Staged.refers (h : t.Staged) {op : Op} (hhas : ∀ ty ∈ op.types, t.Has ty) (horder : op.InOrder t)
    (hrefers : (op.apply t).Refers outer inner) :
    (t.struct inner).members.isSome = true ∧ ((t.struct outer).members.isSome = true → t.Refers outer inner) := by
  have hle : t ≤ op.apply t := (Operates.steps ⟨op, hhas, rfl⟩).le
  obtain ⟨ms, hms, m, hm, hmentioned⟩ := hrefers
  rcases op.members_cases t hms with hold | ⟨hnone, hnew⟩
  · rw [(h.closed outer ms hold m hm).mem_mentioned_iff hle] at hmentioned
    have hrefers : t.Refers outer inner := ⟨ms, hold, m, hm, hmentioned⟩
    exact ⟨h.complete outer inner hrefers, fun _ => hrefers⟩
  · have hcompleted := hnew m hm
    rw [(hhas _ (Op.types_of_mem_completed hcompleted)).mem_mentioned_iff hle] at hmentioned
    exact ⟨horder _ hcompleted inner hmentioned, fun hsome => by rw [hnone] at hsome; cases hsome⟩

theorem Staged.apply (h : t.Staged) {op : Op} (hhas : ∀ ty ∈ op.types, t.Has ty) (horder : op.InOrder t) :
    (op.apply t).Staged := by
  have hsteps : Steps t (op.apply t) := Operates.steps ⟨op, hhas, rfl⟩
  refine ⟨h.closed.steps hsteps, fun outer inner hrefers => ?_,
    wellFounded_of_stage h.wellFounded fun _ _ => h.refers hhas horder⟩
  obtain ⟨ms, hms⟩ := Option.isSome_iff_exists.1 (h.refers hhas horder hrefers).1
  rw [structMembers_of_le hsteps.le hms]
  rfl

theorem Staged.foldl {ops : List Op} (h : t.Staged) (happlies : Op.Applies t ops) (horder : Op.AllInOrder t ops) :
    (ops.foldl Op.apply t).Staged := by
  induction ops generalizing t with
  | nil => exact h
  | cons op ops ih => exact ih (h.apply happlies.1 horder.1) happlies.2 horder.2

/-- Structs are linked by the type: it is a pointer to a struct, or a pointer to such a type or an array of such. -/
inductive Links (t : TypeTable) : TypeId → Prop
  | pointee {ty target : TypeId} (hs : t.shape ty = .pointer (some target)) (h : t.isStruct target = true) : Links t ty
  | pointer {ty target : TypeId} (hs : t.shape ty = .pointer (some target)) (h : Links t target) : Links t ty
  | array {ty element : TypeId} {dim : Nat} (hs : t.shape ty = .array element dim) (h : Links t element) : Links t ty

theorem Links.mentioned (h : t.Links ty) : t.mentioned ty = [] := by
  refine List.eq_nil_iff_forall_not_mem.2 fun id => ?_
  induction h with
  | pointee hs h =>
    rw [mem_mentioned]
    simp [hs, Shape.parts, isPointer, h]
  | pointer hs _ ih | array hs _ ih =>
    rw [mem_mentioned]
    simp [hs, Shape.parts, ih]

end TypeTable

open TypeTable

/-- Where structs are completed in order, the recursion of layouts ends at every type: there is no infinite descent
along the types that it asks for, and the layouts are the one solution of its equations. The result is a layout, or
the error of a struct that has no members yet. Types that link structs, complete or not, may be used in members at
any time. -/
theorem layout_recursion_ends {sizeBits : Nat} {ops : List Op} (happlies : Op.Applies (.empty sizeBits) ops)
    (horder : Op.AllInOrder (.empty sizeBits) ops) {t : TypeTable} (ht : ops.foldl Op.apply (.empty sizeBits) = t) :
    (WellFounded fun p whole => p ∈ t.layoutParts whole) ∧
    (∀ f : TypeId → Except Fault Ir.Ty, (∀ ty, f ty = t.layoutFrom f ty) ↔ f = t.layout) ∧
    (∀ ty, (∃ ir, t.layout ty = .ok ir) ∨
      ∃ b, t.LeadsTo ty b ∧ t.isStruct b = true ∧ t.isComplete b = false ∧
        t.layout ty = .error (.unsupportedType (t.name b))) ∧
    ∀ ty names types, (∀ m ∈ types, t.Links m ∨ t.mentioned m = []) → (Op.completeStruct ty names types).InOrder t := by
  have hwf := layoutParts_wellFounded (ht ▸ (staged_empty sizeBits).foldl happlies horder).wellFounded
  refine ⟨hwf, fun f => ⟨layout_unique hwf, fun hf ty => hf ▸ layout_eq_from hwf ty⟩, fun ty => ?_,
    fun ty names types hlinks m hm id hid => ?_⟩
  · cases h : t.layout ty with
    | ok ir => exact .inl ⟨ir, rfl⟩
    | error e =>
      obtain ⟨b, hreach, hstruct, hcomplete, rfl⟩ := exists_incomplete_of_error hwf h
      exact .inr ⟨b, hreach, hstruct, hcomplete, rfl⟩
  · have hmem : m ∈ types := by
      rw [Op.completed] at hm
      split at hm
      · exact hm
      · cases hm
    have hnone : t.mentioned m = [] := (hlinks m hmem).elim Links.mentioned fun h => h
    rw [hnone] at hid
    cases hid

namespace Woven

/-- Two structs that point to themselves and each other, through pointers, arrays, a const flag and a name, and one of
which is a member of the other. -/
def ops : List Op :=
  [.incompleteStruct "Node", .integer 32 true, .pointer ⟨0⟩, .pointer ⟨2⟩, .array ⟨2⟩ 4, .incompleteStruct "Tree",
    .pointer ⟨5⟩, .array ⟨6⟩ 2, .pointer ⟨7⟩, .const ⟨0⟩, .named "Item" ⟨9⟩, .pointer ⟨10⟩,
    .completeStruct ⟨5⟩ ["root", "sides"] [⟨11⟩, ⟨8⟩],
    .completeStruct ⟨0⟩ ["value", "next", "slots", "home"] [⟨1⟩, ⟨3⟩, ⟨4⟩, ⟨5⟩]]

def table : TypeTable := ops.foldl Op.apply (.empty 64)

def node : Ir.Ty := .ptr (.struct (some "Node.0") [])

def tree : Ir.Ty := .struct (some "Tree.1") [node, .ptr (.array 2 (.ptr (.struct (some "Tree.1") [])))]

end Woven

open Woven in
theorem woven_layout_recursion_ends :
    (Op.Applies (.empty 64) ops ∧ Op.AllInOrder (.empty 64) ops ∧ ops.foldl Op.apply (.empty 64) = table) ∧
    (WellFounded fun p whole => p ∈ table.layoutParts whole) ∧
    table.layout ⟨0⟩ = table.layoutFrom table.layout ⟨0⟩ ∧
    table.layout ⟨0⟩ = .ok (.struct (some "Node.0") [.i32, .ptr node, .array 4 node, tree]) := by
  have happlies : Op.Applies (.empty 64) ops := by decide +kernel
  have horder : Op.AllInOrder (.empty 64) ops := by decide +kernel
  obtain ⟨hwf, hunique, -, -⟩ := layout_recursion_ends happlies horder (t := table) rfl
  exact ⟨⟨happlies, horder, rfl⟩, hwf, (hunique table.layout).2 rfl ⟨0⟩, by decide +kernel⟩

-- A struct with a pointer to an array of itself is completed out of order, and has no layout.
example :
    let ops : List Op := [.incompleteStruct "Ring", .array ⟨0⟩ 2, .pointer ⟨1⟩, .completeStruct ⟨0⟩ ["rest"] [⟨2⟩]]
    ¬ Op.AllInOrder (.empty 64) ops ∧
      (ops.foldl Op.apply (.empty 64)).layout ⟨0⟩ = .error (.unboundedType "struct Ring") := by
  decide +kernel

end TypedCore
