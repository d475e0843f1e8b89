import TypedCore.Proofs.Session.Reachable
import TypedCore.Proofs.Session.Tags

/-!
# Scope discipline

Symbols and struct tags live in scopes that are opened and closed together. What is done between the opening
of a scope and its end leaves the scopes around it as they were, apart from functions, which go to the root
scope wherever they are declared. The structs declared in between are removed with the scope, and no others.
-/

namespace TypedCore

namespace Session

variable {s s₁ s' : Session}

/-! ### What is done to a session -/

/-- Something that an operation has put into scope, or found there. -/
inductive Declared where
  | name (symbol : SymbolId) (storage : Storage)
  | struct (ty : TypeId)
deriving DecidableEq

/-- One operation that neither opens nor closes a scope, with what it gives. Expressions may be built from any
others, types are types that have been issued, and structs are not removed by hand. -/
inductive Act (s : Session) : List Declared → Session → Prop
  | construct {es : List Expr} {x : SessionM Expr} {r : Except Stop Expr} {s' : Session}
      (hx : Constructs s.types es x) (hr : Ends x s r s') : Act s [] s'
  | declareVariable {name : String} {ty : TypeId} {init : Option Expr} {span : Span} {r : Except Stop Declaration}
      {s' : Session} (hr : Ends (Session.declareVariable name ty init span) s r s') :
      Act s (r.toOption.toList.map fun d => .name d.symbol d.storage) s'
  | declareFunction {name : String} {ty : TypeId} {span : Span} {r : Except Stop SymbolId} {s' : Session}
      (hr : Ends (Session.declareFunction name ty span) s r s') : Act s (r.toOption.toList.map (.name · .function)) s'
  | declareParameter {name : String} {ty : TypeId} {span : Span} {r : Except Stop SymbolId} {s' : Session}
      (hr : Ends (Session.declareParameter name ty span) s r s') : Act s (r.toOption.toList.map (.name · .automatic)) s'
  | declareStruct {name : String} {span : Span} {r : Except Stop TypeId} {s' : Session}
      (hr : Ends (Session.declareStruct name span) s r s') : Act s (r.toOption.toList.map .struct) s'
  | completeStruct {ty : TypeId} {members : List Member} {span : Span} {r : Except Stop Unit} {s' : Session}
      (hm : ∀ m ∈ members, s.types.Has m.ty) (hr : Ends (Session.completeStruct ty members span) s r s') : Act s [] s'
  | types {op : TypeTable.Op} (hop : ∀ ty, op ≠ .removeStruct ty) (hhas : ∀ ty ∈ op.types, s.types.Has ty) :
      Act s [] { s with types := op.apply s.types }
  | report (log : Log) : Act s [] { s with log }

/-- Any operation. -/
inductive Move (s : Session) : List Declared → Session → Prop
  | act {given : List Declared} {s' : Session} (h : Act s given s') : Move s given s'
  | openScope : Move s [] s.openScope
  | closeScope : Move s [] s.closeScope

/-- A session can get to `s`. -/
inductive Visited : Session → Prop
  | new (options : Options) (source : Option String) : Visited (Session.new options source)
  | move {s s' : Session} {given : List Declared} (h : Visited s) (hm : Move s given s') : Visited s'

/-- Operations among which each scope that is opened is closed, and no other is. -/
inductive Balanced : Session → List Declared → Session → Prop
  | nil (s : Session) : Balanced s [] s
  | act {s s₁ s' : Session} {given given' : List Declared} (h : Balanced s given s₁) (ha : Act s₁ given' s') :
      Balanced s (given ++ given') s'
  | nest {s s₁ s₂ : Session} {given given' : List Declared} (h : Balanced s given s₁)
      (hb : Balanced s₁.openScope given' s₂) : Balanced s (given ++ given') s₂.closeScope

/-! ### What one operation does -/

/-- An operation leaves the scopes as they are, declares one name, or declares one tag. -/
inductive Effect (s : Session) (given : List Declared) (s' : Session) : Prop
  | quiet (hsymbols : s'.symbols = s.symbols) (htags : s'.tags = s.tags) (htypes : s.types.Spares s'.types)
      (hnames : ∀ id storage, .name id storage ∈ given → storage = .function)
      (hstructs : ∀ ty, .struct ty ∈ given → ∃ tag ∈ s.tags.innermost, tag.value = ty)
  | named {name : String} {binding : Binding} {span : Span} {target : Target} {id : SymbolId}
      (hd : s.symbols.declare name binding span target = .ok (id, s'.symbols)) (htags : s'.tags = s.tags)
      (htypes : s.types.Spares s'.types) (hroot : target = .root → binding.storage = .function)
      (hgiven : given = [.name id binding.storage])
  | tagged {name : String} {span : Span} {ty : TypeId} {id : SymbolId}
      (hnew : TypeM.incompleteStruct name s.types = (ty, s'.types))
      (hd : s.tags.declare name ty span .innermost = .ok (id, s'.tags)) (hsymbols : s'.symbols = s.symbols)
      (hgiven : given = [.struct ty])

theorem Effect.of_grown (h : Grown s s') : Effect s [] s' :=
  .quiet h.symbols h.tags (.of_additions h.added) nofun nofun

theorem bind_effect {name : String} {binding : Binding} {span : Span} {target : Target} {r : Except Stop SymbolId}
    (hroot : target = .root → binding.storage = .function)
    (hx : Ends (Session.bind name binding span target) s r s') :
    Effect s (r.toOption.toList.map (.name · binding.storage)) s' := by
  rcases bind_cases hx with ⟨stop, log, rfl, rfl⟩ | ⟨id, symbols, rfl, hd, rfl⟩
  · exact .of_grown (grown_log s log)
  · exact .named hd rfl (.refl _) hroot rfl

theorem Act.effect {given : List Declared} (h : Act s given s') : Effect s given s' := by
  cases h with
  | construct hx hr => exact .of_grown (hx.grows hr)
  | declareVariable hr =>
    rcases declareVariable_cases hr with ⟨⟨stop, rfl⟩, hg⟩ | ⟨d, s₁, symbols, rfl, hinits, -, -, hd, rfl⟩
    · exact .of_grown hg
    · have hg := hinits.grown
      rw [hg.symbols] at hd
      exact .named hd hg.tags (.of_additions hg.added) nofun rfl
  | declareFunction hr =>
    rcases declareFunction_cases hr with ⟨symbol, -, -, -, rfl, rfl⟩ | hr
    · refine .quiet rfl rfl (.refl _) (fun id storage hmem => ?_) fun ty hmem => ?_
      · obtain ⟨id', -, hsame⟩ := List.mem_map.1 hmem
        cases hsame
        rfl
      · obtain ⟨id', -, hsame⟩ := List.mem_map.1 hmem
        cases hsame
    · exact bind_effect (fun _ => rfl) hr
  | declareParameter hr =>
    refine bind_effect ?_ hr
    exact nofun
  | declareStruct hr =>
    rcases declareStruct_cases hr with ⟨tag, hl, rfl, rfl⟩ | ⟨ty, types, id, tags, hnew, rfl, hd, rfl⟩
    · refine .quiet rfl rfl (.refl _) (fun id storage hmem => ?_) fun ty hmem => ?_
      · obtain ⟨ty', -, hsame⟩ := List.mem_map.1 hmem
        cases hsame
      · have hfound : tag ∈ s'.tags.innermost := List.mem_of_find?_eq_some hl
        obtain ⟨ty', hty', hsame⟩ := List.mem_map.1 hmem
        cases hsame
        exact ⟨tag, hfound, (List.mem_singleton.1 hty').symm⟩
    · exact .tagged hnew hd rfl rfl
  | completeStruct hm hr =>
    rcases completeStruct_cases hr with ⟨stop, log, rfl, rfl⟩ | ⟨types, rfl, hc, rfl⟩
    · exact .of_grown (grown_log s log)
    · refine .quiet rfl rfl (TypeTable.spares_completeStruct (fun ty hty => ?_) hc) nofun nofun
      obtain ⟨m, hmem, rfl⟩ := List.mem_map.1 hty
      exact hm m hmem
  | types hop hhas => exact .quiet rfl rfl (TypeTable.Op.spares hop hhas) nofun nofun
  | report log => exact .of_grown (grown_log s log)

/-! ### The invariant -/

/-- The types are in step with their maps, names and tags have the same scopes open, and the tags stand for structs
of their own. -/
structure Disciplined (s : Session) : Prop where
  indexed : s.types.Indexed
  depth : s.tags.depth = s.symbols.depth
  tagged : s.types.Tagged s.tags.symbols

theorem disciplined_new (options : Options) (source : Option String) : (Session.new options source).Disciplined :=
  ⟨(TypeTable.canonical_empty _).toIndexed, rfl, .nil _⟩

theorem Disciplined.effect {given : List Declared} (h : s.Disciplined) (he : Effect s given s') : s'.Disciplined := by
  cases he with
  | quiet hsymbols htags htypes =>
    refine ⟨h.indexed.steps htypes.le, ?_, ?_⟩
    · rw [hsymbols, htags]
      exact h.depth
    · rw [htags]
      exact h.tagged.spares htypes
  | named hd htags htypes =>
    obtain ⟨-, hs'⟩ := SymbolTable.declare_ok hd
    refine ⟨h.indexed.steps htypes.le, ?_, ?_⟩
    · rw [hs', htags, SymbolTable.depth_insert]
      exact h.depth
    · rw [htags]
      exact h.tagged.spares htypes
  | @tagged name span ty id hnew hd hsymbols =>
    obtain ⟨-, hs'⟩ := SymbolTable.declare_ok hd
    refine ⟨h.indexed.steps (TypeM.incompleteStruct_le hnew), ?_, ?_⟩
    · rw [hs', hsymbols, SymbolTable.depth_insert]
      exact h.depth
    · obtain ⟨level, hperm⟩ := SymbolTable.symbols_insert s.tags name ty span .innermost
      rw [hs']
      exact (h.tagged.cons h.indexed hnew rfl rfl).perm hperm

theorem closeScope_types (s : Session) : s.closeScope.types = s.types.dropTags s.tags.closeScope.1 := rfl

theorem Disciplined.closeScope (h : s.Disciplined) : s.closeScope.Disciplined := by
  refine ⟨h.indexed.steps (s.types.dropTags_le _), ?_, ?_⟩
  · show s.tags.closeScope.2.depth = s.symbols.closeScope.2.depth
    rw [SymbolTable.depth_closeScope, SymbolTable.depth_closeScope, h.depth]
  · have htagged := h.tagged
    rw [SymbolTable.symbols_closeScope] at htagged
    exact htagged.dropTags

theorem Disciplined.openScope (h : s.Disciplined) : s.openScope.Disciplined :=
  ⟨h.indexed, congrArg Nat.succ h.depth, h.tagged⟩

theorem Disciplined.move {given : List Declared} (h : s.Disciplined) (hm : Move s given s') : s'.Disciplined := by
  cases hm with
  | act ha => exact h.effect ha.effect
  | openScope => exact h.openScope
  | closeScope => exact h.closeScope

theorem Visited.disciplined (h : Visited s) : s.Disciplined := by
  induction h with
  | new options source => exact disciplined_new options source
  | move _ hm ih => exact ih.move hm

/-- A tag that is found stands for a struct of that name, which is not removed. -/
theorem Disciplined.lookupStruct (h : s.Disciplined) {name : String} {ty : TypeId}
    (hl : s.lookupStruct name = some ty) :
    s.types.isStruct ty = true ∧ s.types.isRemoved ty = false ∧ s.types.structName? ty = some name := by
  obtain ⟨tag, hfound, rfl⟩ := Option.map_eq_some_iff.1 hl
  obtain ⟨hmem, rfl⟩ := SymbolTable.mem_symbols_of_lookup hfound
  obtain ⟨id, hmarks, hremoved⟩ := h.tagged.marks tag hmem
  have hid := hmarks.structId?_eq
  refine ⟨?_, ?_, ?_⟩
  · rw [TypeTable.structId?] at hid
    rw [TypeTable.isStruct]
    split at hid <;> simp_all
  · rw [TypeTable.isRemoved, hid]
    exact Bool.not_eq_true _ ▸ hremoved
  · rw [TypeTable.structName?, hid, Option.map_some, hmarks.name_eq]

/-! ### Numbers of symbols -/

/-- Both tables get to where they are by openings, closings and declarations. -/
theorem Visited.issues (h : Visited s) :
    (∃ ids, SymbolTable.Issues {} ids s.symbols) ∧ ∃ ids, SymbolTable.Issues {} ids s.tags := by
  induction h with
  | new => exact ⟨⟨[], .refl⟩, [], .refl⟩
  | move _ hm ih =>
    obtain ⟨⟨names, hnames⟩, tags, htags⟩ := ih
    cases hm with
    | act ha =>
      cases ha.effect with
      | quiet hsymbols htags' =>
        rw [hsymbols, htags']
        exact ⟨⟨names, hnames⟩, tags, htags⟩
      | named hd htags' =>
        rw [htags']
        exact ⟨⟨_, hnames.declare hd⟩, tags, htags⟩
      | tagged _ hd hsymbols =>
        rw [hsymbols]
        exact ⟨⟨names, hnames⟩, _, htags.declare hd⟩
    | openScope => exact ⟨⟨names, hnames.openScope⟩, tags, htags.openScope⟩
    | closeScope => exact ⟨⟨names, hnames.closeScope⟩, tags, htags.closeScope⟩

/-! ### Inside a scope -/

/-- Only the innermost scope has changed, and the root scope may have gained functions. -/
structure Inside (t t' : SymbolTable Binding) : Prop where
  inner : ∃ top, t'.inner = top :: t.inner.tail
  nextId_le : t.nextId ≤ t'.nextId
  root : ∃ gained, t'.root = t.root ++ gained ∧
    ∀ symbol ∈ gained, symbol.value.storage = .function ∧ t.nextId ≤ symbol.id

theorem Inside.refl {t : SymbolTable Binding} (h : t.inner ≠ []) : Inside t t :=
  ⟨⟨t.inner.head h, (List.cons_head_tail h).symm⟩, Nat.le_refl _, [], (List.append_nil _).symm, nofun⟩

theorem Inside.insert {t t' : SymbolTable Binding} {name : String} {binding : Binding} {span : Span} {target : Target}
    (h : Inside t t') (hroot : target = .root → binding.storage = .function) :
    Inside t (t'.insert name binding span target) := by
  obtain ⟨top, hinner⟩ := h.inner
  obtain ⟨gained, hgained, hfunctions⟩ := h.root
  have hle := h.nextId_le
  rcases SymbolTable.insert_cases t' name binding span target with
    ⟨scope, rest, level, -, hinner', h'⟩ | ⟨hcase, h'⟩
  · rw [h']
    cases hinner.symm.trans hinner'
    exact ⟨⟨_, rfl⟩, Nat.le_succ_of_le hle, gained, hgained, hfunctions⟩
  · -- the innermost scope is open, so that only a function goes to the root scope
    have htarget : target = .root := hcase.resolve_right (by simp [hinner])
    rw [h']
    refine ⟨⟨top, hinner⟩, Nat.le_succ_of_le hle, gained ++ [⟨t'.nextId, name, binding, span, 0⟩], ?_, ?_⟩
    · rw [hgained, List.append_assoc]
    · intro symbol hsymbol
      rcases List.mem_append.1 hsymbol with hold | hnew
      · exact hfunctions symbol hold
      · rw [List.mem_singleton.1 hnew]
        exact ⟨hroot htarget, hle⟩

/-- What a run inside a scope does. The structs that it gives are tagged in the scope, unless they are removed. -/
structure Confined (s : Session) (given : List Declared) (s' : Session) : Prop where
  symbols : Inside s.symbols s'.symbols
  tags : ∃ new, s'.tags.inner = (s.tags.innermost ++ new) :: s.tags.inner.tail ∧
    ∀ tag ∈ new, .struct tag.value ∈ given
  tagRoot : s'.tags.root = s.tags.root
  le : s.types ≤ s'.types
  structs : ∀ ty, .struct ty ∈ given → s'.types.Has ty ∧
    ((∃ tag ∈ s'.tags.innermost, tag.value = ty) ∨ s'.types.isRemoved ty = true)
  removed : ∀ id, s'.types.Removed id →
    s.types.Removed id ∨ ∃ ty, .struct ty ∈ given ∧ s'.types.structId? ty = some id

theorem Confined.refl (hsymbols : s.symbols.inner ≠ []) (htags : s.tags.inner ≠ []) : Confined s [] s := by
  refine ⟨.refl hsymbols, ⟨[], ?_, nofun⟩, rfl, le_rfl, nofun, fun id h => .inl h⟩
  cases hinner : s.tags.inner with
  | nil => exact absurd hinner htags
  | cons top rest => simp [SymbolTable.innermost, hinner]

/-- Types that are spared keep the account of structs. -/
theorem Confined.spares {given given' : List Declared} (h : Confined s given s₁)
    (htypes : s₁.types.Spares s'.types)
    (hold : ∀ tag ∈ s₁.tags.innermost, tag ∈ s'.tags.innermost)
    (hgiven : ∀ ty, .struct ty ∈ given' → s'.types.Has ty ∧ ∃ tag ∈ s'.tags.innermost, tag.value = ty) :
    (∀ ty, .struct ty ∈ given ++ given' → s'.types.Has ty ∧
      ((∃ tag ∈ s'.tags.innermost, tag.value = ty) ∨ s'.types.isRemoved ty = true)) ∧
    ∀ id, s'.types.Removed id →
      s.types.Removed id ∨ ∃ ty, .struct ty ∈ given ++ given' ∧ s'.types.structId? ty = some id := by
  refine ⟨fun ty hty => ?_, fun id hid => ?_⟩
  · rcases List.mem_append.1 hty with hty | hty
    · obtain ⟨hhas, hcase⟩ := h.structs ty hty
      refine ⟨hhas.mono htypes.le, hcase.imp (fun ⟨tag, htag, heq⟩ => ⟨tag, hold tag htag, heq⟩) fun hr => ?_⟩
      exact hhas.isRemoved_of_le htypes.le hr
    · exact ⟨(hgiven ty hty).1, .inl (hgiven ty hty).2⟩
  · rcases h.removed id ((htypes.removed_iff id).1 hid) with hr | ⟨ty, hty, heq⟩
    · exact .inl hr
    · exact .inr ⟨ty, List.mem_append_left _ hty, ((h.structs ty hty).1.structId?_eq htypes.le).trans heq⟩

theorem Confined.effect {given given' : List Declared} (h : Confined s given s₁) (hd : s₁.Disciplined)
    (he : Effect s₁ given' s') : Confined s (given ++ given') s' := by
  obtain ⟨new, hnew, hgiven⟩ := h.tags
  have hnew' : ∀ tag ∈ new, .struct tag.value ∈ given ++ given' :=
    fun tag htag => List.mem_append_left _ (hgiven tag htag)
  cases he with
  | quiet hsymbols htags htypes hnames hfound =>
    have hstructs : ∀ ty, .struct ty ∈ given' → s'.types.Has ty ∧ ∃ tag ∈ s'.tags.innermost, tag.value = ty := by
      intro ty hty
      obtain ⟨tag, htag, rfl⟩ := hfound ty hty
      obtain ⟨id, hmarks, -⟩ := hd.tagged.marks tag (SymbolTable.mem_symbols_of_innermost htag)
      exact ⟨hmarks.has.mono htypes.le, tag, htags ▸ htag, rfl⟩
    obtain ⟨hstructs, hremoved⟩ := h.spares htypes (fun tag htag => htags ▸ htag) hstructs
    exact ⟨hsymbols ▸ h.symbols, ⟨new, htags ▸ hnew, hnew'⟩, htags ▸ h.tagRoot, h.le.trans htypes.le, hstructs,
      hremoved⟩
  | @named name binding span target id hdecl htags htypes hroot hgiven' =>
    obtain ⟨-, hinsert⟩ := SymbolTable.declare_ok hdecl
    have hstructs : ∀ ty, .struct ty ∈ given' → s'.types.Has ty ∧ ∃ tag ∈ s'.tags.innermost, tag.value = ty := by
      intro ty hty
      rw [hgiven'] at hty
      cases List.mem_singleton.1 hty
    obtain ⟨hstructs, hremoved⟩ := h.spares htypes (fun tag htag => htags ▸ htag) hstructs
    exact ⟨hinsert ▸ h.symbols.insert hroot, ⟨new, htags ▸ hnew, hnew'⟩, htags ▸ h.tagRoot, h.le.trans htypes.le,
      hstructs, hremoved⟩
  | @tagged name span ty id hstruct hdecl hsymbols hgiven' =>
    obtain ⟨-, hinsert⟩ := SymbolTable.declare_ok hdecl
    obtain ⟨tag, rfl, hinner, hroot⟩ : ∃ tag : Symbol TypeId, tag.value = ty ∧
        s'.tags.inner = (s.tags.innermost ++ (new ++ [tag])) :: s.tags.inner.tail ∧ s'.tags.root = s₁.tags.root := by
      rcases SymbolTable.insert_cases s₁.tags name ty span .innermost with
        ⟨scope, rest, level, -, hinner, hinsert'⟩ | ⟨hcase, -⟩
      · cases hnew.symm.trans hinner
        rw [hinsert, hinsert']
        exact ⟨⟨s₁.tags.nextId, name, ty, span, level⟩, rfl, by rw [← List.append_assoc], rfl⟩
      · rw [hnew] at hcase
        simp at hcase
    have hinnermost : s'.tags.innermost = s₁.tags.innermost ++ [tag] := by
      simp [SymbolTable.innermost, hinner, hnew]
    have htypes := TypeTable.spares_incompleteStruct hstruct
    have htag : tag ∈ s'.tags.innermost := by simp [hinnermost]
    have hstructs : ∀ ty, .struct ty ∈ given' → s'.types.Has ty ∧ ∃ tag ∈ s'.tags.innermost, tag.value = ty := by
      intro ty hty
      rw [hgiven'] at hty
      cases List.mem_singleton.1 hty
      exact ⟨(TypeM.incompleteStruct_shape hstruct hd.indexed).1, tag, htag, rfl⟩
    obtain ⟨hstructs, hremoved⟩ := h.spares htypes (fun tag' htag' => by simp [hinnermost, htag']) hstructs
    refine ⟨hsymbols ▸ h.symbols, ⟨new ++ [tag], hinner, ?_⟩, hroot.trans h.tagRoot, h.le.trans htypes.le, hstructs,
      hremoved⟩
    intro tag' htag'
    rcases List.mem_append.1 htag' with htag' | htag'
    · exact hnew' tag' htag'
    · rw [List.mem_singleton.1 htag', hgiven']
      exact List.mem_append_right _ (List.mem_singleton_self _)

/-! ### The end of a scope -/

/-- The scopes are as they were when a scope was opened, but the root scope may have gained functions. Of the
structs, exactly those that were declared in between are removed. -/
structure Restores (s : Session) (given : List Declared) (s' : Session) : Prop where
  inner : s'.symbols.inner = s.symbols.inner
  root : ∃ gained, s'.symbols.root = s.symbols.root ++ gained ∧
    ∀ symbol ∈ gained, symbol.value.storage = .function ∧ s.symbols.nextId ≤ symbol.id
  nextId_le : s.symbols.nextId ≤ s'.symbols.nextId
  tagInner : s'.tags.inner = s.tags.inner
  tagRoot : s'.tags.root = s.tags.root
  le : s.types ≤ s'.types
  removed : ∀ ty, .struct ty ∈ given → s'.types.isRemoved ty = true
  spared : ∀ id, (∀ ty, .struct ty ∈ given → s'.types.structId? ty ≠ some id) →
    (s'.types.Removed id ↔ s.types.Removed id)

theorem Confined.close {given : List Declared} (h : Confined s.openScope given s₁) (hd : s₁.Disciplined) :
    Restores s given s₁.closeScope := by
  obtain ⟨top, hinner⟩ := h.symbols.inner
  obtain ⟨new, hnew, hgiven⟩ := h.tags
  replace hinner : s₁.symbols.inner = top :: s.symbols.inner := hinner
  replace hnew : s₁.tags.inner = new :: s.tags.inner := hnew
  have hsymbols : s₁.symbols.closeScope.2 = { s₁.symbols with inner := s.symbols.inner } := by
    simp only [SymbolTable.closeScope, hinner]
  have htags : s₁.tags.closeScope = (new, { s₁.tags with inner := s.tags.inner }) := by
    simp only [SymbolTable.closeScope, hnew]
  have htypes : s₁.closeScope.types = s₁.types.dropTags new := by rw [closeScope_types, htags]
  have hle : s₁.types ≤ s₁.closeScope.types := htypes ▸ s₁.types.dropTags_le new
  have hinnermost : s₁.tags.innermost = new := by simp [SymbolTable.innermost, hnew]
  have hmarks : ∀ tag ∈ new, ∃ id, s₁.types.Marks tag id := by
    intro tag htag
    obtain ⟨id, hmarks, -⟩ := hd.tagged.marks tag (SymbolTable.mem_symbols_of_innermost (hinnermost ▸ htag))
    exact ⟨id, hmarks⟩
  have hdropped : ∀ id, s₁.closeScope.types.Removed id ↔
      s₁.types.Removed id ∨ ∃ tag ∈ new, s₁.types.structId? tag.value = some id := by
    intro id
    rw [htypes]
    exact TypeTable.removed_dropTags hmarks
  refine ⟨?_, ?_, ?_, ?_, ?_, h.le.trans hle, fun ty hty => ?_, fun id hid => ⟨fun hr => ?_, fun hr => ?_⟩⟩
  · show s₁.symbols.closeScope.2.inner = s.symbols.inner
    rw [hsymbols]
  · show ∃ gained, s₁.symbols.closeScope.2.root = s.symbols.root ++ gained ∧ _
    rw [hsymbols]
    exact h.symbols.root
  · show s.symbols.nextId ≤ s₁.symbols.closeScope.2.nextId
    rw [hsymbols]
    exact h.symbols.nextId_le
  · show s₁.tags.closeScope.2.inner = s.tags.inner
    rw [htags]
  · show s₁.tags.closeScope.2.root = s.tags.root
    rw [htags]
    exact h.tagRoot
  · obtain ⟨hhas, ⟨tag, htag, rfl⟩ | hremoved⟩ := h.structs ty hty
    · obtain ⟨id, hmarks⟩ := hmarks tag (hinnermost ▸ htag)
      have hid := (hhas.structId?_eq hle).trans hmarks.structId?_eq
      refine TypeTable.isRemoved_iff.2 ⟨id, hid, (hdropped id).2 (.inr ?_)⟩
      exact ⟨tag, hinnermost ▸ htag, hmarks.structId?_eq⟩
    · exact hhas.isRemoved_of_le hle hremoved
  · rcases (hdropped id).1 hr with hr | ⟨tag, htag, heq⟩
    · rcases h.removed id hr with hr | ⟨ty, hty, heq⟩
      · exact hr
      · exact absurd (((h.structs ty hty).1.structId?_eq hle).trans heq) (hid ty hty)
    · have hhas := (h.structs _ (hgiven tag htag)).1
      exact absurd ((hhas.structId?_eq hle).trans heq) (hid _ (hgiven tag htag))
  · exact hr.mono (h.le.trans hle)

/-- A scope inside a scope. -/
theorem Confined.restores {given given' : List Declared} (h : Confined s given s₁) (hr : Restores s₁ given' s') :
    Confined s (given ++ given') s' := by
  obtain ⟨top, hinner⟩ := h.symbols.inner
  obtain ⟨gained, hgained, hfunctions⟩ := h.symbols.root
  obtain ⟨gained', hgained', hfunctions'⟩ := hr.root
  obtain ⟨new, hnew, hgiven⟩ := h.tags
  have hinnermost : s'.tags.innermost = s₁.tags.innermost := by
    rw [SymbolTable.innermost, SymbolTable.innermost, hr.tagInner, hr.tagRoot]
  have hle := h.symbols.nextId_le
  refine ⟨⟨⟨top, hr.inner.trans hinner⟩, Nat.le_trans hle hr.nextId_le, gained ++ gained', ?_, ?_⟩,
    ⟨new, hr.tagInner.trans hnew, fun tag htag => List.mem_append_left _ (hgiven tag htag)⟩,
    hr.tagRoot.trans h.tagRoot, h.le.trans hr.le, fun ty hty => ?_, fun id hid => ?_⟩
  · rw [hgained', hgained, List.append_assoc]
  · intro symbol hsymbol
    rcases List.mem_append.1 hsymbol with hsymbol | hsymbol
    · exact hfunctions symbol hsymbol
    · exact ⟨(hfunctions' symbol hsymbol).1, Nat.le_trans hle (hfunctions' symbol hsymbol).2⟩
  · rcases List.mem_append.1 hty with hty | hty
    · obtain ⟨hhas, hcase⟩ := h.structs ty hty
      rw [hinnermost]
      exact ⟨hhas.mono hr.le, hcase.imp id (hhas.isRemoved_of_le hr.le)⟩
    · have hremoved := hr.removed ty hty
      obtain ⟨id, hid, -⟩ := TypeTable.isRemoved_iff.1 hremoved
      exact ⟨TypeTable.has_of_structId? hid, .inr hremoved⟩
  · by_cases hin : ∃ ty, .struct ty ∈ given' ∧ s'.types.structId? ty = some id
    · obtain ⟨ty, hty, heq⟩ := hin
      exact .inr ⟨ty, List.mem_append_right _ hty, heq⟩
    · have hout : ∀ ty, .struct ty ∈ given' → s'.types.structId? ty ≠ some id := fun ty hty heq => hin ⟨ty, hty, heq⟩
      rcases h.removed id ((hr.spared id hout).1 hid) with hold | ⟨ty, hty, heq⟩
      · exact .inl hold
      · exact .inr ⟨ty, List.mem_append_left _ hty, ((h.structs ty hty).1.structId?_eq hr.le).trans heq⟩

theorem Balanced.disciplined {given : List Declared} (h : Balanced s given s') (hd : s.Disciplined) :
    s'.Disciplined := by
  induction h with
  | nil => exact hd
  | act _ ha ih => exact (ih hd).effect ha.effect
  | nest _ _ ih ihb => exact (ihb (ih hd).openScope).closeScope

theorem Balanced.visited {given : List Declared} (h : Balanced s given s') (hs : Visited s) : Visited s' := by
  induction h with
  | nil => exact hs
  | act _ ha ih => exact (ih hs).move (.act ha)
  | nest _ _ ih ihb => exact (ihb ((ih hs).move .openScope)).move .closeScope

/-- The induction is on the operations; a nested scope is confined to itself and then closed. -/
theorem Balanced.confined {given : List Declared} (h : Balanced s given s') (hd : s.Disciplined)
    (hsymbols : s.symbols.inner ≠ []) (htags : s.tags.inner ≠ []) : Confined s given s' := by
  induction h with
  | nil => exact .refl hsymbols htags
  | act h ha ih => exact (ih hd hsymbols htags).effect (h.disciplined hd) ha.effect
  | nest h hb ih ihb =>
    have hopened := (h.disciplined hd).openScope
    exact (ih hd hsymbols htags).restores
      ((ihb hopened (List.cons_ne_nil _ _) (List.cons_ne_nil _ _)).close (hb.disciplined hopened))

theorem Balanced.restores {given : List Declared} (h : Balanced s.openScope given s₁) (hd : s.Disciplined) :
    Restores s given s₁.closeScope :=
  (h.confined hd.openScope (List.cons_ne_nil _ _) (List.cons_ne_nil _ _)).close (h.disciplined hd.openScope)

/-- Names are found as before, unless it is a function that was not there. -/
theorem Restores.lookup {given : List Declared} (h : Restores s given s') (name : String) :
    s'.lookup name = s.lookup name ∨ s.lookup name = none ∧ ∃ symbol, s'.lookup name = some symbol ∧
      symbol.value.storage = .function ∧ s.symbols.nextId ≤ symbol.id := by
  obtain ⟨gained, hroot, hfunctions⟩ := h.root
  rcases SymbolTable.lookup_of_root_append h.inner hroot name with hsame | ⟨hnone, symbol, hsymbol, hfound⟩
  · exact .inl hsame
  · exact .inr ⟨hnone, symbol, hfound, hfunctions symbol hsymbol⟩

theorem Restores.lookupStruct {given : List Declared} (h : Restores s given s') (name : String) :
    s'.lookupStruct name = s.lookupStruct name := by
  simp only [Session.lookupStruct, SymbolTable.lookup, SymbolTable.scopes, h.tagInner, h.tagRoot]

end Session

open Session SymbolTable

/-- In every state of a session the scopes of names and tags agree, both tables have given each number once, and
tags stand for structs of their name that are not removed. A scope that is opened and closed again leaves
everything as it was before, whatever is done in between, but for functions in the root scope: names are found as
before or are such functions, and the structs declared in between are removed and no others. -/
theorem scopes_disciplined {s : Session} (h : s.Visited) :
    s.tags.depth = s.symbols.depth ∧
    ((∃ ids, Issues {} ids s.symbols) ∧ ∀ ids, Issues {} ids s.symbols → ids.Nodup) ∧
    ((∃ ids, Issues {} ids s.tags) ∧ ∀ ids, Issues {} ids s.tags → ids.Nodup) ∧
    (∀ name ty, s.lookupStruct name = some ty →
      s.types.isStruct ty = true ∧ s.types.isRemoved ty = false ∧ s.types.structName? ty = some name) ∧
    ∀ given s₁, Balanced s.openScope given s₁ →
      Restores s given s₁.closeScope ∧
      (∀ name, s₁.closeScope.lookup name = s.lookup name ∨ s.lookup name = none ∧
        ∃ symbol, s₁.closeScope.lookup name = some symbol ∧ symbol.value.storage = .function ∧
          s.symbols.nextId ≤ symbol.id) ∧
      ∀ name, s₁.closeScope.lookupStruct name = s.lookupStruct name := by
  have hd := h.disciplined
  obtain ⟨hnames, htags⟩ := h.issues
  refine ⟨hd.depth, ⟨hnames, fun ids h => h.bounds.2.2⟩, ⟨htags, fun ids h => h.bounds.2.2⟩,
    fun name ty => hd.lookupStruct, fun given s₁ hb => ?_⟩
  have hrestores := hb.restores hd
  exact ⟨hrestores, hrestores.lookup, hrestores.lookupStruct⟩

namespace Shadowed

def started : Session := Session.new {} none

def void : Session := { started with types := (TypeTable.Op.void).apply started.types }

/-- The type of functions without parameters. -/
def typed : Session := { void with types := (TypeTable.Op.function ⟨0⟩ [] false).apply void.types }

/-- A struct in the root scope, -/
def outer : Except Stop TypeId × Session := (declareStruct "S" default).run.run typed

/-- one of the same name inside, with a function -/
def shadow : Except Stop TypeId × Session := (declareStruct "S" default).run.run outer.2.openScope

def function : Except Stop SymbolId × Session := (declareFunction "f" ⟨1⟩ default).run.run shadow.2

/-- and another one further inside. -/
def nested : Except Stop TypeId × Session := (declareStruct "T" default).run.run function.2.openScope

def last : Session := nested.2.closeScope

def given : List Declared := shadow.1.toOption.toList.map .struct ++
  function.1.toOption.toList.map (.name · .function) ++ nested.1.toOption.toList.map .struct

theorem outer_visited : outer.2.Visited := by
  have htyped : typed.Visited := by
    refine .move (.move (.new {} none) (.act (.types ?_ ?_))) (.act (.types ?_ ?_))
    · exact nofun
    · exact nofun
    · exact nofun
    · decide +kernel
  have hends : Ends (declareStruct "S" default) typed outer.1 outer.2 := rfl
  exact htyped.move (.act (.declareStruct hends))

theorem balanced : Balanced outer.2.openScope given last := by
  have hshadow : Ends (declareStruct "S" default) outer.2.openScope shadow.1 shadow.2 := rfl
  have hfunction : Ends (declareFunction "f" ⟨1⟩ default) shadow.2 function.1 function.2 := rfl
  have hnested : Ends (declareStruct "T" default) function.2.openScope nested.1 nested.2 := rfl
  exact .nest (.act (.act (.nil _) (.declareStruct hshadow)) (.declareFunction hfunction))
    (.act (.nil _) (.declareStruct hnested))

end Shadowed

open Shadowed in
/-- The struct outside comes back with its name, those inside are removed, and the function stays. -/
theorem shadowed_scope_disciplined :
    (outer.2.Visited ∧ Balanced outer.2.openScope given last ∧ outer.2.lookupStruct "S" = some ⟨2⟩ ∧
      last.lookupStruct "S" = some ⟨3⟩ ∧ outer.2.lookup "f" = none) ∧
    last.closeScope.tags.depth = last.closeScope.symbols.depth ∧ Restores outer.2 given last.closeScope ∧
    last.closeScope.lookupStruct "S" = some ⟨2⟩ ∧ last.closeScope.types.isRemoved ⟨2⟩ = false ∧
    last.closeScope.types.isRemoved ⟨3⟩ = true ∧ last.closeScope.types.isRemoved ⟨4⟩ = true ∧
    ∃ symbol, last.closeScope.lookup "f" = some symbol ∧ symbol.value.storage = .function := by
  have hfound : outer.2.lookupStruct "S" = some ⟨2⟩ := by decide +kernel
  have hnone : outer.2.lookup "f" = none := Option.isNone_iff_eq_none.1 (by decide +kernel)
  have hsome : (last.closeScope.lookup "f").isSome = true := by decide +kernel
  obtain ⟨-, -, -, -, hscope⟩ := scopes_disciplined outer_visited
  obtain ⟨hrestores, hlookup, htags⟩ := hscope given last balanced
  have hvisited : last.closeScope.Visited := (balanced.visited (outer_visited.move .openScope)).move .closeScope
  obtain ⟨hdepth, -, -, hsound, -⟩ := scopes_disciplined hvisited
  have hback := (htags "S").trans hfound
  refine ⟨⟨outer_visited, balanced, hfound, by decide +kernel, hnone⟩, hdepth, hrestores, hback,
    (hsound "S" ⟨2⟩ hback).2.1, hrestores.removed ⟨3⟩ (by decide +kernel),
    hrestores.removed ⟨4⟩ (by decide +kernel), ?_⟩
  rcases hlookup "f" with heq | ⟨-, symbol, heq, hstorage, -⟩
  · rw [heq, hnone] at hsome
    cases hsome
  · exact ⟨symbol, heq, hstorage⟩

end TypedCore
