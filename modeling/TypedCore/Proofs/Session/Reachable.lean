import TypedCore.Proofs.Typing.Constructors
import TypedCore.Proofs.Session.Declarations

/-!
# What sessions hand out

`Session.Reachable s es`: a session can get to `s`, having handed out the expressions `es`. Types that
are given to a session are types that it has issued. In every such state all these expressions are
coherent, and so are the values that names are bound to.
-/

namespace TypedCore

/-! ### Scopes -/

namespace SymbolTable

variable {α : Type} {P : α → Prop} {t : SymbolTable α}

/-- Every name in scope stands for something with the property `P`. -/
def Holds (P : α → Prop) (t : SymbolTable α) : Prop :=
  ∀ scope ∈ t.scopes, ∀ symbol ∈ scope, P symbol.value

theorem Holds.imp {Q : α → Prop} (h : t.Holds P) (hPQ : ∀ a, P a → Q a) : t.Holds Q :=
  fun scope hscope symbol hsymbol => hPQ _ (h scope hscope symbol hsymbol)

theorem Holds.lookup (h : t.Holds P) {name : String} {symbol : Symbol α}
    (hl : t.lookup name .all = some symbol) : P symbol.value := by
  obtain ⟨scope, hscope, hfind⟩ := List.exists_of_findSome?_eq_some hl
  exact h scope hscope symbol (List.mem_of_find?_eq_some hfind)

theorem Holds.openScope (h : t.Holds P) : t.openScope.Holds P := by
  intro scope hscope symbol hsymbol
  rcases List.mem_cons.1 hscope with rfl | hscope
  · cases hsymbol
  · exact h scope hscope symbol hsymbol

theorem Holds.closeScope (h : t.Holds P) : t.closeScope.2.Holds P := by
  unfold SymbolTable.closeScope
  split
  · exact h
  · rename_i scope inner hinner
    intro scope' hscope' symbol hsymbol
    refine h scope' ?_ symbol hsymbol
    simp only [scopes, hinner, List.cons_append] at hscope' ⊢
    exact List.mem_cons_of_mem _ hscope'

theorem Holds.insert (h : t.Holds P) {name : String} {value : α} {span : Span} {target : Target}
    (hv : P value) : (t.insert name value span target).Holds P := by
  have hadd {scope : Scope α} {new : Symbol α} (hscope : ∀ symbol ∈ scope, P symbol.value)
      (hnew : P new.value) : ∀ symbol ∈ scope ++ [new], P symbol.value := by
    intro symbol hsymbol
    rcases List.mem_append.1 hsymbol with hsymbol | hsymbol
    · exact hscope symbol hsymbol
    · exact List.mem_singleton.1 hsymbol ▸ hnew
  unfold SymbolTable.insert
  simp only
  split
  · rename_i scope inner hinner
    intro scope' hscope'
    rcases List.mem_cons.1 hscope' with rfl | hscope'
    · exact hadd (h scope (by simp [scopes, hinner])) hv
    · refine h scope' ?_
      simp only [scopes, hinner, List.cons_append]
      exact List.mem_cons_of_mem _ hscope'
  · intro scope' hscope'
    rcases List.mem_append.1 hscope' with hscope' | hscope'
    · exact h scope' (List.mem_append_left _ hscope')
    · obtain rfl := List.mem_singleton.1 hscope'
      exact hadd (h t.root (List.mem_append_right _ (List.mem_singleton_self _))) hv

theorem Holds.declare (h : t.Holds P) {name : String} {value : α} {span : Span} {target : Target}
    {id : SymbolId} {t' : SymbolTable α} (hv : P value)
    (hd : t.declare name value span target = .ok (id, t')) : t'.Holds P := by
  unfold SymbolTable.declare at hd
  simp only at hd
  split at hd
  · cases hd
  · cases hd
    exact h.insert hv

end SymbolTable

/-! ### Bindings -/

/-- A binding to a type that has been issued, and to a coherent value of that type if there is one. -/
structure Binding.Sound (t : TypeTable) (b : Binding) : Prop where
  has : t.Has b.ty
  value : ∀ e, b.value = some e → e.Coherent t ∧ e.ty = b.ty

theorem Binding.Sound.mono {t t' : TypeTable} {b : Binding} (h : b.Sound t) (ht : t ≤ t') : b.Sound t' :=
  ⟨h.has.mono ht, fun e he => ⟨(h.value e he).1.mono ht, (h.value e he).2⟩⟩

namespace Session

/-- The types are canonical, members of structs have types, and names stand for what they are bound to. -/
structure Sound (s : Session) : Prop where
  canonical : s.types.Canonical
  closed : s.types.Closed
  bound : s.symbols.Holds (Binding.Sound s.types)

variable {s s' : Session}

theorem Sound.grown (h : s.Sound) (hg : Grown s s') (hc : s'.types.Canonical) : s'.Sound :=
  ⟨hc, h.closed.steps hg.types, hg.symbols ▸ h.bound.imp fun _ hb => hb.mono hg.le⟩

theorem sound_new (options : Options) (source : Option String) : (Session.new options source).Sound := by
  refine ⟨TypeTable.canonical_empty _, TypeTable.closed_empty _, fun scope hscope symbol hsymbol => ?_⟩
  obtain rfl := List.mem_singleton.1 hscope
  cases hsymbol

theorem bind_sound {name : String} {binding : Binding} {span : Span} {target : Target}
    {r : Except Stop SymbolId} (h : s.Sound) (hb : binding.Sound s.types)
    (hx : Ends (Session.bind name binding span target) s r s') : s'.Sound ∧ s.types ≤ s'.types := by
  rcases bind_cases hx with ⟨stop, log, -, rfl⟩ | ⟨id, symbols, -, hd, rfl⟩
  · exact ⟨h.grown (grown_log s log) h.canonical, le_rfl⟩
  · exact ⟨⟨h.canonical, h.closed, h.bound.declare hb hd⟩, le_rfl⟩

theorem bind_quiet (name : String) (binding : Binding) (span : Span) (target : Target) :
    Quiet (Session.bind name binding span target) := by
  intro s r s' hx
  rcases bind_cases hx with ⟨stop, log, -, rfl⟩ | ⟨id, symbols, -, -, rfl⟩
  · rfl
  · rfl

theorem bindVariable_keeps (t : TypeTable) (name : String) (ty : TypeId) (storage : Storage) (init : Option Expr)
    (span : Span) : Keeps t (bindVariable name ty storage init span) :=
  .currentTypes fun _ _ => .ite (fun _ => .reject) fun _ => .after (bind_quiet _ _ _ _) fun _ _ _ =>
    .pure fun _ _ => trivial

theorem declareVariable_keeps (t : TypeTable) (name : String) (ty : TypeId) (init : Option Expr) (span : Span) :
    Keeps t (declareVariable name ty init span) := by
  refine .after .get fun s t₁ _ => ?_
  cases init with
  | none => exact bindVariable_keeps t₁ name ty _ none span
  | some e =>
    have hcast : Keeps t₁ (some <$> Node.implicitCast e ty) := .map (.check (Typing.implicitCast_keeps t₁ e ty))
    exact .bind hcast (.map some (Node.implicitCast_grows e ty)) fun init t₂ _ _ =>
      bindVariable_keeps t₂ name _ _ init span

/-- The converted initializer of a variable is coherent, and the variable has its type. -/
theorem Initializes.coherent {ty ty' : TypeId} {init init' : Option Expr} (h : Initializes ty s init init' ty' s')
    (hc : s.types.Canonical) (hty : s.types.Has ty) (hinit : ∀ e, init = some e → e.Coherent s.types) :
    s'.types.Has ty' ∧ ∀ e, init' = some e → e.Coherent s'.types ∧ e.ty = ty' := by
  cases h with
  | absent => exact ⟨hty, nofun⟩
  | @converted e e' s' hcast =>
    have hconv := (Yields.check (Typing.implicitCast_yields (hinit e rfl) hty)).result le_rfl hc hcast
    refine ⟨hconv.coherent.has, fun e he => ?_⟩
    cases he
    exact ⟨hconv.coherent, rfl⟩

/-- The converted initializer of a variable is coherent too. -/
theorem declareVariable_sound {name : String} {ty : TypeId} {init : Option Expr} {span : Span}
    {r : Except Stop Declaration} (h : s.Sound) (hty : s.types.Has ty)
    (hinit : ∀ e, init = some e → e.Coherent s.types)
    (hx : Ends (declareVariable name ty init span) s r s') :
    s'.Sound ∧ s.types ≤ s'.types ∧ ∀ d e, r = .ok d → d.init = some e → e.Coherent s'.types := by
  have hc' := (declareVariable_keeps s.types name ty init span).canonical le_rfl h.canonical hx
  rcases declareVariable_cases hx with ⟨⟨stop, rfl⟩, hg⟩ | ⟨d, s₁, symbols, rfl, hinits, -, -, hd, rfl⟩
  · exact ⟨h.grown hg hc', hg.le, nofun⟩
  · obtain ⟨hhas, hcoherent⟩ := hinits.coherent h.canonical hty hinit
    have hs₁ := h.grown hinits.grown hc'
    have hb : Binding.Sound s₁.types (variableBinding s₁.types d.ty d.storage d.init) :=
      ⟨hhas, fun e he => hcoherent e (variableBinding_value he)⟩
    refine ⟨⟨hs₁.canonical, hs₁.closed, hs₁.bound.declare hb hd⟩, hinits.grown.le, fun d' e hd' he => ?_⟩
    cases hd'
    exact (hcoherent e he).1

theorem declareFunction_sound {name : String} {ty : TypeId} {span : Span} {r : Except Stop SymbolId}
    (h : s.Sound) (hty : s.types.Has ty) (hx : Ends (declareFunction name ty span) s r s') :
    s'.Sound ∧ s.types ≤ s'.types := by
  rcases declareFunction_cases hx with ⟨symbol, -, -, -, -, rfl⟩ | hx
  · exact ⟨h, le_rfl⟩
  · exact bind_sound h ⟨hty, fun e he => by cases he⟩ hx

theorem Sound.mono (h : s.Sound) {t : TypeTable} (ht : s.types ≤ t) (hc : t.Canonical) :
    ({ s with types := t } : Session).Sound :=
  ⟨hc, h.closed.steps ht, h.bound.imp fun _ hb => hb.mono ht⟩

theorem declareStruct_sound {name : String} {span : Span} {r : Except Stop TypeId} (h : s.Sound)
    (hx : Ends (declareStruct name span) s r s') : s'.Sound ∧ s.types ≤ s'.types := by
  rcases declareStruct_cases hx with ⟨tag, -, -, rfl⟩ | ⟨ty, types, id, tags, hnew, -, -, rfl⟩
  · exact ⟨h, le_rfl⟩
  · have hle := TypeM.incompleteStruct_le hnew
    have hc := TypeM.incompleteStruct_canonical h.canonical name
    rw [hnew] at hc
    have hs := h.mono hle hc
    exact ⟨⟨hs.canonical, hs.closed, hs.bound⟩, hle⟩

theorem completeStruct_sound {ty : TypeId} {members : List Member} {span : Span} {r : Except Stop Unit}
    (h : s.Sound) (hm : ∀ m ∈ members, s.types.Has m.ty)
    (hx : Ends (Session.completeStruct ty members span) s r s') : s'.Sound ∧ s.types ≤ s'.types := by
  rcases completeStruct_cases hx with ⟨stop, log, -, rfl⟩ | ⟨types, -, hc, rfl⟩
  · exact ⟨h.grown (grown_log s log) h.canonical, le_rfl⟩
  · have hstep : TypeTable.Step s.types types := by
      refine .complete (fun ty hty => ?_) hc
      obtain ⟨m, hmem, rfl⟩ := List.mem_map.1 hty
      exact hm m hmem
    exact ⟨h.mono hstep.le (h.canonical.of_entries hstep.le (TypeTable.entries_completeStruct hc)), hstep.le⟩

theorem entries_closeScope (s : Session) : s.closeScope.types.entries = s.types.entries := by
  have hfold (dropped : List (Symbol TypeId)) : ∀ t : TypeTable,
      (dropped.foldl (fun types tag => types.removeStruct tag.value) t).entries = t.entries := by
    induction dropped with
    | nil => exact fun t => rfl
    | cons tag rest ih => exact fun t => (ih _).trans (TypeTable.entries_removeStruct t tag.value)
  exact hfold _ _

theorem closeScope_le (s : Session) : s.types ≤ s.closeScope.types := by
  have hfold (dropped : List (Symbol TypeId)) : ∀ t : TypeTable,
      t ≤ dropped.foldl (fun types tag => types.removeStruct tag.value) t := by
    induction dropped with
    | nil => exact fun t => le_rfl
    | cons tag rest ih => exact fun t => (TypeTable.Step.remove _).le.trans (ih _)
  exact hfold _ _

theorem closeScope_sound (h : s.Sound) : s.closeScope.Sound := by
  have hs := h.mono s.closeScope_le (h.canonical.of_entries s.closeScope_le s.entries_closeScope)
  exact ⟨hs.canonical, hs.closed, hs.bound.closeScope⟩

/-! ### Reachable sessions -/

/-- The constructors, applied to expressions of `es`. -/
inductive Constructs (t : TypeTable) (es : List Expr) : SessionM Expr → Prop
  | integer (value : Int64) (span : Span) : Constructs t es (Node.integer value span)
  | typedInteger (value : Int64) (ty : TypeId) (span : Span) : Constructs t es (Node.typedInteger value ty span)
  | float (value : Float) (width : FloatWidth) (span : Span) : Constructs t es (Node.float value width span)
  | bool (value : Bool) (span : Span) : Constructs t es (Node.bool value span)
  | nullptr (span : Span) : Constructs t es (Node.nullptr span)
  | string (text : String) (span : Span) : Constructs t es (Node.string text span)
  | identifier (name : String) (span : Span) : Constructs t es (Node.identifier name span)
  | proxy {target : Expr} (h : target ∈ es) (span : Span) : Constructs t es (pure (Node.proxy target span))
  | unary (op : UnaryOp) {child : Expr} (h : child ∈ es) (span : Span) :
      Constructs t es (Node.unary op child span)
  | binary (op : BinaryOp) {left right : Expr} (hl : left ∈ es) (hr : right ∈ es) (span : Span) :
      Constructs t es (Node.binary op left right span)
  | call {callee : Expr} {args : List Expr} (hc : callee ∈ es) (ha : ∀ e ∈ args, e ∈ es) (span : Span) :
      Constructs t es (Node.call callee args span)
  | conditional {cond thenExpr elseExpr : Expr} (hc : cond ∈ es) (ha : thenExpr ∈ es) (hb : elseExpr ∈ es)
      (span : Span) : Constructs t es (Node.conditional cond thenExpr elseExpr span)
  | member {object : Expr} (h : object ∈ es) (name : String) (span : Span) :
      Constructs t es (Node.member object name span)
  | arrow {pointer : Expr} (h : pointer ∈ es) (name : String) (span : Span) :
      Constructs t es (Node.arrow pointer name span)
  | cast {child : Expr} {ty : TypeId} (h : child ∈ es) (hty : t.Has ty) (span : Span) :
      Constructs t es (Node.cast child ty span)
  | implicitCast {child : Expr} {ty : TypeId} (h : child ∈ es) (hty : t.Has ty) :
      Constructs t es (Node.implicitCast child ty)
  | aggregate {elements : List Expr} {ty : TypeId} (h : ∀ e ∈ elements, e ∈ es) (hty : t.Has ty) (span : Span) :
      Constructs t es (Node.aggregate elements ty span)

/-- A session can get to `s` with the expressions `es` handed out. -/
inductive Reachable : Session → List Expr → Prop
  | new (options : Options) (source : Option String) : Reachable (Session.new options source) []
  | construct {s s' : Session} {es : List Expr} {x : SessionM Expr} {r : Except Stop Expr}
      (h : Reachable s es) (hx : Constructs s.types es x) (hr : Ends x s r s') :
      Reachable s' (r.toOption.toList ++ es)
  | types {s : Session} {es : List Expr} {t : TypeTable} (h : Reachable s es)
      (ht : TypeTable.Reaches s.types t) : Reachable { s with types := t } es
  | declareVariable {s s' : Session} {es : List Expr} {name : String} {ty : TypeId} {init : Option Expr}
      {span : Span} {r : Except Stop Declaration} (h : Reachable s es) (hty : s.types.Has ty)
      (hinit : ∀ e, init = some e → e ∈ es) (hr : Ends (declareVariable name ty init span) s r s') :
      Reachable s' ((r.toOption.bind (·.init)).toList ++ es)
  | declareFunction {s s' : Session} {es : List Expr} {name : String} {ty : TypeId} {span : Span}
      {r : Except Stop SymbolId} (h : Reachable s es) (hty : s.types.Has ty)
      (hr : Ends (declareFunction name ty span) s r s') : Reachable s' es
  | declareParameter {s s' : Session} {es : List Expr} {name : String} {ty : TypeId} {span : Span}
      {r : Except Stop SymbolId} (h : Reachable s es) (hty : s.types.Has ty)
      (hr : Ends (declareParameter name ty span) s r s') : Reachable s' es
  | declareStruct {s s' : Session} {es : List Expr} {name : String} {span : Span} {r : Except Stop TypeId}
      (h : Reachable s es) (hr : Ends (declareStruct name span) s r s') : Reachable s' es
  | completeStruct {s s' : Session} {es : List Expr} {ty : TypeId} {members : List Member} {span : Span}
      {r : Except Stop Unit} (h : Reachable s es) (hm : ∀ m ∈ members, s.types.Has m.ty)
      (hr : Ends (Session.completeStruct ty members span) s r s') : Reachable s' es
  | openScope {s : Session} {es : List Expr} (h : Reachable s es) : Reachable s.openScope es
  | closeScope {s : Session} {es : List Expr} (h : Reachable s es) : Reachable s.closeScope es

variable {es : List Expr}

theorem Constructs.grows {t : TypeTable} {x : SessionM Expr} (h : Constructs t es x) : Grows x := by
  cases h with
  | integer | float | bool | nullptr =>
    exact .bind (onTypes_grows (TypeM.intern_grows _)) fun _ => .pure _
  | typedInteger => exact .bind currentTypes_grows fun _ => .ite (.pure _) (reject_grows _)
  | string =>
    exact .bind (onTypes_grows (TypeM.intern_grows _)) fun _ =>
      .bind (onTypes_grows (TypeM.withConst_grows _ _)) fun _ =>
      .bind (onTypes_grows (TypeM.intern_grows _)) fun _ => .pure _
  | identifier =>
    refine .bind .get fun s => ?_
    split
    · exact .pure _
    · exact reject_grows _
  | proxy => exact .pure _
  | unary => exact Node.unary_grows _ _ _
  | binary => exact Node.binary_grows _ _ _ _
  | call => exact Node.call_grows _ _ _
  | conditional => exact Node.conditional_grows _ _ _ _
  | member => exact Node.member_grows _ _ _
  | arrow => exact .bind (Node.unary_grows _ _ _) fun _ => Node.member_grows _ _ _
  | cast => exact Node.cast_grows _ _ _
  | implicitCast => exact Node.implicitCast_grows _ _
  | aggregate => exact Node.aggregate_grows _ _ _

theorem identifier_coherent {name : String} {span : Span} {e : Expr} (hs : s.Sound)
    (hx : Ends (Node.identifier name span) s (.ok e) s') : e.Coherent s'.types := by
  unfold Node.identifier at hx
  rw [Ends.get_bind_iff] at hx
  split at hx
  · rename_i symbol hl
    obtain ⟨he, rfl⟩ := Ends.pure_iff.1 hx
    cases he
    have hb := hs.bound.lookup hl
    cases hv : symbol.value.value with
    | none => exact ⟨hb.has, trivial⟩
    | some v => exact ⟨⟨hb.has, (hb.value v hv).2⟩, (hb.value v hv).1⟩
  · exact absurd hx not_reject_ok

theorem identifier_quiet (name : String) (span : Span) : Quiet (Node.identifier name span) := by
  refine .bind .get fun s => ?_
  split
  · exact .pure _
  · exact reject_quiet _

/-- Constructors that are given coherent expressions build coherent ones. -/
theorem Constructs.yields {x : SessionM Expr} {r : Except Stop Expr} (h : Constructs s.types es x) (hs : s.Sound)
    (hes : ∀ e ∈ es, e.Coherent s.types) (hx : Ends x s r s') :
    s'.types.Canonical ∧ ∀ e, r = .ok e → e.Coherent s'.types := by
  have hc := hs.canonical
  cases h with
  | integer => exact Node.integer_yields le_rfl hc hx
  | typedInteger => exact Node.typedInteger_yields le_rfl hc hx
  | float => exact Node.float_yields le_rfl hc hx
  | bool => exact Node.bool_yields le_rfl hc hx
  | nullptr => exact Node.nullptr_yields le_rfl hc hx
  | string => exact Node.string_yields le_rfl hc hx
  | identifier name span =>
    refine ⟨identifier_quiet name span hx ▸ hc, fun e he => ?_⟩
    subst he
    exact identifier_coherent hs hx
  | proxy h =>
    obtain ⟨rfl, rfl⟩ := Ends.pure_iff.1 hx
    refine ⟨hc, fun e he => ?_⟩
    cases he
    exact Node.proxy_coherent (hes _ h)
  | unary op h => exact Node.unary_yields (hes _ h) le_rfl hc hx
  | binary op hl hr => exact Node.binary_yields (hes _ hl) (hes _ hr) le_rfl hc hx
  | call hcallee ha => exact Node.call_yields (hes _ hcallee) (fun e he => hes e (ha e he)) le_rfl hc hx
  | conditional hcond ha hb => exact Node.conditional_yields (hes _ hcond) (hes _ ha) (hes _ hb) le_rfl hc hx
  | member h => exact Node.member_yields hs.closed (hes _ h) le_rfl hc hx
  | arrow h => exact Node.arrow_yields hs.closed (hes _ h) le_rfl hc hx
  | cast h hty => exact Node.cast_yields (hes _ h) hty le_rfl hc hx
  | implicitCast h hty =>
    exact (Node.implicitCast_yields (hes _ h) hty).imp (fun _ _ h => h.coherent) le_rfl hc hx
  | aggregate h hty => exact Node.aggregate_yields hs.closed (fun e he => hes e (h e he)) hty le_rfl hc hx

/-- The session after a constructor, -/
def after (x : SessionM Expr) (s : Session) : Session := (x.run.run s).2

/-- and what it built. -/
def built (x : SessionM Expr) (s : Session) : Expr := (x.run.run s).1.toOption.getD default

theorem ends_built {x : SessionM Expr} (hok : (x.run.run s).1.isOk = true) :
    Ends x s (.ok (built x s)) (after x s) := by
  obtain ⟨e, he⟩ := Ends.of_isOk hok
  have hbuilt : Session.built x s = e := by
    rw [Session.built, show (x.run.run s).1 = .ok e from congrArg Prod.fst he]
    rfl
  rw [hbuilt]
  exact he

theorem Reachable.built {x : SessionM Expr} (h : Reachable s es) (hx : Constructs s.types es x)
    (hok : (x.run.run s).1.isOk = true) : Reachable (after x s) (built x s :: es) :=
  h.construct hx (ends_built hok)

/-- What a session can get to is sound, and everything that it has handed out is coherent. -/
theorem Reachable.sound (h : Reachable s es) : s.Sound ∧ ∀ e ∈ es, e.Coherent s.types := by
  have hlater {s s' : Session} {es : List Expr} (hes : ∀ e ∈ es, e.Coherent s.types)
      (hs : s'.Sound ∧ s.types ≤ s'.types) : s'.Sound ∧ ∀ e ∈ es, e.Coherent s'.types :=
    ⟨hs.1, fun e he => (hes e he).mono hs.2⟩
  induction h with
  | new options source => exact ⟨sound_new options source, nofun⟩
  | @construct s s' es x r h hx hr ih =>
    obtain ⟨hs, hes⟩ := ih
    have hg := hx.grows hr
    obtain ⟨hc, hcoherent⟩ := hx.yields hs hes hr
    refine ⟨hs.grown hg hc, fun e he => ?_⟩
    rcases List.mem_append.1 he with he | he
    · cases r with
      | error => cases he
      | ok e' =>
        obtain rfl := List.mem_singleton.1 he
        exact hcoherent e rfl
    · exact (hes e he).mono hg.le
  | types h ht ih => exact hlater ih.2 ⟨ih.1.mono ht.steps.le (ih.1.canonical.reaches ht), ht.steps.le⟩
  | @declareVariable s s' es name ty init span r h hty hinit hr ih =>
    obtain ⟨hs, hes⟩ := ih
    obtain ⟨hs', hle, hd⟩ := declareVariable_sound hs hty (fun e he => hes e (hinit e he)) hr
    refine ⟨hs', fun e he => ?_⟩
    rcases List.mem_append.1 he with he | he
    · cases r with
      | error => cases he
      | ok d => exact hd d e rfl (Option.mem_toList.1 he)
    · exact (hes e he).mono hle
  | declareFunction h hty hr ih => exact hlater ih.2 (declareFunction_sound ih.1 hty hr)
  | declareParameter h hty hr ih => exact hlater ih.2 (bind_sound ih.1 ⟨hty, by intro e he; cases he⟩ hr)
  | declareStruct h hr ih => exact hlater ih.2 (declareStruct_sound ih.1 hr)
  | completeStruct h hm hr ih => exact hlater ih.2 (completeStruct_sound ih.1 hm hr)
  | openScope h ih => exact ⟨⟨ih.1.canonical, ih.1.closed, ih.1.bound.openScope⟩, ih.2⟩
  | @closeScope s es h ih => exact hlater ih.2 ⟨closeScope_sound ih.1, s.closeScope_le⟩

/-! ### Commands -/

/-- What a session can be asked for. Expressions are given by their places among those that it has handed out, the
first one at place 0, and every span is the default one. -/
inductive Command
  | types (ops : List TypeTable.Op)
  | integer (value : Int64)
  | typedInteger (value : Int64) (ty : TypeId)
  | float (value : Float) (width : FloatWidth)
  | bool (value : Bool)
  | nullptr
  | string (text : String)
  | identifier (name : String)
  | proxy (target : Nat)
  | unary (op : UnaryOp) (child : Nat)
  | binary (op : BinaryOp) (left right : Nat)
  | call (callee : Nat) (args : List Nat)
  | conditional (cond thenExpr elseExpr : Nat)
  | member (object : Nat) (name : String)
  | arrow (pointer : Nat) (name : String)
  | cast (child : Nat) (ty : TypeId)
  | implicitCast (child : Nat) (ty : TypeId)
  | aggregate (elements : List Nat) (ty : TypeId)
  | declareVariable (name : String) (ty : TypeId) (init : Option Nat)
  | declareFunction (name : String) (ty : TypeId)
  | declareParameter (name : String) (ty : TypeId)
  | declareStruct (name : String)
  | completeStruct (ty : TypeId) (members : List Member)
  | openScope
  | closeScope

/-- A session with the expressions that it has handed out, the last one first. -/
structure History where
  session : Session
  exprs : List Expr

namespace History

/-- The expression at a place. -/
def expr (h : History) (place : Nat) : Expr := h.exprs.reverse.getD place default

theorem expr_mem {h : History} {place : Nat} (hp : place < h.exprs.length) : h.expr place ∈ h.exprs := by
  have hlt : place < h.exprs.reverse.length := by simpa using hp
  rw [expr, List.getD_eq_getElem?_getD, List.getElem?_eq_getElem hlt]
  exact List.mem_reverse.1 (List.getElem_mem hlt)

/-- There are expressions at these places, and these types have been issued. -/
def Given (h : History) (places : List Nat) (tys : List TypeId) : Prop :=
  (∀ place ∈ places, place < h.exprs.length) ∧ ∀ ty ∈ tys, h.session.types.Has ty

instance decidableGiven (h : History) (places : List Nat) (tys : List TypeId) : Decidable (h.Given places tys) :=
  inferInstanceAs (Decidable (_ ∧ _))

variable {h : History} {places : List Nat} {tys : List TypeId}

theorem Given.expr (hg : h.Given places tys) : ∀ e ∈ places.map h.expr, e ∈ h.exprs := by
  intro e he
  obtain ⟨place, hplace, rfl⟩ := List.mem_map.1 he
  exact expr_mem (hg.1 place hplace)

/-- A request that hands out at most one expression is made if the session has what it is given. -/
def ask {α : Type} (h : History) (places : List Nat) (tys : List TypeId) (x : SessionM α)
    (handed : α → Option Expr) : History :=
  if h.Given places tys then
    ⟨(x.run.run h.session).2, ((x.run.run h.session).1.toOption.bind handed).toList ++ h.exprs⟩
  else h

/-- What a command does. One that is given something else than what there is does nothing. -/
def apply (h : History) : Command → History
  | .types ops =>
    let types := h.session.types
    let issued := if TypeTable.Op.Applies types ops then ops.foldl TypeTable.Op.apply types else types
    { h with session := { h.session with types := issued } }
  | .integer value => h.ask [] [] (Node.integer value default) some
  | .typedInteger value ty => h.ask [] [] (Node.typedInteger value ty default) some
  | .float value width => h.ask [] [] (Node.float value width default) some
  | .bool value => h.ask [] [] (Node.bool value default) some
  | .nullptr => h.ask [] [] (Node.nullptr default) some
  | .string text => h.ask [] [] (Node.string text default) some
  | .identifier name => h.ask [] [] (Node.identifier name default) some
  | .proxy target => h.ask [target] [] (pure (Node.proxy (h.expr target) default)) some
  | .unary op child => h.ask [child] [] (Node.unary op (h.expr child) default) some
  | .binary op left right => h.ask [left, right] [] (Node.binary op (h.expr left) (h.expr right) default) some
  | .call callee args =>
    h.ask (callee :: args) [] (Node.call (h.expr callee) (args.map h.expr) default) some
  | .conditional cond thenExpr elseExpr =>
    h.ask [cond, thenExpr, elseExpr] []
      (Node.conditional (h.expr cond) (h.expr thenExpr) (h.expr elseExpr) default) some
  | .member object name => h.ask [object] [] (Node.member (h.expr object) name default) some
  | .arrow pointer name => h.ask [pointer] [] (Node.arrow (h.expr pointer) name default) some
  | .cast child ty => h.ask [child] [ty] (Node.cast (h.expr child) ty default) some
  | .implicitCast child ty => h.ask [child] [ty] (Node.implicitCast (h.expr child) ty) some
  | .aggregate elements ty => h.ask elements [ty] (Node.aggregate (elements.map h.expr) ty default) some
  | .declareVariable name ty init =>
    h.ask init.toList [ty] (Session.declareVariable name ty (init.map h.expr) default) (·.init)
  | .declareFunction name ty => h.ask [] [ty] (Session.declareFunction name ty default) fun _ => none
  | .declareParameter name ty => h.ask [] [ty] (Session.declareParameter name ty default) fun _ => none
  | .declareStruct name => h.ask [] [] (Session.declareStruct name default) fun _ => none
  | .completeStruct ty members =>
    h.ask [] (members.map (·.ty)) (Session.completeStruct ty members default) fun _ => none
  | .openScope => { h with session := h.session.openScope }
  | .closeScope => { h with session := h.session.closeScope }

/-- What commands lead to. -/
def run (commands : List Command) : History := commands.foldl apply ⟨Session.new {} none, []⟩

theorem ask_construct (hr : h.session.Reachable h.exprs) {x : SessionM Expr}
    (hx : h.Given places tys → Constructs h.session.types h.exprs x) :
    (h.ask places tys x some).session.Reachable (h.ask places tys x some).exprs := by
  rw [ask]
  split
  · rename_i hg
    have hends : Ends x h.session (x.run.run h.session).1 (x.run.run h.session).2 := rfl
    have hbuilt := hr.construct (hx hg) hends
    simpa using hbuilt
  · exact hr

theorem ask_quiet (hr : h.session.Reachable h.exprs) {α : Type} {x : SessionM α}
    (hx : ∀ {r s'}, h.Given places tys → Ends x h.session r s' → s'.Reachable h.exprs) :
    (h.ask places tys x fun _ => none).session.Reachable (h.ask places tys x fun _ => none).exprs := by
  rw [ask]
  split
  · rename_i hg
    have hends : Ends x h.session (x.run.run h.session).1 (x.run.run h.session).2 := rfl
    simp only [Option.bind_fun_none, Option.toList_none, List.nil_append]
    exact hx hg hends
  · exact hr

/-- A command leads from what a session can get to to what it can get to. -/
theorem apply_reachable (hr : h.session.Reachable h.exprs) (command : Command) :
    (h.apply command).session.Reachable (h.apply command).exprs := by
  cases command with
  | types ops =>
    refine hr.types ?_
    split
    · rename_i happlies
      exact TypeTable.Op.reaches_foldl happlies
    · exact .refl
  | integer => exact ask_construct hr fun _ => .integer _ _
  | typedInteger => exact ask_construct hr fun _ => .typedInteger _ _ _
  | float => exact ask_construct hr fun _ => .float _ _ _
  | bool => exact ask_construct hr fun _ => .bool _ _
  | nullptr => exact ask_construct hr fun _ => .nullptr _
  | string => exact ask_construct hr fun _ => .string _ _
  | identifier => exact ask_construct hr fun _ => .identifier _ _
  | proxy => exact ask_construct hr fun hg => .proxy (hg.expr _ (by simp)) _
  | unary => exact ask_construct hr fun hg => .unary _ (hg.expr _ (by simp)) _
  | binary => exact ask_construct hr fun hg => .binary _ (hg.expr _ (by simp)) (hg.expr _ (by simp)) _
  | call =>
    exact ask_construct hr fun hg =>
      .call (hg.expr _ (by simp)) (fun e he => hg.expr e (List.mem_cons_of_mem _ he)) _
  | conditional =>
    exact ask_construct hr fun hg =>
      .conditional (hg.expr _ (by simp)) (hg.expr _ (by simp)) (hg.expr _ (by simp)) _
  | member => exact ask_construct hr fun hg => .member (hg.expr _ (by simp)) _ _
  | arrow => exact ask_construct hr fun hg => .arrow (hg.expr _ (by simp)) _ _
  | cast => exact ask_construct hr fun hg => .cast (hg.expr _ (by simp)) (hg.2 _ (by simp)) _
  | implicitCast => exact ask_construct hr fun hg => .implicitCast (hg.expr _ (by simp)) (hg.2 _ (by simp))
  | aggregate => exact ask_construct hr fun hg => .aggregate hg.expr (hg.2 _ (by simp)) _
  | declareVariable name ty init =>
    rw [apply, ask]
    split
    · rename_i hg
      have hends : Ends (Session.declareVariable name ty (init.map h.expr) default) h.session _ _ := rfl
      refine hr.declareVariable (hg.2 _ (by simp)) (fun e he => hg.expr e ?_) hends
      obtain ⟨place, rfl, rfl⟩ := Option.map_eq_some_iff.1 he
      simp
    · exact hr
  | declareFunction => exact ask_quiet hr fun hg hends => hr.declareFunction (hg.2 _ (by simp)) hends
  | declareParameter => exact ask_quiet hr fun hg hends => hr.declareParameter (hg.2 _ (by simp)) hends
  | declareStruct => exact ask_quiet hr fun _ hends => hr.declareStruct hends
  | completeStruct =>
    exact ask_quiet hr fun hg hends =>
      hr.completeStruct (fun m hm => hg.2 _ (List.mem_map_of_mem hm)) hends
  | openScope => exact hr.openScope
  | closeScope => exact hr.closeScope

/-- Whatever a session is asked for, it can get to where it then is. -/
theorem run_reachable (commands : List Command) : (run commands).session.Reachable (run commands).exprs := by
  have hfold : ∀ h : History, h.session.Reachable h.exprs →
      (commands.foldl apply h).session.Reachable (commands.foldl apply h).exprs := by
    induction commands with
    | nil => exact fun h hr => hr
    | cons command rest ih => exact fun h hr => ih _ (apply_reachable hr command)
  exact hfold _ (.new {} none)

end History

end Session

/-- However a session goes, every expression that it hands out is typed by the rules at each of its nodes:
operands and results of operators, choices, arguments of calls and members have the types that
`Expr.Ruled` names. -/
theorem handed_out_expressions_coherent {s : Session} {es : List Expr} (h : s.Reachable es) {e : Expr}
    (he : e ∈ es) : e.Coherent s.types := h.sound.2 e he

namespace Listing

/-- There are a pointer to a number of 16 bits, and a function that takes const bytes and more. The pointer is moved
by a number of the size type. Of the texts that are passed the first one stays an array, and the second one decays. -/
def history : Session.History := .run
  [.types [.integer 16 true, .pointer ⟨0⟩, .integer 8 false, .const ⟨2⟩, .array ⟨3⟩ 0, .integer 64 true,
      .function ⟨5⟩ [⟨4⟩] true],
    .declareFunction "print" ⟨6⟩, .declareParameter "p" ⟨1⟩, .identifier "p", .identifier "print", .integer 1,
    .string "ab", .binary .addAssign 0 2, .binary .index 4 2, .call 1 [3, 3], .conditional 0 6 5]

/-- `(p += 1)[1]` -/
def element : Expr := history.expr 5

/-- `p ? print("ab", "ab") : (p += 1)[1]` -/
def choice : Expr := history.expr 7

end Listing

open Listing in
theorem choice_coherent :
    history.session.Reachable history.exprs ∧ choice ∈ history.exprs ∧ choice.Coherent history.session.types ∧
    history.session.types.shape choice.ty = .integer 64 true := by
  have hreachable : history.session.Reachable history.exprs := Session.History.run_reachable _
  have hmem : choice ∈ history.exprs := Session.History.expr_mem (by decide +kernel)
  exact ⟨hreachable, hmem, handed_out_expressions_coherent hreachable hmem, by decide +kernel⟩

end TypedCore
