import TypedCore.Proofs.Emitter.Slots
import TypedCore.Proofs.Graph.Construction
import TypedCore.Proofs.Session.Discipline

/-!
# From names to slots

A name is resolved when an expression is built, and the storage of the variable is looked up when code is generated
for the expression. In between scopes are opened and closed, other variables of the name are declared, and functions
are begun and ended. The number of the variable leads to its own slot through all of this, as long as the function
is under construction in which the variable got its slot, and nowhere in any other function.
-/

namespace TypedCore

open Ir Lowering Emit SlotEvent

/-! ### The events of requests -/

namespace Lowering

theorem branchOn_quiet (t : TypeTable) (cond : Expr) (onTrue onFalse : LabelId) :
    Quiet (branchOn t cond onTrue onFalse) :=
  ((lower_structured t cond).branch onTrue onFalse).quiet

theorem ifHead_quiet (t : TypeTable) (cond : Expr) : Quiet (ifHead t cond) :=
  .bind .createLabel fun _ => .bind .createLabel fun _ => .bind (branchOn_quiet ..) fun _ =>
    .bind (.defineLabel _) fun _ => .pure _

theorem ifElseHead_quiet (t : TypeTable) (cond : Expr) : Quiet (ifElseHead t cond) :=
  .bind .createLabel fun _ => .bind .createLabel fun _ => .bind .createLabel fun _ =>
    .bind (branchOn_quiet ..) fun _ => .bind (.defineLabel _) fun _ => .pure _

theorem elseHead_quiet (onFalse done : LabelId) : Quiet (elseHead onFalse done) :=
  .bind (.jumpIfOpen _) fun _ => .defineLabel _

theorem loopHead_quiet (t : TypeTable) (cond : Expr) : Quiet (loopHead t cond) :=
  .bind .createLabel fun _ => .bind .createLabel fun _ => .bind .createLabel fun _ => .bind (.defineLabel _) fun _ =>
    .bind (branchOn_quiet ..) fun _ => .bind (.defineLabel _) fun _ => .pure _

end Lowering

mutual

theorem Request.logged (c : Request) : Logged c.code := by
  cases c with
  | start t name ty params => exact functionBegin_logged t name ty params
  | finish => exact .endFunction
  | value t e => exact .quiet (.bind (lower_structured t e).value.quiet fun _ => .pure _)
  | address t e => exact .quiet (.bind (lower_structured t e).address.quiet fun _ => .pure _)
  | constant t e => exact .quiet (.bind (loadConstant_emits t e).quiet fun _ => .pure _)
  | branch t e onTrue onFalse => exact .quiet (branchOn_quiet t e onTrue onFalse)
  | init t address e ty => exact .quiet ((lower_structured t e).init address ty).quiet
  | expr t e => exact .quiet (.bind (lower_structured t e).value.quiet fun _ => .pure _)
  | ret t value => exact (returnStatement_straight t value).logged
  | declare t d => exact (declaration_straight t d).logged
  | declareLocal t d => exact (localDeclaration_straight t d).logged
  | declareGlobal t d => exact (globalDeclaration_straight t d).logged
  | ifThen t cond body =>
    unfold Request.code
    rw [ifStatement_eq]
    exact .bind (.quiet (ifHead_quiet t cond)) fun done => .bind body.logged fun _ => .quiet (.defineLabel done)
  | ifElse t cond thenBody elseBody =>
    unfold Request.code
    rw [ifElseStatement_eq]
    exact .bind (.quiet (ifElseHead_quiet t cond)) fun labels => .bind thenBody.logged fun _ =>
      .bind (.quiet (elseHead_quiet ..)) fun _ => .bind elseBody.logged fun _ => .quiet (.defineLabel _)
  | loop t cond body =>
    unfold Request.code
    rw [whileStatement_eq]
    exact .bind (.quiet (loopHead_quiet t cond)) fun labels => .bind body.logged fun _ =>
      .quiet (.bind (.jumpIfOpen _) fun _ => .defineLabel _)

theorem Script.logged (c : Script) : Logged c.code := by
  cases c with
  | nil => exact .quiet (.pure _)
  | insist c rest =>
    unfold Script.code
    exact .bind c.logged fun _ => rest.logged
  | attempt c rest =>
    unfold Script.code
    refine .bind (fun s r s' h => ?_) fun _ => rest.logged
    obtain ⟨rfl, r₁, h₁⟩ := tryCatch_iff.1 h
    obtain ⟨events, hlogs⟩ := c.logged h₁
    exact ⟨events, .caught hlogs⟩

end

/-! ### Compilations -/

/-- The number of a local variable or parameter. -/
def Session.Declared.local? : Session.Declared → Option SymbolId
  | .name symbol .automatic => some symbol
  | _ => none

/-- What has been done in the course of a compilation, the newest first. -/
structure Trace where
  /-- Numbers of the local variables and parameters that were declared. -/
  declared : List SymbolId := []
  /-- Identifiers, with what their names were found to stand for. -/
  resolved : List (Symbol Binding × Expr) := []
  log : List SlotEvent := []

def Trace.extend (T : Trace) (events : List SlotEvent) : Trace := { T with log := events ++ T.log }

/-- A session and an emitter are used together, by any operations of theirs in any order. -/
inductive Compilation : Session → Emitter → Trace → Prop
  | new (options : Options) (source : Option String) (moduleName : String) :
      Compilation (Session.new options source) (Emitter.new moduleName) {}
  | move {s s' : Session} {m : Emitter} {T : Trace} {given : List Session.Declared} (h : Compilation s m T)
      (hm : Session.Move s given s') :
      Compilation s' m { T with declared := given.filterMap Session.Declared.local? ++ T.declared }
  | resolve {s s' : Session} {m : Emitter} {T : Trace} {name : String} {span : Span} {symbol : Symbol Binding}
      {e : Expr} (h : Compilation s m T) (hl : s.lookup name = some symbol)
      (hx : Ends (Node.identifier name span) s (.ok e) s') :
      Compilation s' m { T with resolved := (symbol, e) :: T.resolved }
  /-- A piece of a request, so that operations of the session may come in between. -/
  | code {α : Type} {x : EmitM α} {s : Session} {m m' : Emitter} {T : Trace} {events : List SlotEvent}
      {r : Except Fault α} (h : Compilation s m T) (hx : Logs x m events r m') : Compilation s m' (T.extend events)

namespace Compilation

variable {s : Session} {m m' : Emitter} {T : Trace}

theorem quiet {α : Type} {x : EmitM α} {r : Except Fault α} (h : Compilation s m T) (hx : Quiet x)
    (hends : Ends x m r m') : Compilation s m' T := h.code (.quiet hx hends)

theorem request {c : Request} {r : Except Fault Unit} (h : Compilation s m T) (hends : Ends c.code m r m') :
    ∃ events, Compilation s m' (T.extend events) := by
  obtain ⟨events, hlogs⟩ := c.logged hends
  exact ⟨events, h.code hlogs⟩

end Compilation

/-! ### Requests in the middle of others -/

section

variable {s : Session} {T : Trace}

theorem Trace.extend_extend (T : Trace) (events events' : List SlotEvent) :
    (T.extend events).extend events' = T.extend (events' ++ events) := by
  simp [Trace.extend]

/-- What is done after the events `events`. -/
theorem Compilation.after {m : Emitter} {events : List SlotEvent}
    (h : ∃ events', Compilation s m ((T.extend events).extend events')) :
    ∃ events', Compilation s m (T.extend events') := by
  obtain ⟨events', h⟩ := h
  rw [Trace.extend_extend] at h
  exact ⟨_, h⟩

mutual

theorem Request.Makes.compilation {c d : Request} {m u : Emitter} {T : Trace} :
    c.Makes m d u → Compilation s m T → ∃ events, Compilation s u (T.extend events)
  | .self .., h => ⟨[], h⟩
  | .ifThen head hm, h => hm.compilation (h.quiet (ifHead_quiet _ _) head)
  | .ifElse head hm, h => hm.compilation (h.quiet (ifElseHead_quiet _ _) head)
  | .orElse head hthen helse hm, h => by
    obtain ⟨events, hlogs⟩ := (Script.logged _) hthen
    have hbody := ((h.quiet (ifElseHead_quiet _ _) head).code hlogs).quiet (elseHead_quiet _ _) helse
    exact Compilation.after (hm.compilation hbody)
  | .loop head hm, h => hm.compilation (h.quiet (loopHead_quiet _ _) head)

theorem Script.Makes.compilation {c : Script} {d : Request} {m u : Emitter} {T : Trace} :
    c.Makes m d u → Compilation s m T → ∃ events, Compilation s u (T.extend events)
  | .insisted hm, h => hm.compilation h
  | .insist hc hm, h => by
    obtain ⟨events, hlogs⟩ := (Request.logged _) hc
    exact Compilation.after (hm.compilation (h.code hlogs))
  | .attempted hm, h => hm.compilation h
  | .attempt hc hm, h => by
    obtain ⟨events, hlogs⟩ := (Request.logged _) hc
    exact Compilation.after (hm.compilation (h.code hlogs))

end

/-- Whatever is asked of the emitter belongs to the compilation. Variables get their slots when their declarations
are emitted, and parameters when their function is begun. -/
structure Proceeds (s : Session) (m : Emitter) (T : Trace) : Prop where
  declared : ∀ t d m', Ends (localDeclaration t d) m (.ok ()) m' →
    ∃ address, Compilation s m' (T.extend [.slot d.symbol address])
  begun : ∀ t name ty params m', Ends (functionBegin t name ty params) m (.ok ()) m' →
    ∃ slots, slots.all isSlot ∧ emitted slots = (params.map (·.1)).reverse ∧
      Compilation s m' (T.extend (slots ++ [.entered]))
  ended : ∀ m', Ends functionEnd m (.ok ()) m' → Compilation s m' (T.extend [.left])
  /-- also in the course of other requests, and if it fails -/
  requested : ∀ c d u r m', Request.Makes c m d u → Ends d.code u r m' → ∃ events, Compilation s m' (T.extend events)

theorem Compilation.proceeds {m : Emitter} (h : Compilation s m T) : Proceeds s m T where
  declared t d m' hends := by
    obtain ⟨ir, m₁, h₁, hends⟩ := Ends.bind_ok_iff.1 hends
    obtain ⟨address, m₂, h₂, h₃⟩ := Ends.bind_ok_iff.1 hends
    have hslot := (h.quiet (.lift _) h₁).code (.slot h₂)
    refine ⟨address, hslot.quiet ?_ h₃⟩
    split
    · exact ((lower_structured t _).init _ _).quiet
    · exact .pure _
  begun t name ty params m' hends := by
    obtain ⟨ret, ps, variadic, slots, hslots, hemitted, hlogs⟩ := functionBegin_logs hends
    exact ⟨slots, hslots, hemitted, h.code hlogs⟩
  ended m' hends := h.code (endFunction_logs hends)
  requested c d u r m' hm hends := by
    obtain ⟨events, hmiddle⟩ := hm.compilation h
    exact Compilation.after (hmiddle.request hends)

end

/-! ### Numbers of variables -/

namespace Session

variable {s s' : Session} {declared : List SymbolId}

/-- The numbers `declared` are different, and all local variables in scope have one of them. -/
structure Registers (s : Session) (declared : List SymbolId) : Prop where
  nodup : declared.Nodup
  issued : ∀ id ∈ declared, id < s.symbols.nextId
  inScope : ∀ symbol ∈ s.symbols.symbols, symbol.value.storage = .automatic → symbol.id ∈ declared

theorem registers_new (options : Options) (source : Option String) : (Session.new options source).Registers [] :=
  ⟨List.nodup_nil, nofun, nofun⟩

/-- A name is declared; its number is added to `declared` if it stands for a local variable. -/
theorem Registers.insert {declared' : List SymbolId} {name : String} {binding : Binding} {span : Span} {target : Target}
    (h : s.Registers declared) (hs' : s'.symbols = s.symbols.insert name binding span target) (hnodup : declared'.Nodup)
    (hkept : declared ⊆ declared') (hnew : binding.storage = .automatic → s.symbols.nextId ∈ declared')
    (hadded : ∀ id ∈ declared', id = s.symbols.nextId ∨ id ∈ declared) : s'.Registers declared' := by
  obtain ⟨level, hperm⟩ := SymbolTable.symbols_insert s.symbols name binding span target
  refine ⟨hnodup, fun id hid => ?_, fun symbol hsymbol hstorage => ?_⟩
  · rw [hs', SymbolTable.nextId_insert]
    rcases hadded id hid with rfl | hold
    · exact Nat.lt_succ_self _
    · exact Nat.lt_succ_of_lt (h.issued id hold)
  · rw [hs'] at hsymbol
    rcases List.mem_cons.1 (hperm.mem_iff.1 hsymbol) with rfl | hold
    · exact hnew hstorage
    · exact hkept (h.inScope symbol hold hstorage)

theorem Registers.effect {given : List Declared} (h : s.Registers declared) (he : Effect s given s') :
    s'.Registers (given.filterMap Declared.local? ++ declared) := by
  cases he with
  | quiet hsymbols htags htypes hnames hstructs =>
    have hnone : given.filterMap Declared.local? = [] := by
      rw [List.filterMap_eq_nil_iff]
      intro d hd
      cases d with
      | name id storage =>
        rw [hnames id storage hd]
        rfl
      | struct ty => rfl
    rw [hnone, List.nil_append]
    exact ⟨h.nodup, hsymbols ▸ h.issued, hsymbols ▸ h.inScope⟩
  | @named name binding span target id hd htags htypes hroot hgiven =>
    obtain ⟨rfl, hs'⟩ := SymbolTable.declare_ok hd
    rw [hgiven]
    cases hstorage : binding.storage with
    | automatic =>
      have hfresh : s.symbols.nextId ∉ declared := fun hmem => Nat.lt_irrefl _ (h.issued _ hmem)
      exact h.insert hs' (List.nodup_cons.2 ⟨hfresh, h.nodup⟩) (List.subset_cons_self _ _)
        (fun _ => List.mem_cons_self) fun id => List.mem_cons.1
    | global => exact h.insert hs' h.nodup (List.Subset.refl _) (by simp [hstorage]) fun id => .inr
    | function => exact h.insert hs' h.nodup (List.Subset.refl _) (by simp [hstorage]) fun id => .inr
  | tagged hnew hd hsymbols hgiven =>
    rw [hgiven]
    exact ⟨h.nodup, hsymbols ▸ h.issued, hsymbols ▸ h.inScope⟩

theorem Registers.closeScope (h : s.Registers declared) : s.closeScope.Registers declared := by
  refine ⟨h.nodup, fun id hid => ?_, fun symbol hsymbol => h.inScope symbol ?_⟩
  · show id < s.symbols.closeScope.2.nextId
    rw [SymbolTable.nextId_closeScope]
    exact h.issued id hid
  · rw [SymbolTable.symbols_closeScope]
    exact List.mem_append_right _ hsymbol

theorem Registers.move {given : List Declared} (h : s.Registers declared) (hm : Move s given s') :
    s'.Registers (given.filterMap Declared.local? ++ declared) := by
  cases hm with
  | act ha => exact h.effect ha.effect
  | openScope => exact ⟨h.nodup, h.issued, h.inScope⟩
  | closeScope => exact h.closeScope

/-- The expression that names a symbol. -/
def identifier (symbol : Symbol Binding) (span : Span) : Expr :=
  .identifier symbol.name symbol.id symbol.value.storage symbol.value.value ⟨symbol.value.ty, span⟩

/-- An identifier names what its name is found to stand for. -/
theorem identifier_iff {name : String} {span : Span} {symbol : Symbol Binding} {r : Except Stop Expr}
    (hl : s.lookup name = some symbol) :
    Ends (Node.identifier name span) s r s' ↔ r = .ok (identifier symbol span) ∧ s' = s := by
  obtain ⟨-, rfl⟩ := SymbolTable.mem_symbols_of_lookup hl
  rw [Node.identifier, Ends.get_bind_iff, hl]
  exact Ends.pure_iff

end Session

/-! ### What a compilation keeps -/

namespace Compilation

variable {s : Session} {m : Emitter} {T : Trace}

theorem mirrors (h : Compilation s m T) : m.Mirrors T.log := by
  induction h with
  | new options source moduleName => exact Emitter.mirrors_new moduleName
  | move _ _ ih => exact ih
  | resolve _ _ _ ih => exact ih
  | code _ hx ih => exact hx.mirrors ih

theorem registers (h : Compilation s m T) : s.Registers T.declared := by
  induction h with
  | new options source moduleName => exact Session.registers_new options source
  | move _ hm ih => exact ih.move hm
  | resolve _ hl hx ih => exact ((Session.identifier_iff hl).1 hx).2 ▸ ih
  | code _ _ ih => exact ih

theorem resolved (h : Compilation s m T) {symbol : Symbol Binding} {e : Expr} (he : (symbol, e) ∈ T.resolved) :
    (symbol.value.storage = .automatic → symbol.id ∈ T.declared) ∧ ∃ span, e = Session.identifier symbol span := by
  induction h with
  | new options source moduleName => cases he
  | move _ _ ih =>
    obtain ⟨hdeclared, hspan⟩ := ih he
    exact ⟨fun hstorage => List.mem_append_right _ (hdeclared hstorage), hspan⟩
  | resolve h hl hx ih =>
    rcases List.mem_cons.1 he with heq | he
    · cases heq
      obtain ⟨he, -⟩ := (Session.identifier_iff hl).1 hx
      exact ⟨h.registers.inScope _ (SymbolTable.mem_symbols_of_lookup hl).1, _, Except.ok.inj he⟩
    · exact ih he
  | code _ _ ih => exact ih he

end Compilation

theorem Lowering.Code.address_ofNode (t : TypeTable) (e : Expr) (value address : EmitM Value)
    (branch : LabelId → LabelId → EmitM Unit) (elements : Option (List (Value → TypeId → EmitM Unit))) :
    (Code.ofNode t e value address branch elements).address = address := by
  unfold Code.ofNode
  split <;> rfl

/-- The address of a local variable is the slot that the emitter has for its number. -/
theorem Lowering.loadAddress_identifier (t : TypeTable) (m : Emitter) {symbol : Symbol Binding}
    (hstorage : symbol.value.storage = .automatic) (span : Span) :
    Ends (loadAddress t (Session.identifier symbol span)) m
      ((m.locals.lookup symbol.id).elim (.error (.undefinedVariable symbol.name)) .ok) m := by
  have hcode : loadAddress t (Session.identifier symbol span) = symbolAddress symbol.id symbol.name .automatic := by
    rw [loadAddress, Session.identifier, hstorage, lower, identifierCode, if_neg (by decide)]
    exact Code.address_ofNode ..
  rw [hcode, symbolAddress, Ends.get_bind_iff]
  cases m.locals.lookup symbol.id with
  | some address => exact Ends.pure_iff.2 ⟨rfl, rfl⟩
  | none => exact Ends.throw_iff.2 ⟨rfl, rfl⟩

/-- In every compilation that gives each variable at most one slot, local variables and parameters have numbers of
their own, and an identifier that was resolved to one of them, at any time before, has the variable's slot as its
address as long as the function is under construction in which the variable got it. In other functions, and if the
variable has no slot, it has no address. The slots of one function are different temporaries. -/
theorem names_reach_their_slots {s : Session} {m : Emitter} {T : Trace} (h : Compilation s m T)
    (honce : (emitted T.log).Nodup) :
    T.declared.Nodup ∧
    (∀ symbol e, (symbol, e) ∈ T.resolved → symbol.value.storage = .automatic → symbol.id ∈ T.declared ∧
      ∀ t, (∀ later address earlier, T.log = later ++ .slot symbol.id address :: earlier →
          Ends (loadAddress t e) m
            (if later.all isSlot then .ok address else .error (.undefinedVariable symbol.name)) m) ∧
        (symbol.id ∉ emitted T.log → Ends (loadAddress t e) m (.error (.undefinedVariable symbol.name)) m)) ∧
    (∀ later between earlier i j v w, T.log = later ++ .slot i v :: (between ++ .slot j w :: earlier) →
      between.all isSlot → ∃ n k, v = .temp n ∧ w = .temp k ∧ n ≠ k) ∧
    Proceeds s m T := by
  have hmirrors := h.mirrors
  refine ⟨h.registers.nodup, fun symbol e he hstorage => ?_, fun later between earlier i j v w hlog hbetween => ?_,
    h.proceeds⟩
  · obtain ⟨hdeclared, span, rfl⟩ := h.resolved he
    refine ⟨hdeclared hstorage, fun t => ?_⟩
    have haddress := loadAddress_identifier t m hstorage span
    rw [hmirrors.locals] at haddress
    refine ⟨fun later address earlier hlog => ?_, fun hnone => ?_⟩
    · rw [hlog] at honce haddress
      rw [lookup_frame honce, apply_ite (Option.elim · _ _)] at haddress
      exact haddress
    · rwa [lookup_frame_of_not_emitted hnone] at haddress
  · exact (hlog ▸ hmirrors.distinct).slot_ne hbetween

namespace Twofold

open Session

def started : Session := Session.new {} none

def typed : Session := { started with types := (TypeTable.Op.integer 32 true).apply started.types }

/-- A parameter, -/
def outer : Except Stop SymbolId × Session := (declareParameter "x" ⟨0⟩ default).run.run typed.openScope

/-- and a variable of the same name inside. -/
def inner : Except Stop Declaration × Session := (declareVariable "x" ⟨0⟩ none default).run.run outer.2.openScope

def parameter : Symbol Binding := (outer.2.lookup "x").get (by decide +kernel)

def shadow : Symbol Binding := (inner.2.lookup "x").get (by decide +kernel)

def params : List Parameter := [⟨0, "x", .i32⟩]

/-- A function with the parameter, -/
def entered : Emitter := (Emitter.new "m").enter "f" .void params false

def bound : Except Fault Value × Emitter := (localVariable 0 "x" .i32).run.run entered

def begun : Except Fault Unit × Emitter := (build (.store (.temp 0) (.temp 1) .i32)).run.run bound.2

/-- where the variable gets its slot, -/
def slotted : Except Fault Value × Emitter := (localVariable 1 "x" .i32).run.run begun.2

def ended : Except Fault Unit × Emitter := endFunction.run.run slotted.2

/-- and a function after it. -/
def other : Emitter := ended.2.enter "g" .void [] false

def trace : Trace where
  declared := (inner.1.toOption.toList.map fun d => .name d.symbol d.storage).filterMap Declared.local? ++
    (outer.1.toOption.toList.map (.name · .automatic)).filterMap Declared.local?
  resolved := [(shadow, identifier shadow default), (parameter, identifier parameter default)]
  log := [.slot 1 (.temp 2), .slot 0 (.temp 1), .entered]

theorem resolved : Compilation inner.2.closeScope (Emitter.new "m") { trace with log := [] } := by
  have hparameter : outer.2.lookup "x" = some parameter := (Option.some_get _).symm
  have hshadow : inner.2.lookup "x" = some shadow := (Option.some_get _).symm
  have houter : Ends (declareParameter "x" ⟨0⟩ default) typed.openScope outer.1 outer.2 := rfl
  have hinner : Ends (declareVariable "x" ⟨0⟩ none default) outer.2.openScope inner.1 inner.2 := rfl
  have hname : Ends (Node.identifier "x" default) outer.2 (.ok (identifier parameter default)) outer.2 :=
    (identifier_iff hparameter).2 ⟨rfl, rfl⟩
  have hname₂ : Ends (Node.identifier "x" default) inner.2 (.ok (identifier shadow default)) inner.2 :=
    (identifier_iff hshadow).2 ⟨rfl, rfl⟩
  have htyped : Compilation typed (Emitter.new "m") {} := by
    refine (Compilation.new {} none "m").move (.act (.types ?_ ?_))
    · exact nofun
    · exact nofun
  have hfirst := (htyped.move .openScope).move (.act (.declareParameter houter))
  have hsecond := ((hfirst.resolve hparameter hname).move .openScope).move (.act (.declareVariable hinner))
  exact (hsecond.resolve hshadow hname₂).move .closeScope

theorem inside : Compilation inner.2.closeScope slotted.2 trace := by
  have hbound : Ends (localVariable 0 "x" .i32) entered (.ok (.temp 1)) bound.2 := rfl
  have hstored : Ends (build (.store (.temp 0) (.temp 1) .i32)) bound.2 (.ok ()) begun.2 := rfl
  have hslotted : Ends (localVariable 1 "x" .i32) begun.2 (.ok (.temp 2)) slotted.2 := rfl
  have hspill : Logs (spill 0 params) entered [.slot 0 (.temp 1)] (.ok ()) begun.2 :=
    .bind (f := fun slot => do build (.store (.temp 0) slot .i32); spill 1 []) (.slot hbound)
      (.bind (.quiet (.emit _) hstored) (.quiet (.pure ()) rfl))
  have hbegun : Logs (beginFunction "f" .void params false) (Emitter.new "m") [.slot 0 (.temp 1), .entered]
      (.ok ()) begun.2 := .entered rfl hspill
  exact (resolved.code hbegun).code (.slot hslotted)

theorem outside : Compilation inner.2.closeScope other (trace.extend [.entered, .left]) := by
  have hended : Ends endFunction slotted.2 (.ok ()) ended.2 := rfl
  have hspill : Logs (spill 0 []) other [] (.ok ()) other := .quiet (.pure ()) rfl
  have hother : Logs (beginFunction "g" .void [] false) ended.2 [.entered] (.ok ()) other := .entered rfl hspill
  exact (inside.code (.left hended rfl rfl)).code hother

end Twofold

open Twofold in
/-- The parameter and the variable that hides it have slots of their own, while both are named by one name, and none
in the function after that. -/
theorem twofold_name_reaches_slots :
    (Compilation inner.2.closeScope slotted.2 trace ∧ trace.declared = [1, 0] ∧ parameter.name = shadow.name ∧
      parameter.id = 0 ∧ shadow.id = 1) ∧
    (∀ t, Ends (loadAddress t (Session.identifier parameter default)) slotted.2 (.ok (.temp 1)) slotted.2 ∧
      Ends (loadAddress t (Session.identifier shadow default)) slotted.2 (.ok (.temp 2)) slotted.2) ∧
    Compilation inner.2.closeScope other (trace.extend [.entered, .left]) ∧
    ∀ t, Ends (loadAddress t (Session.identifier shadow default)) other (.error (.undefinedVariable "x")) other := by
  have hid : parameter.id = 0 := by decide +kernel
  have hid₂ : shadow.id = 1 := by decide +kernel
  have hstorage : parameter.value.storage = .automatic := by decide +kernel
  have hstorage₂ : shadow.value.storage = .automatic := by decide +kernel
  have hname : shadow.name = "x" := by decide +kernel
  obtain ⟨-, hinside, -⟩ := names_reach_their_slots inside (by decide)
  obtain ⟨-, houtside, -⟩ := names_reach_their_slots outside (by decide)
  have hmem : (parameter, Session.identifier parameter default) ∈ trace.resolved :=
    List.mem_cons_of_mem _ List.mem_cons_self
  have hmem₂ : (shadow, Session.identifier shadow default) ∈ trace.resolved := List.mem_cons_self
  have hparameter := (hinside parameter _ hmem hstorage).2
  have hshadow := (hinside shadow _ hmem₂ hstorage₂).2
  have hlost := (houtside shadow _ hmem₂ hstorage₂).2
  rw [hid] at hparameter
  rw [hid₂] at hshadow
  rw [hid₂, hname] at hlost
  refine ⟨⟨inside, by decide +kernel, by decide +kernel, hid, hid₂⟩, fun t => ⟨?_, ?_⟩, outside, fun t => ?_⟩
  · exact (hparameter t).1 [.slot 1 (.temp 2)] _ _ rfl
  · exact (hshadow t).1 [] _ _ rfl
  · exact (hlost t).1 [.entered, .left] _ _ rfl

end TypedCore
