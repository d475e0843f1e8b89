import TypedCore.Proofs.Session.Declarations
import TypedCore.Proofs.Typing.Warnings

/-!
# Rejections are accounted for

With the policy `collect`, an operation that builds an expression or declares something either succeeds, and
then it has reported nothing but warnings, or it is rejected with a failure. In the second case the log has
gained one error, with the message and the place of that failure, after warnings only and before at most one
note, and the scopes are as they were. No operation changes what was reported before.
-/

namespace TypedCore

namespace Session

variable {α β : Type} {s s₁ s' : Session}

/-! ### Outcomes -/

/-- What a rejection with the given failure adds to the log: warnings, the one error and at most one note. -/
def Account (failure : Failure) (added : List Diagnostic) : Prop :=
  ∃ span warnings notes, failure.span? = some span ∧
    added = warnings ++ ⟨.error, failure.message, span⟩ :: notes ∧ (∀ d ∈ warnings, d.severity = .warning) ∧
    (∀ d ∈ notes, d.severity = .note) ∧ notes.length ≤ 1

/-- Warnings before the rejection belong to its account. -/
theorem Account.append {failure : Failure} {warnings added : List Diagnostic} (h : Account failure added)
    (hw : ∀ d ∈ warnings, d.severity = .warning) : Account failure (warnings ++ added) := by
  obtain ⟨span, warnings', notes, hspan, rfl, hw', hnotes⟩ := h
  refine ⟨span, warnings ++ warnings', notes, hspan, (List.append_assoc ..).symm, fun d hd => ?_, hnotes⟩
  exact (List.mem_append.1 hd).elim (hw d) (hw' d)

/-- An operation has been rejected, and nothing is in scope that was not before. -/
structure Rejected (s : Session) (stop : Stop) (s' : Session) : Prop where
  options : s'.options = s.options
  symbols : s'.symbols = s.symbols
  tags : s'.tags = s.tags
  log : ∃ failure added, stop = .rejected failure ∧ Account failure added ∧ s'.log = s.log.reportAll added

theorem Rejected.after {stop : Stop} (h : Rejected s₁ stop s') (hc : Cautioned s s₁)
    (hsymbols : s₁.symbols = s.symbols) (htags : s₁.tags = s.tags) : Rejected s stop s' := by
  obtain ⟨ws, hws, hlog⟩ := hc.log
  obtain ⟨failure, added, hstop, haccount, hlog'⟩ := h.log
  refine ⟨h.options.trans hc.options, h.symbols.trans hsymbols, h.tags.trans htags, failure, ws ++ added, hstop,
    haccount.append hws, ?_⟩
  rw [hlog', hlog, Log.reportAll_append]

/-- An operation that is accepted has reported warnings only, and one that is not has been rejected. -/
structure Accounts (x : SessionM α) : Prop where
  accepts : ∀ ⦃s a s'⦄, Ends x s (.ok a) s' → Cautioned s s'
  rejects : ∀ ⦃s stop s'⦄, s.options.failurePolicy = .collect → Ends x s (.error stop) s' → Rejected s stop s'

namespace Accounts

theorem pure (a : α) : Accounts (Pure.pure a : SessionM α) where
  accepts _ _ _ h := Warns.pure a h
  rejects _ _ _ _ h := nomatch (Ends.pure_iff.1 h).1

theorem get : Accounts (get : SessionM Session) where
  accepts _ _ _ h := Warns.get h
  rejects _ _ _ _ h := nomatch (Ends.get_iff.1 h).1

theorem onTypes {x : TypeM α} : Accounts (onTypes x : SessionM α) where
  accepts _ _ _ h := Warns.onTypes h
  rejects _ _ _ _ h := nomatch (onTypes_iff.1 h).1

/-- What comes before a rejection must leave the scopes as they are. -/
theorem seq {x : SessionM α} {f : α → SessionM β} (hx : Accounts x)
    (hscopes : ∀ ⦃s a s₁⦄, Ends x s (.ok a) s₁ → s₁.symbols = s.symbols ∧ s₁.tags = s.tags)
    (hf : ∀ a, Accounts (f a)) : Accounts (x >>= f) where
  accepts s b s' h := by
    obtain ⟨a, s₁, h₁, h₂⟩ := Ends.bind_ok_iff.1 h
    exact (hx.accepts h₁).trans ((hf a).accepts h₂)
  rejects s stop s' hpolicy h := by
    rcases Ends.bind_iff.1 h with ⟨a, s₁, h₁, h₂⟩ | ⟨stop', hstop, h₁⟩
    · have hc := hx.accepts h₁
      exact ((hf a).rejects (hc.options ▸ hpolicy) h₂).after hc (hscopes h₁).1 (hscopes h₁).2
    · cases hstop
      exact hx.rejects hpolicy h₁

theorem bind {x : SessionM α} {f : α → SessionM β} (hx : Accounts x) (hgrows : Grows x)
    (hf : ∀ a, Accounts (f a)) : Accounts (x >>= f) :=
  .seq hx (fun _ _ _ h => ⟨(hgrows h).symbols, (hgrows h).tags⟩) hf

theorem get_bind {f : Session → SessionM β} (hf : ∀ s, Accounts (f s)) : Accounts (MonadState.get >>= f) :=
  .bind .get .get hf

theorem currentTypes {f : TypeTable → SessionM β} (hf : ∀ t, Accounts (f t)) :
    Accounts (currentTypes >>= f) :=
  .bind (.get_bind fun s => .pure s.types) currentTypes_grows hf

theorem onTypes_bind {x : TypeM α} {f : α → SessionM β} (hf : ∀ a, Accounts (f a)) :
    Accounts (Session.onTypes x >>= f) := by
  refine .seq .onTypes (fun s a s₁ h => ?_) hf
  obtain ⟨-, rfl⟩ := onTypes_iff.1 h
  exact ⟨rfl, rfl⟩

/-- The result of an operation may be put into any form. -/
theorem map {x : SessionM α} (f : α → β) (hx : Accounts x) : Accounts (f <$> x) where
  accepts s b s' h := by
    obtain ⟨a, h, -⟩ := Ends.map_ok_iff.1 h
    exact hx.accepts h
  rejects s stop s' hpolicy h := by
    rw [← bind_pure_comp] at h
    rcases Ends.bind_iff.1 h with ⟨a, s₁, -, h⟩ | ⟨stop', hstop, h⟩
    · exact nomatch (Ends.pure_iff.1 h).1
    · cases hstop
      exact hx.rejects hpolicy h

theorem ite {p : Prop} [Decidable p] {x y : SessionM α} (hx : Accounts x) (hy : Accounts y) :
    Accounts (if p then x else y) := by
  split <;> assumption

theorem reject (r : Rejection) : Accounts (reject r : SessionM α) where
  accepts _ _ _ h := absurd h not_reject_ok
  rejects s stop s' hpolicy h := by
    obtain ⟨notes, hlog, hnotes, hlength⟩ : ∃ notes : List Diagnostic,
        logRejection r s.log = s.log.reportAll (⟨.error, r.message, r.span⟩ :: notes) ∧
        (∀ d ∈ notes, d.severity = .note) ∧ notes.length ≤ 1 := by
      unfold logRejection
      simp only
      split
      · rename_i name previous hcause
        split
        · exact ⟨[], rfl, nofun, by simp⟩
        · exact ⟨[⟨.note, s!"previous declaration of '{name}' is here", previous⟩], rfl, by simp, by simp⟩
      · exact ⟨[], rfl, nofun, by simp⟩
    unfold Session.reject at h
    rw [Ends.modify_bind_iff, Ends.get_bind_iff] at h
    simp only [hpolicy] at h
    obtain ⟨hstop, rfl⟩ := Ends.throw_iff.1 h
    cases hstop
    exact ⟨rfl, rfl, rfl, _, _, rfl, ⟨r.span, [], notes, rfl, rfl, nofun, hnotes, hlength⟩, hlog⟩

theorem check {rules : RuleM α} (hrules : Warns rules) (hgrows : Grows rules) : Accounts (check rules) where
  accepts _ _ _ h := hrules (check_ok_iff.1 h)
  rejects s stop s' hpolicy h := by
    rcases check_iff.1 h with ⟨a, ha, -⟩ | ⟨e, s₁, herror, h⟩
    · cases ha
    · have hc := hrules herror
      exact ((reject e).rejects (hc.options ▸ hpolicy) h).after hc (hgrows herror).symbols (hgrows herror).tags

end Accounts

end Session

/-! ### Expressions -/

namespace Node

open Session

theorem implicitCast_accounts (child : Expr) (ty : TypeId) : Accounts (implicitCast child ty) :=
  .check (Typing.implicitCast_warns _ _) (Typing.implicitCast_grows _ _)

theorem unary_accounts (op : UnaryOp) (child : Expr) (span : Span) : Accounts (unary op child span) :=
  .bind (.check (Typing.unary_warns _ _ _) (Typing.unary_grows _ _ _)) (check_grows (Typing.unary_grows _ _ _))
    fun _ => .pure _

theorem conditional_accounts (cond thenExpr elseExpr : Expr) (span : Span) :
    Accounts (conditional cond thenExpr elseExpr span) := by
  refine .onTypes_bind fun bool => .bind (implicitCast_accounts _ _) (implicitCast_grows _ _)
    fun cond => .onTypes_bind fun ty => ?_
  cases ty with
  | none => exact .currentTypes fun t => .reject _
  | some ty =>
    exact .bind (implicitCast_accounts _ _) (implicitCast_grows _ _) fun _ =>
      .bind (implicitCast_accounts _ _) (implicitCast_grows _ _) fun _ => .pure _

theorem member_accounts (object : Expr) (name : String) (span : Span) : Accounts (member object name span) := by
  refine .currentTypes fun t => .ite (.reject _) ?_
  split
  · exact .reject _
  · exact .ite (.onTypes_bind fun _ => .pure _) (.pure _)

theorem convertAll_accounts : ∀ (es : List Expr) (tys : List TypeId), Accounts (convertAll es tys)
  | [], _ => .pure _
  | _ :: _, [] => .pure _
  | _ :: es, _ :: tys => .bind (implicitCast_accounts _ _) (implicitCast_grows _ _) fun _ =>
      .bind (convertAll_accounts es tys) (convertAll_grows es tys) fun _ => .pure _

theorem aggregate_accounts (elements : List Expr) (ty : TypeId) (span : Span) :
    Accounts (aggregate elements ty span) := by
  refine .currentTypes fun t => ?_
  split
  · exact .reject _
  · exact .ite (.reject _) <| .bind (convertAll_accounts _ _) (convertAll_grows _ _) fun _ =>
      .onTypes_bind fun _ => .pure _

end Node

/-! ### Declarations -/

namespace Session

/-- An operation that looks at the session and then is rejected, or changes its types or scopes at once. -/
theorem Accounts.enter {f : Session → SessionM α} (hf : ∀ s, (∃ r, f s = Session.reject r) ∨
    ∃ a, ∃ s' : Session, f s = (set s' >>= fun _ => Pure.pure a) ∧ s'.options = s.options ∧ s'.log = s.log) :
    Accounts (MonadState.get >>= f) where
  accepts s a s' h := by
    rw [Ends.get_bind_iff] at h
    rcases hf s with ⟨r, hr⟩ | ⟨b, s₁, hs₁, hoptions, hlog⟩
    · rw [hr] at h
      exact absurd h not_reject_ok
    · rw [hs₁, Ends.set_bind_iff] at h
      obtain ⟨-, rfl⟩ := Ends.pure_iff.1 h
      exact .of_log_eq hoptions hlog
  rejects s stop s' hpolicy h := by
    rw [Ends.get_bind_iff] at h
    rcases hf s with ⟨r, hr⟩ | ⟨b, s₁, hs₁, -⟩
    · rw [hr] at h
      exact (Accounts.reject r).rejects hpolicy h
    · rw [hs₁, Ends.set_bind_iff] at h
      exact nomatch (Ends.pure_iff.1 h).1

theorem bind_accounts (name : String) (binding : Binding) (span : Span) (target : Target) :
    Accounts (Session.bind name binding span target) := by
  refine .enter fun s => ?_
  split
  · exact .inl ⟨_, rfl⟩
  · exact .inr ⟨_, _, rfl, rfl, rfl⟩

/-- The name is bound last, so that the scopes are as they were up to there. -/
theorem bindVariable_accounts (name : String) (ty : TypeId) (storage : Storage) (init : Option Expr) (span : Span) :
    Accounts (bindVariable name ty storage init span) := by
  unfold bindVariable
  refine .currentTypes fun t => .ite (.reject _) ?_
  simp only [bind_pure_comp]
  exact .map _ (bind_accounts _ _ _ _)

theorem declareVariable_accounts (name : String) (ty : TypeId) (init : Option Expr) (span : Span) :
    Accounts (declareVariable name ty init span) := by
  refine .get_bind fun s => ?_
  cases init with
  | none => exact bindVariable_accounts name ty _ none span
  | some e =>
    exact .bind (.map some (Node.implicitCast_accounts e ty)) (.map some (Node.implicitCast_grows e ty))
      fun init => bindVariable_accounts name _ _ init span

theorem declareFunction_accounts (name : String) (ty : TypeId) (span : Span) :
    Accounts (declareFunction name ty span) := by
  refine .get_bind fun s => ?_
  simp only
  split
  · exact .pure _
  · exact bind_accounts _ _ _ _

theorem declareStruct_accounts (name : String) (span : Span) : Accounts (declareStruct name span) := by
  refine .get_bind fun s => ?_
  split
  · exact .pure _
  · refine .onTypes_bind fun ty => .enter fun s => ?_
    split
    · exact .inl ⟨_, rfl⟩
    · exact .inr ⟨_, _, rfl, rfl, rfl⟩

theorem completeStruct_accounts (ty : TypeId) (members : List Member) (span : Span) :
    Accounts (Session.completeStruct ty members span) := by
  refine .onTypes_bind fun result => ?_
  cases result with
  | error error => exact .reject _
  | ok => exact .pure _

/-! ### Sessions -/

/-- What may be rejected: every constructor of expressions and every declaration, whatever it is given. -/
inductive Attempt : {α : Type} → SessionM α → Prop
  | integer (value : Int64) (span : Span) : Attempt (Node.integer value span)
  | typedInteger (value : Int64) (ty : TypeId) (span : Span) : Attempt (Node.typedInteger value ty span)
  | float (value : Float) (width : FloatWidth) (span : Span) : Attempt (Node.float value width span)
  | bool (value : Bool) (span : Span) : Attempt (Node.bool value span)
  | nullptr (span : Span) : Attempt (Node.nullptr span)
  | string (text : String) (span : Span) : Attempt (Node.string text span)
  | identifier (name : String) (span : Span) : Attempt (Node.identifier name span)
  | proxy (target : Expr) (span : Span) : Attempt (pure (Node.proxy target span))
  | unary (op : UnaryOp) (child : Expr) (span : Span) : Attempt (Node.unary op child span)
  | binary (op : BinaryOp) (left right : Expr) (span : Span) : Attempt (Node.binary op left right span)
  | call (callee : Expr) (args : List Expr) (span : Span) : Attempt (Node.call callee args span)
  | conditional (cond thenExpr elseExpr : Expr) (span : Span) :
      Attempt (Node.conditional cond thenExpr elseExpr span)
  | member (object : Expr) (name : String) (span : Span) : Attempt (Node.member object name span)
  | arrow (pointer : Expr) (name : String) (span : Span) : Attempt (Node.arrow pointer name span)
  | cast (child : Expr) (ty : TypeId) (span : Span) : Attempt (Node.cast child ty span)
  | implicitCast (child : Expr) (ty : TypeId) : Attempt (Node.implicitCast child ty)
  | aggregate (elements : List Expr) (ty : TypeId) (span : Span) : Attempt (Node.aggregate elements ty span)
  | declareVariable (name : String) (ty : TypeId) (init : Option Expr) (span : Span) :
      Attempt (declareVariable name ty init span)
  | declareFunction (name : String) (ty : TypeId) (span : Span) : Attempt (declareFunction name ty span)
  | declareParameter (name : String) (ty : TypeId) (span : Span) : Attempt (declareParameter name ty span)
  | declareStruct (name : String) (span : Span) : Attempt (declareStruct name span)
  | completeStruct (ty : TypeId) (members : List Member) (span : Span) :
      Attempt (Session.completeStruct ty members span)

theorem Attempt.accounts {x : SessionM α} (h : Attempt x) : Accounts x := by
  cases h with
  | integer | float | bool | nullptr => exact .onTypes_bind fun _ => .pure _
  | typedInteger => exact .currentTypes fun _ => .ite (.pure _) (.reject _)
  | string =>
    exact .onTypes_bind fun _ => .onTypes_bind fun _ =>
      .onTypes_bind fun _ => .pure _
  | identifier =>
    refine .get_bind fun s => ?_
    split
    · exact .pure _
    · exact .reject _
  | proxy => exact .pure _
  | unary => exact Node.unary_accounts _ _ _
  | binary =>
    exact .bind (.check (Typing.binary_warns _ _ _ _) (Typing.binary_grows _ _ _ _))
      (check_grows (Typing.binary_grows _ _ _ _)) fun _ => .pure _
  | call =>
    exact .bind (.check (Typing.call_warns _ _ _) (Typing.call_grows _ _ _))
      (check_grows (Typing.call_grows _ _ _)) fun _ => .pure _
  | conditional => exact Node.conditional_accounts _ _ _ _
  | member => exact Node.member_accounts _ _ _
  | arrow => exact .bind (Node.unary_accounts _ _ _) (Node.unary_grows _ _ _) fun _ => Node.member_accounts _ _ _
  | cast => exact .check (Typing.explicitCast_warns _ _ _) (Typing.explicitCast_grows _ _ _)
  | implicitCast => exact Node.implicitCast_accounts _ _
  | aggregate => exact Node.aggregate_accounts _ _ _
  | declareVariable => exact declareVariable_accounts _ _ _ _
  | declareFunction => exact declareFunction_accounts _ _ _
  | declareParameter => exact bind_accounts _ _ _ _
  | declareStruct => exact declareStruct_accounts _ _
  | completeStruct => exact completeStruct_accounts _ _ _

/-- A session with the given options can get to `s`. Its types and its log may also be changed from outside:
types in any way, the log by further reports and by additions to the newest message. -/
inductive Visits (options : Options) : Session → Prop
  | new (source : Option String) : Visits options (Session.new options source)
  | attempt {α : Type} {s s' : Session} {x : SessionM α} {r : Except Stop α} (h : Visits options s)
      (hx : Attempt x) (hr : Ends x s r s') : Visits options s'
  | types {s : Session} (h : Visits options s) (t : TypeTable) : Visits options { s with types := t }
  | report {s : Session} (h : Visits options s) (d : Diagnostic) :
      Visits options { s with log := s.log.report d }
  | amend {s : Session} (h : Visits options s) (suffix : String) :
      Visits options { s with log := s.log.amendLast suffix }
  | openScope {s : Session} (h : Visits options s) : Visits options s.openScope
  | closeScope {s : Session} (h : Visits options s) : Visits options s.closeScope

/-- What an operation that ended with `r` has added to the log. -/
def Accounted (s : Session) (r : Except Stop α) (added : List Diagnostic) (s' : Session) : Prop :=
  match r with
  | .ok _ => ∀ d ∈ added, d.severity = .warning
  | .error stop =>
    ∃ failure, stop = .rejected failure ∧ Account failure added ∧ s'.symbols = s.symbols ∧ s'.tags = s.tags

/-- Along an operation the options and the tally are kept. -/
theorem Accounts.kept {x : SessionM α} {r : Except Stop α} (hx : Accounts x)
    (hpolicy : s.options.failurePolicy = .collect) (htallied : s.log.Tallied) (hr : Ends x s r s') :
    s'.options = s.options ∧ s'.log.Tallied := by
  cases r with
  | ok a =>
    have hc := hx.accepts hr
    obtain ⟨ws, -, hlog⟩ := hc.log
    exact ⟨hc.options, hlog ▸ htallied.reportAll ws⟩
  | error stop =>
    have hrejected := hx.rejects hpolicy hr
    obtain ⟨failure, added, -, -, hlog⟩ := hrejected.log
    exact ⟨hrejected.options, hlog ▸ htallied.reportAll added⟩

theorem Visits.tallied {options : Options} (hpolicy : options.failurePolicy = .collect)
    (h : Visits options s) : s.options = options ∧ s.log.Tallied := by
  induction h with
  | new source => exact ⟨rfl, rfl, rfl⟩
  | attempt _ hx hr ih =>
    obtain ⟨hoptions, htallied⟩ := hx.accounts.kept (ih.1 ▸ hpolicy) ih.2 hr
    exact ⟨hoptions.trans ih.1, htallied⟩
  | types _ t ih => exact ih
  | report _ d ih => exact ⟨ih.1, ih.2.report d⟩
  | amend _ suffix ih => exact ⟨ih.1, ih.2.amendLast suffix⟩
  | openScope _ ih => exact ih
  | closeScope _ ih => exact ih

end Session

open Session

/-- In every state of a session that collects rejections the tally is the number of errors and warnings, and
an operation adds to the log: warnings if it is accepted, and otherwise an account of its rejection. -/
theorem rejections_accounted {options : Options} {s s' : Session} {α : Type} {x : SessionM α} {r : Except Stop α}
    (hpolicy : options.failurePolicy = .collect) (hs : Visits options s) (hx : Attempt x) (hr : Ends x s r s') :
    s.log.Tallied ∧ s'.log.Tallied ∧ ∃ added, s'.log.entries = s.log.entries ++ added ∧
      Accounted s r added s' := by
  obtain ⟨hoptions, htallied⟩ := hs.tallied hpolicy
  rw [← hoptions] at hpolicy
  refine ⟨htallied, (hx.accounts.kept hpolicy htallied hr).2, ?_⟩
  cases r with
  | ok a =>
    obtain ⟨ws, hws, hlog⟩ := (hx.accounts.accepts hr).log
    exact ⟨ws, hlog ▸ Log.entries_reportAll, hws⟩
  | error stop =>
    have hrejected := hx.accounts.rejects hpolicy hr
    obtain ⟨failure, added, hstop, haccount, hlog⟩ := hrejected.log
    exact ⟨added, hlog ▸ Log.entries_reportAll, failure, hstop, haccount, hrejected.symbols, hrejected.tags⟩

namespace Redeclaring

def options : Options := { failurePolicy := .collect }

/-- A session that has the type of 8-bit integers. -/
def started : Session := { Session.new options none with types := (TypeM.signed 8 (.empty 64)).2 }

def byte : TypeId := (TypeM.signed 8 (.empty 64)).1

def first : SessionM Declaration := declareVariable "x" byte none (.onLine 1 1 1)

def declared : Session := (first.run.run started).2

def value : SessionM Expr := Node.integer 300 (.onLine 2 5 7)

def valued : Session := (value.run.run declared).2

/-- A second `x` in the same scope, with an initializer that does not fit. -/
def second : SessionM Declaration :=
  declareVariable "x" byte (value.run.run declared).1.toOption (.onLine 2 1 7)

def rejected : Except Stop Declaration × Session := second.run.run valued

theorem visits : Visits options valued := by
  have hstarted : Visits options started := .types (.new none) _
  have hdeclared : Visits options declared :=
    .attempt hstarted (.declareVariable _ _ _ _) (show Ends first started _ declared from rfl)
  exact .attempt hdeclared (.integer _ _) (show Ends value declared _ valued from rfl)

end Redeclaring

open Redeclaring in
/-- The warning about the initializer, the error and the note on the earlier place are all that is added. -/
theorem redeclaration_accounted : (rejected.1.isOk = false ∧
    rejected.2.log.entries.map (·.severity) = [.warning, .error, .note]) ∧
    valued.log.Tallied ∧ rejected.2.log.Tallied ∧ ∃ added, rejected.2.log.entries = valued.log.entries ++ added ∧
      Accounted valued rejected.1 added rejected.2 := by
  have hends : Ends second valued rejected.1 rejected.2 := rfl
  exact ⟨⟨by decide +kernel, by decide +kernel⟩, rejections_accounted rfl visits (.declareVariable _ _ _ _) hends⟩

end TypedCore
