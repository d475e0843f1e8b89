import TypedCore.Proofs.Typing.Growth
import TypedCore.Session.Declare

/-!
# What declarations do to a session

A declaration that is rejected leaves the scopes as they are. One that is accepted puts one name or one tag
into scope, or finds what is there. The lemmas say with what, so that no other proof takes a declaration
apart.
-/

namespace TypedCore

namespace Session

variable {s s' : Session} {name : String} {ty : TypeId} {span : Span}

/-- A rejection goes to the log. -/
theorem reject_cases {α : Type} {rejection : Rejection} {r : Except Stop α}
    (h : Ends (reject rejection) s r s') : ∃ stop log, r = .error stop ∧ s' = { s with log } := by
  unfold Session.reject at h
  rw [Ends.modify_bind_iff, Ends.get_bind_iff] at h
  split at h <;>
  · obtain ⟨rfl, rfl⟩ := Ends.throw_iff.1 h
    exact ⟨_, _, rfl, rfl⟩

theorem grown_log (s : Session) (log : Log) : Grown s { s with log } := ⟨.refl, rfl, rfl⟩

theorem bind_cases {binding : Binding} {target : Target} {r : Except Stop SymbolId}
    (hx : Ends (Session.bind name binding span target) s r s') :
    (∃ stop log, r = .error stop ∧ s' = { s with log }) ∨
      ∃ id symbols, r = .ok id ∧ s.symbols.declare name binding span target = .ok (id, symbols) ∧
        s' = { s with symbols } := by
  unfold Session.bind at hx
  rw [Ends.get_bind_iff] at hx
  split at hx
  · exact .inl (reject_cases hx)
  · rename_i id symbols hd
    rw [Ends.set_bind_iff] at hx
    obtain ⟨rfl, rfl⟩ := Ends.pure_iff.1 hx
    exact .inr ⟨id, symbols, rfl, hd, rfl⟩

/-! ### Variables -/

/-- The initializer of a variable is converted to the variable's type, which may get its bound from it. -/
inductive Initializes (ty : TypeId) (s : Session) : Option Expr → Option Expr → TypeId → Session → Prop
  | absent : Initializes ty s none none ty s
  | converted {e e' : Expr} {s' : Session} (h : Ends (Node.implicitCast e ty) s (.ok e') s') :
      Initializes ty s (some e) (some e') e'.ty s'

theorem Initializes.grown {init init' : Option Expr} {ty' : TypeId} (h : Initializes ty s init init' ty' s') :
    Grown s s' := by
  cases h with
  | absent => exact .refl s
  | converted h => exact Node.implicitCast_grows _ _ h

/-- A variable has the type of its initializer. -/
theorem Initializes.ty_eq {init : Option Expr} {e : Expr} {ty' : TypeId}
    (h : Initializes ty s init (some e) ty' s') : e.ty = ty' := by
  cases h
  rfl

/-- What a variable is bound to. -/
def variableBinding (t : TypeTable) (ty : TypeId) (storage : Storage) (init : Option Expr) : Binding :=
  ⟨ty, storage, if t.isConst ty then init.filter (·.isConstant t) else none⟩

theorem variableBinding_value {t : TypeTable} {storage : Storage} {init : Option Expr} {e : Expr}
    (h : (variableBinding t ty storage init).value = some e) : init = some e := by
  simp only [variableBinding] at h
  split at h
  · exact (Option.filter_eq_some_iff.1 h).1
  · cases h

/-- What is left of a declaration once the initializer is converted. -/
def bindVariable (name : String) (ty : TypeId) (storage : Storage) (init : Option Expr) (span : Span) :
    SessionM Declaration := do
  let t ← currentTypes
  if !t.hasSize ty then
    reject ⟨.incompleteType (t.name ty), span⟩
  else
    let value := if t.isConst ty then init.filter (·.isConstant t) else none
    let symbol ← Session.bind name ⟨ty, storage, value⟩ span .innermost
    return ⟨symbol, name, ty, storage, init⟩

theorem bindVariable_cases {storage : Storage} {init : Option Expr} {r : Except Stop Declaration}
    (hx : Ends (bindVariable name ty storage init span) s r s') :
    (∃ stop log, r = .error stop ∧ s' = { s with log }) ∨ ∃ id symbols, r = .ok ⟨id, name, ty, storage, init⟩ ∧
      s.symbols.declare name (variableBinding s.types ty storage init) span .innermost = .ok (id, symbols) ∧
      s' = { s with symbols } := by
  unfold bindVariable at hx
  rw [currentTypes_bind_iff] at hx
  split at hx
  · exact .inl (reject_cases hx)
  · rcases Ends.bind_iff.1 hx with ⟨symbol, s₁, hb, hx⟩ | ⟨stop, rfl, hb⟩
    · obtain ⟨rfl, rfl⟩ := Ends.pure_iff.1 hx
      rcases bind_cases hb with ⟨stop, log, hstop, -⟩ | ⟨id, symbols, hid, hd, rfl⟩
      · cases hstop
      · cases hid
        exact .inr ⟨symbol, symbols, rfl, hd, rfl⟩
    · rcases bind_cases hb with ⟨stop', log, -, rfl⟩ | ⟨id, symbols, hid, -⟩
      · exact .inl ⟨stop, log, rfl, rfl⟩
      · cases hid

theorem declareVariable_cases {init : Option Expr} {r : Except Stop Declaration}
    (hx : Ends (declareVariable name ty init span) s r s') :
    (∃ stop, r = .error stop) ∧ Grown s s' ∨ ∃ d s₁ symbols, r = .ok d ∧ Initializes ty s init d.init d.ty s₁ ∧
      d.name = name ∧ d.storage = (if s.depth = 0 then .global else .automatic) ∧
      s₁.symbols.declare name (variableBinding s₁.types d.ty d.storage d.init) span .innermost =
        .ok (d.symbol, symbols) ∧ s' = { s₁ with symbols } := by
  unfold declareVariable at hx
  rw [Ends.get_bind_iff] at hx
  cases init with
  | none =>
    rcases bindVariable_cases hx with ⟨stop, log, rfl, rfl⟩ | ⟨id, symbols, rfl, hd, rfl⟩
    · exact .inl ⟨⟨stop, rfl⟩, grown_log s log⟩
    · exact .inr ⟨_, s, symbols, rfl, .absent, rfl, rfl, hd, rfl⟩
  | some e =>
    rcases Ends.bind_iff.1 hx with ⟨init, s₁, hmap, hx⟩ | ⟨stop, rfl, hmap⟩
    · obtain ⟨e', hcast, rfl⟩ := Ends.map_ok_iff.1 hmap
      have hinit : Initializes ty s (some e) (some e') e'.ty s₁ := .converted hcast
      rcases bindVariable_cases hx with ⟨stop, log, rfl, rfl⟩ | ⟨id, symbols, rfl, hd, rfl⟩
      · exact .inl ⟨⟨stop, rfl⟩, hinit.grown.trans (grown_log s₁ log)⟩
      · exact .inr ⟨_, s₁, symbols, rfl, hinit, rfl, rfl, hd, rfl⟩
    · exact .inl ⟨⟨stop, rfl⟩, Grows.map some (Node.implicitCast_grows _ _) hmap⟩

/-! ### Functions and structs -/

theorem declareFunction_cases {r : Except Stop SymbolId} (hx : Ends (declareFunction name ty span) s r s') :
    (∃ symbol, s.symbols.lookup name .root = some symbol ∧ symbol.value.storage = .function ∧
      s.types.equals symbol.value.ty ty = true ∧ r = .ok symbol.id ∧ s' = s) ∨
      Ends (Session.bind name ⟨ty, .function, none⟩ span .root) s r s' := by
  unfold declareFunction at hx
  rw [Ends.get_bind_iff] at hx
  simp only at hx
  split at hx
  · rename_i symbol hfilter
    obtain ⟨rfl, rfl⟩ := Ends.pure_iff.1 hx
    obtain ⟨hl, hsame⟩ := Option.filter_eq_some_iff.1 hfilter
    rw [Bool.and_eq_true, beq_iff_eq] at hsame
    exact .inl ⟨symbol, hl, hsame.1, hsame.2, rfl, rfl⟩
  · exact .inr hx

/-- A tag that is not there yet is declared, so that a declaration of a struct always succeeds. -/
theorem declareStruct_cases {r : Except Stop TypeId} (hx : Ends (declareStruct name span) s r s') :
    (∃ tag, s.tags.lookup name .innermost = some tag ∧ r = .ok tag.value ∧ s' = s) ∨
      ∃ ty types id tags, TypeM.incompleteStruct name s.types = (ty, types) ∧ r = .ok ty ∧
        s.tags.declare name ty span .innermost = .ok (id, tags) ∧ s' = { s with types, tags } := by
  unfold declareStruct at hx
  rw [Ends.get_bind_iff] at hx
  split at hx
  · rename_i tag hl
    obtain ⟨rfl, rfl⟩ := Ends.pure_iff.1 hx
    exact .inl ⟨tag, hl, rfl, rfl⟩
  · rename_i hnone
    rcases Ends.bind_iff.1 hx with ⟨ty, s₁, hnew, hx⟩ | ⟨stop, -, hnew⟩
    · obtain ⟨hty, rfl⟩ := onTypes_iff.1 hnew
      have hd : s.tags.declare name ty span .innermost =
          .ok (s.tags.nextId, s.tags.insert name ty span .innermost) := by
        simp only [SymbolTable.declare, hnone]
      rw [Ends.get_bind_iff] at hx
      simp only [hd] at hx
      rw [Ends.set_bind_iff] at hx
      obtain ⟨rfl, rfl⟩ := Ends.pure_iff.1 hx
      exact .inr ⟨ty, _, _, _, Prod.ext (Except.ok.inj hty).symm rfl, rfl, hd, rfl⟩
    · cases (onTypes_iff.1 hnew).1

theorem completeStruct_cases {members : List Member} {r : Except Stop Unit}
    (hx : Ends (Session.completeStruct ty members span) s r s') :
    (∃ stop log, r = .error stop ∧ s' = { s with log }) ∨ ∃ types, r = .ok () ∧
      s.types.completeStruct ty (members.map (·.name)) (members.map (·.ty)) = .ok types ∧
      s' = { s with types } := by
  unfold Session.completeStruct at hx
  rcases Ends.bind_iff.1 hx with ⟨r₁, s₁, hcomplete, hx⟩ | ⟨stop, -, hcomplete⟩
  · obtain ⟨hr₁, rfl⟩ := onTypes_iff.1 hcomplete
    have hends : Ends (TypeM.completeStruct ty (members.map (·.name)) (members.map (·.ty))) s.types r₁ _ :=
      Prod.ext (Except.ok.inj hr₁).symm rfl
    rcases TypeTable.completeStruct_cases hends with ⟨error, rfl, hsame⟩ | ⟨id, -, -, rfl, -⟩
    · obtain ⟨stop, log, rfl, rfl⟩ := reject_cases hx
      exact .inl ⟨stop, log, rfl, congrArg (fun types => { s with types, log }) hsame⟩
    · obtain ⟨rfl, rfl⟩ := Ends.pure_iff.1 hx
      exact .inr ⟨_, rfl, TypeTable.completeStruct_eq_ok_iff.2 hends, rfl⟩
  · cases (onTypes_iff.1 hcomplete).1

end Session

end TypedCore
