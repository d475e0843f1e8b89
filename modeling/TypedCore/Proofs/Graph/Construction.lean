import TypedCore.Proofs.Emitter.Steady
import TypedCore.Proofs.Graph.Calls

/-!
# The construction of functions

Requests may come in any order and fail, and the caller may go on after that. The bodies of statements make requests
of their own, where a body may also end the function that its statement belongs to, and begin another. Through all of
this an emitter either builds a function or does not: no request gets as far as an error of the builder, none fails
for want of a function while there is one, and a function is refused if and only if it is begun inside another
(`requests_keep_construction`).
-/

namespace TypedCore

open Ir Lowering Emit Emitter

/-! ### Beginning and ending a function -/

namespace Emit

variable {s s' : Emitter}

theorem enter_moves (s : Emitter) (name : String) (ret : Ty) (params : List Parameter) (variadic : Bool) :
    Moves [] s (s.enter name ret params variadic) := by
  have hdefined : (s.enter name ret params variadic).defined = [s.labels] := rfl
  refine ⟨.building (enter_drafting ..) ?_, Nat.le_succ _, ?_⟩
  · rw [hdefined]
    intro l hl
    rw [List.mem_singleton.1 hl]
    exact Nat.lt_succ_self _
  · rw [hdefined]
    exact fun l hl => .inr (.inr (Nat.le_of_eq (List.mem_singleton.1 hl).symm))

/-- A function is refused for its type or for the function that is under construction, or begun. -/
theorem functionBegin_moves {t : TypeTable} {name : String} {ty : TypeId} {params : List (SymbolId × String)}
    {r : Except Fault Unit} (h : Ends (functionBegin t name ty params) s r s') :
    (¬ Accepts t ty params ∧ (∃ f, r = .error f ∧ f.isOfType = true) ∧ s' = s) ∨
    (Accepts t ty params ∧
      ((∃ head, s.current = some head ∧ r = .error (.nestedFunction name head.name) ∧ s' = s) ∨
      (s.current = none ∧ r = .ok () ∧ s'.current.isSome ∧ Moves [] s s'))) := by
  obtain hrefused | ⟨ret, tys, variadic, ir, ps, hshape, hlength, hret, hparams, hbegin⟩ := functionBegin_ends h
  · exact .inl hrefused
  have haccepts : Accepts t ty params := ⟨ret, tys, variadic, hshape, hlength, by rw [hret]; rfl, by rw [hparams]; rfl⟩
  obtain hnested | ⟨hc, hspill⟩ := beginFunction_ends hbegin
  · exact .inr ⟨haccepts, .inl hnested⟩
  -- the parameters go to the entry block, which is open
  obtain ⟨⟨_, rfl⟩, hd, -, hdefined, hlabels⟩ := Inside.spill ps 0 (enter_drafting ..) (enter_open ..) hspill
  have hm := enter_moves s name ir ps variadic
  have hsame : Moves [] _ s' := .of_same hm.steady hd hdefined hlabels
  exact .inr ⟨haccepts, .inr ⟨hc, rfl, hd.head, hm.trans hsame (by simp)⟩⟩

theorem leaveFunction_moves {s₁ : Emitter} (h : s₁.labels = s.labels) : Moves [] s (leaveFunction s₁) :=
  ⟨.idle rfl rfl rfl, Nat.le_of_eq h.symm, by rw [defined_of_no_function rfl]; simp⟩

/-- A function that is closed, or cannot be closed, is under construction no more. -/
theorem endFunction_moves {r : Except Fault Unit} (hs : s.Steady) (h : Ends endFunction s r s') :
    (s.current = none ∧ r = .error .noFunction ∧ s' = s) ∨
    (s.current.isSome ∧ (r = .ok () ∨ ∃ name, r = .error (.missingReturn name)) ∧ s'.current = none ∧
      Moves [] s s') := by
  obtain ⟨head, hc, -⟩ | hnone := requireFunction_bind_iff.1 h
  swap
  · exact .inl hnone
  have hsome : s.current.isSome := by simp [hc]
  have hd := hs.drafting hsome
  obtain ⟨f, hf⟩ := Option.isSome_iff_exists.1 hd.function_isSome
  obtain ⟨name, rfl, rfl⟩ | ⟨rfl, bs, s₁, -, hlabels, rfl⟩ := endFunction_ends hd hf h
  · exact .inr ⟨hsome, .inr ⟨name, rfl⟩, rfl, leaveFunction_moves rfl⟩
  · exact .inr ⟨hsome, .inl rfl, rfl, leaveFunction_moves hlabels⟩

end Emit

/-! ### Requests -/

mutual

/-- What a caller may ask for. -/
inductive Request where
  | start (t : TypeTable) (name : String) (ty : TypeId) (params : List (SymbolId × String))
  | finish
  | value (t : TypeTable) (e : Expr)
  | address (t : TypeTable) (e : Expr)
  | constant (t : TypeTable) (e : Expr)
  | branch (t : TypeTable) (e : Expr) (onTrue onFalse : LabelId)
  | init (t : TypeTable) (address : Value) (e : Expr) (ty : TypeId)
  | expr (t : TypeTable) (e : Expr)
  | ret (t : TypeTable) (value : Option Expr)
  | declare (t : TypeTable) (d : Declaration)
  | declareLocal (t : TypeTable) (d : Declaration)
  | declareGlobal (t : TypeTable) (d : Declaration)
  | ifThen (t : TypeTable) (cond : Expr) (body : Script)
  | ifElse (t : TypeTable) (cond : Expr) (thenBody elseBody : Script)
  | loop (t : TypeTable) (cond : Expr) (body : Script)

/-- Requests that are made one after the other. -/
inductive Script where
  | nil
  /-- If the request fails, so does the script. -/
  | insist (c : Request) (rest : Script)
  /-- The script goes on whatever becomes of the request. -/
  | attempt (c : Request) (rest : Script)

end

mutual

def Request.code : Request → EmitM Unit
  | .start t name ty params => functionBegin t name ty params
  | .finish => functionEnd
  | .value t e => do let _ ← loadValue t e
  | .address t e => do let _ ← loadAddress t e
  | .constant t e => do let _ ← loadConstant t e
  | .branch t e onTrue onFalse => branchOn t e onTrue onFalse
  | .init t address e ty => storeInitializer t address e ty
  | .expr t e => expressionStatement t e
  | .ret t value => returnStatement t value
  | .declare t d => declaration t d
  | .declareLocal t d => localDeclaration t d
  | .declareGlobal t d => globalDeclaration t d
  | .ifThen t cond body => ifStatement t cond body.code
  | .ifElse t cond thenBody elseBody => ifElseStatement t cond thenBody.code elseBody.code
  | .loop t cond body => whileStatement t cond body.code

def Script.code : Script → EmitM Unit
  | .nil => return
  | .insist c rest => do
    c.code
    rest.code
  | .attempt c rest => do
    tryCatch c.code fun _ => return
    rest.code

end

/-! ### Statements up to their bodies -/

namespace Lowering

variable {t : TypeTable} {cond : Expr} {body thenBody elseBody : EmitM Unit}

/-- What comes before the body; the label is that of the code after the statement. -/
def ifHead (t : TypeTable) (cond : Expr) : EmitM LabelId := do
  let onTrue ← createLabel
  let done ← createLabel
  branchOn t cond onTrue done
  defineLabel onTrue
  return done

/-- The labels are those of the other way and of the code after the statement. -/
def ifElseHead (t : TypeTable) (cond : Expr) : EmitM (LabelId × LabelId) := do
  let onTrue ← createLabel
  let onFalse ← createLabel
  let done ← createLabel
  branchOn t cond onTrue onFalse
  defineLabel onTrue
  return (onFalse, done)

/-- What comes between the two bodies. -/
def elseHead (onFalse done : LabelId) : EmitM Unit := do
  jumpIfOpen done
  defineLabel onFalse

/-- The labels are those of the condition and of the code after the statement. -/
def loopHead (t : TypeTable) (cond : Expr) : EmitM (LabelId × LabelId) := do
  let check ← createLabel
  let again ← createLabel
  let done ← createLabel
  defineLabel check
  branchOn t cond again done
  defineLabel again
  return (check, done)

theorem ifStatement_eq :
    ifStatement t cond body = ifHead t cond >>= fun done => body >>= fun _ => defineLabel done := by
  simp only [ifStatement, ifHead, bind_assoc, pure_bind]

theorem ifElseStatement_eq : ifElseStatement t cond thenBody elseBody =
    ifElseHead t cond >>= fun labels => thenBody >>= fun _ => elseHead labels.1 labels.2 >>= fun _ =>
      elseBody >>= fun _ => defineLabel labels.2 := by
  simp only [ifElseStatement, ifElseHead, elseHead, bind_assoc, pure_bind]

theorem whileStatement_eq : whileStatement t cond body =
    loopHead t cond >>= fun labels => body >>= fun _ => jumpIfOpen labels.1 >>= fun _ => defineLabel labels.2 := by
  simp only [whileStatement, loopHead, bind_assoc, pure_bind]

end Lowering

/-! ### The requests that are made in the course of others -/

mutual

/-- In the course of the request `c`, made in `s`, the request `d` is made in `u`. -/
inductive Request.Makes : Request → Emitter → Request → Emitter → Prop
  | self (c : Request) (s : Emitter) : Request.Makes c s c s
  | ifThen {t : TypeTable} {cond : Expr} {body : Script} {s s₁ u : Emitter} {done : LabelId} {d : Request}
      (h : Ends (ifHead t cond) s (.ok done) s₁) (hm : Script.Makes body s₁ d u) :
      Request.Makes (.ifThen t cond body) s d u
  | ifElse {t : TypeTable} {cond : Expr} {thenBody elseBody : Script} {s s₁ u : Emitter}
      {labels : LabelId × LabelId} {d : Request} (h : Ends (ifElseHead t cond) s (.ok labels) s₁)
      (hm : Script.Makes thenBody s₁ d u) : Request.Makes (.ifElse t cond thenBody elseBody) s d u
  | orElse {t : TypeTable} {cond : Expr} {thenBody elseBody : Script} {s s₁ s₂ s₃ u : Emitter}
      {labels : LabelId × LabelId} {d : Request} (h : Ends (ifElseHead t cond) s (.ok labels) s₁)
      (hthen : Ends thenBody.code s₁ (.ok ()) s₂) (helse : Ends (elseHead labels.1 labels.2) s₂ (.ok ()) s₃)
      (hm : Script.Makes elseBody s₃ d u) : Request.Makes (.ifElse t cond thenBody elseBody) s d u
  | loop {t : TypeTable} {cond : Expr} {body : Script} {s s₁ u : Emitter} {labels : LabelId × LabelId} {d : Request}
      (h : Ends (loopHead t cond) s (.ok labels) s₁) (hm : Script.Makes body s₁ d u) :
      Request.Makes (.loop t cond body) s d u

inductive Script.Makes : Script → Emitter → Request → Emitter → Prop
  | insisted {c d : Request} {rest : Script} {s u : Emitter} (hm : Request.Makes c s d u) :
      Script.Makes (.insist c rest) s d u
  | insist {c d : Request} {rest : Script} {s s₁ u : Emitter} (h : Ends c.code s (.ok ()) s₁)
      (hm : Script.Makes rest s₁ d u) : Script.Makes (.insist c rest) s d u
  | attempted {c d : Request} {rest : Script} {s u : Emitter} (hm : Request.Makes c s d u) :
      Script.Makes (.attempt c rest) s d u
  | attempt {c d : Request} {rest : Script} {s s₁ u : Emitter} {r : Except Fault Unit} (h : Ends c.code s r s₁)
      (hm : Script.Makes rest s₁ d u) : Script.Makes (.attempt c rest) s d u

end

/-! ### Every request keeps the state steady -/

/-- The fault is about the program, or comes from one of the requests `M`, to begin a function inside another. -/
def Blamed (M : Request → Emitter → Prop) (f : Fault) : Prop :=
  f.isOfProgram = true ∨ ∃ t name ty params u head, M (.start t name ty params) u ∧ Accepts t ty params ∧
    u.current = some head ∧ f = .nestedFunction name head.name

theorem Blamed.mono {M M' : Request → Emitter → Prop} (hM : ∀ d u, M d u → M' d u) {f : Fault} (h : Blamed M f) :
    Blamed M' f := by
  rcases h with h | ⟨t, name, ty, params, u, head, hm, h⟩
  · exact .inl h
  · exact .inr ⟨t, name, ty, params, u, head, hM _ _ hm, h⟩

abbrev OfProgram (f : Fault) : Prop := f.isOfProgram = true

variable {M : Request → Emitter → Prop} {J : List LabelId} {α : Type} {K : α → List LabelId}

theorem Keeps.blamed {x : EmitM α} (h : Keeps OfProgram J x K) (s : Emitter) : KeepsAt (Blamed M) J s x K :=
  KeepsAt.imp (@h s) fun _ => .inl

theorem KeepsAt.within {M' : Request → Emitter → Prop} {s : Emitter} {x : EmitM α} (h : KeepsAt (Blamed M) J s x K)
    (hM : ∀ d u, M d u → M' d u) : KeepsAt (Blamed M') J s x K :=
  h.imp fun _ => Blamed.mono hM

namespace Lowering

theorem branchOn_safe (t : TypeTable) (cond : Expr) (onTrue onFalse : LabelId) :
    Safe OfProgram (branchOn t cond onTrue onFalse) :=
  ((lower_structured t cond).branch onTrue onFalse).safe

theorem Straight.safe {x : EmitM α} (h : Straight x) : Safe OfProgram x := by
  induction h with
  | code h => exact h.safe
  | bind _ _ ihx ihf => exact ihx.bind ihf
  | slot symbol name ty => exact Safe.localVariable symbol name ty
  | global name ty init =>
    have hrecord : Safe OfProgram (recordType ty) := .note (fun _ => rfl) fun _ => rfl
    refine hrecord.bind fun _ => ?_
    exact (Safe.note (f := fun e => { e with module := e.module.addGlobal ⟨name, ty, false, init, .external⟩ })
      (fun _ => rfl) fun _ => rfl).bind fun _ => Safe.pure _
  | ret v => exact Safe.instr _

theorem ifHead_keeps (t : TypeTable) (cond : Expr) : Keeps OfProgram [] (ifHead t cond) fun done => [done] :=
  Keeps.createLabel.seq fun onTrue => Keeps.createLabel.seq fun done => (branchOn_safe t cond onTrue done).bind fun _ =>
    (Keeps.defineLabel onTrue [done]).seq fun _ => .pure (fun done => [done]) done

theorem ifElseHead_keeps (t : TypeTable) (cond : Expr) :
    Keeps OfProgram [] (ifElseHead t cond) fun labels => [labels.1, labels.2] :=
  Keeps.createLabel.seq fun onTrue => Keeps.createLabel.seq fun onFalse => Keeps.createLabel.seq fun done =>
    (branchOn_safe t cond onTrue onFalse).bind fun _ => (Keeps.defineLabel onTrue [onFalse, done]).seq fun _ =>
      .pure (fun labels => [labels.1, labels.2]) (onFalse, done)

theorem elseHead_keeps (onFalse done : LabelId) :
    Keeps OfProgram [onFalse, done] (elseHead onFalse done) fun _ => [done] :=
  (Safe.jumpIfOpen done).bind fun _ => .defineLabel onFalse [done]

theorem loopHead_keeps (t : TypeTable) (cond : Expr) :
    Keeps OfProgram [] (loopHead t cond) fun labels => [labels.2] :=
  Keeps.createLabel.seq fun check => Keeps.createLabel.seq fun again => Keeps.createLabel.seq fun done =>
    (Keeps.defineLabel check [again, done]).seq fun _ => (branchOn_safe t cond again done).bind fun _ =>
      (Keeps.defineLabel again [done]).seq fun _ => .pure (fun labels => [labels.2]) (check, done)

end Lowering

/-- A failure that the caller does not mind. -/
theorem tryCatch_iff {x : EmitM Unit} {s s' : Emitter} {r : Except Fault Unit} :
    Ends (tryCatch x fun _ => pure ()) s r s' ↔ r = .ok () ∧ ∃ r₁, Ends x s r₁ s' := by
  have hrun : (tryCatch x fun _ => pure () : EmitM Unit).run.run s = (.ok (), (x.run.run s).2) := by
    rw [ExceptT.run_tryCatch, StateT.run_bind]
    rcases x.run.run s with ⟨e | a, s₁⟩
    · rfl
    · rfl
  unfold Ends
  rw [hrun]
  constructor
  · intro h
    cases h
    exact ⟨rfl, _, rfl⟩
  · rintro ⟨rfl, r₁, h⟩
    rw [h]

mutual

theorem Request.safe (c : Request) (s : Emitter) : KeepsAt (Blamed (c.Makes s)) [] s c.code fun _ => [] := by
  cases c with
  | start t name ty params =>
    intro r s' hs _ h
    obtain ⟨-, ⟨f, rfl, hf⟩, rfl⟩ | ⟨hok, ⟨head, hc, rfl, rfl⟩ | ⟨-, rfl, -, hm⟩⟩ := functionBegin_moves h
    · exact ⟨.refl hs, fun _ hr => .inl (.inl (Except.error.inj hr ▸ Fault.isOfProgram_of_isOfType hf)), by rintro _ ⟨⟩⟩
    · refine ⟨.refl hs, fun f hr => .inl (.inr ?_), by rintro _ ⟨⟩⟩
      exact ⟨t, name, ty, params, s', head, .self .., hok, hc, (Except.error.inj hr).symm⟩
    · exact ⟨hm, by rintro _ ⟨⟩, fun _ _ => ⟨.nil _, by simp⟩⟩
  | finish =>
    intro r s' hs _ h
    obtain ⟨hc, rfl, rfl⟩ | ⟨-, rfl | ⟨name, rfl⟩, -, hm⟩ := endFunction_moves hs h
    · exact ⟨.refl hs, fun _ hr => .inr ⟨(Except.error.inj hr).symm, hc⟩, by rintro _ ⟨⟩⟩
    · exact ⟨hm, by rintro _ ⟨⟩, fun _ _ => ⟨.nil _, by simp⟩⟩
    · exact ⟨hm, fun _ hr => .inl (.inl (Except.error.inj hr ▸ rfl)), by rintro _ ⟨⟩⟩
  | value t e => exact Keeps.blamed ((lower_structured t e).value.safe.bind fun _ => Safe.pure _) s
  | address t e => exact Keeps.blamed ((lower_structured t e).address.safe.bind fun _ => Safe.pure _) s
  | constant t e => exact Keeps.blamed ((loadConstant_emits t e).safe.bind fun _ => Safe.pure _) s
  | branch t e onTrue onFalse => exact (branchOn_safe t e onTrue onFalse).blamed s
  | init t address e ty => exact ((lower_structured t e).init address ty).safe.blamed s
  | expr t e => exact Keeps.blamed ((lower_structured t e).value.safe.bind fun _ => Safe.pure _) s
  | ret t value => exact (returnStatement_straight t value).safe.blamed s
  | declare t d => exact (declaration_straight t d).safe.blamed s
  | declareLocal t d => exact (localDeclaration_straight t d).safe.blamed s
  | declareGlobal t d => exact (globalDeclaration_straight t d).safe.blamed s
  | ifThen t cond body =>
    unfold Request.code
    rw [ifStatement_eq]
    refine ((ifHead_keeps t cond).blamed s).seq fun done s₁ h₁ => ?_
    refine (((body.safe s₁).within fun _ _ => .ifThen h₁).frame [done]).seq fun _ s₂ _ => ?_
    exact (Keeps.defineLabel done []).blamed s₂
  | ifElse t cond thenBody elseBody =>
    unfold Request.code
    rw [ifElseStatement_eq]
    refine ((ifElseHead_keeps t cond).blamed s).seq fun labels s₁ h₁ => ?_
    refine (((thenBody.safe s₁).within fun _ _ => .ifElse h₁).frame [labels.1, labels.2]).seq fun _ s₂ h₂ => ?_
    refine ((elseHead_keeps labels.1 labels.2).blamed s₂).seq fun _ s₃ h₃ => ?_
    refine (((elseBody.safe s₃).within fun _ _ => .orElse h₁ h₂ h₃).frame [labels.2]).seq fun _ s₄ _ => ?_
    exact (Keeps.defineLabel labels.2 []).blamed s₄
  | loop t cond body =>
    unfold Request.code
    rw [whileStatement_eq]
    refine ((loopHead_keeps t cond).blamed s).seq fun labels s₁ h₁ => ?_
    refine (((body.safe s₁).within fun _ _ => .loop h₁).frame [labels.2]).seq fun _ s₂ _ => ?_
    exact ((Safe.jumpIfOpen labels.1).bind fun _ => Keeps.defineLabel labels.2 []).blamed s₂

theorem Script.safe (c : Script) (s : Emitter) : KeepsAt (Blamed (c.Makes s)) [] s c.code fun _ => [] := by
  cases c with
  | nil => exact (Safe.pure ()).blamed s
  | insist c rest =>
    unfold Script.code
    exact ((c.safe s).within fun _ _ => .insisted).seq fun _ s₁ h₁ => (rest.safe s₁).within fun _ _ => .insist h₁
  | attempt c rest =>
    unfold Script.code
    refine KeepsAt.seq (K := fun _ => []) (fun r s' hs hJ h => ?_) fun _ s₁ h₁ => ?_
    · obtain ⟨rfl, r₁, h₁⟩ := tryCatch_iff.1 h
      exact ⟨(c.safe s hs hJ h₁).1, by rintro _ ⟨⟩, fun _ _ => ⟨.nil _, by simp⟩⟩
    · obtain ⟨-, r₁, h₁⟩ := tryCatch_iff.1 h₁
      exact (rest.safe s₁).within fun _ _ => .attempt h₁

end

/-! ### The states in which requests are made -/

theorem KeepsAt.steady {P : Fault → Prop} {s s' : Emitter} {x : EmitM α} {r : Except Fault α} (h : KeepsAt P J s x K)
    (hs : s.Steady) (hJ : s.Reserves J) (hx : Ends x s r s') : s'.Steady := (h hs hJ hx).1.steady

theorem KeepsAt.reserves {P : Fault → Prop} {s s' : Emitter} {x : EmitM α} {a : α} (h : KeepsAt P J s x K)
    (hs : s.Steady) (hJ : s.Reserves J) (hx : Ends x s (.ok a) s') : s'.Reserves (K a) :=
  ((h hs hJ hx).2.2 a rfl).1

theorem orElse_steady {t : TypeTable} {cond : Expr} {thenBody : Script} {s s₁ s₂ s₃ : Emitter}
    {labels : LabelId × LabelId} (hs : s.Steady) (h : Ends (ifElseHead t cond) s (.ok labels) s₁)
    (hthen : Ends thenBody.code s₁ (.ok ()) s₂) (helse : Ends (elseHead labels.1 labels.2) s₂ (.ok ()) s₃) :
    s₃.Steady := by
  have hs₁ := KeepsAt.steady (@ifElseHead_keeps t cond s) hs (.nil s) h
  have hJ₁ := KeepsAt.reserves (@ifElseHead_keeps t cond s) hs (.nil s) h
  have hbody := (thenBody.safe s₁).frame [labels.1, labels.2]
  exact KeepsAt.steady (@elseHead_keeps _ _ s₂) (hbody.steady hs₁ hJ₁ hthen) (hbody.reserves hs₁ hJ₁ hthen) helse

mutual

theorem Request.Makes.steady {c d : Request} {s u : Emitter} : c.Makes s d u → s.Steady → u.Steady
  | .self .., hs => hs
  | .ifThen h hm, hs => hm.steady (KeepsAt.steady (@ifHead_keeps _ _ _) hs (.nil s) h)
  | .ifElse h hm, hs => hm.steady (KeepsAt.steady (@ifElseHead_keeps _ _ _) hs (.nil s) h)
  | .orElse h hthen helse hm, hs => hm.steady (orElse_steady hs h hthen helse)
  | .loop h hm, hs => hm.steady (KeepsAt.steady (@loopHead_keeps _ _ _) hs (.nil s) h)

theorem Script.Makes.steady {c : Script} {d : Request} {s u : Emitter} : c.Makes s d u → s.Steady → u.Steady
  | .insisted hm, hs => hm.steady hs
  | .insist h hm, hs => hm.steady ((Request.safe _ _).steady hs (.nil s) h)
  | .attempted hm, hs => hm.steady hs
  | .attempt h hm, hs => hm.steady ((Request.safe _ _).steady hs (.nil s) h)

end

/-! ### What ends a function -/

/-- Started in `s`, `x` keeps the function under construction, unless one of the requests `M` is to end it. -/
def Retains (M : Request → Emitter → Prop) (s : Emitter) (x : EmitM α) : Prop :=
  ∀ ⦃r s'⦄, Ends x s r s' → s'.current = none → s.current = none ∨ ∃ u, M .finish u

namespace Retains

variable {s : Emitter}

theorem grows {x : EmitM α} (h : Grows x) : Retains M s x :=
  fun _ _ hx hc => .inl ((h hx).functions.2 ▸ hc)

theorem within {M' : Request → Emitter → Prop} {x : EmitM α} (h : Retains M s x) (hM : ∀ d u, M d u → M' d u) :
    Retains M' s x :=
  fun _ _ hx hc => (h hx hc).imp_right fun hm => hm.imp fun u => hM .finish u

theorem bind {β : Type} {x : EmitM α} {f : α → EmitM β} (hx : Retains M s x)
    (hf : ∀ a s₁, Ends x s (.ok a) s₁ → Retains M s₁ (f a)) : Retains M s (x >>= f) := by
  intro r s' h hc
  obtain ⟨a, s₁, h₁, h₂⟩ | ⟨f, -, h₁⟩ := Ends.bind_iff.1 h
  · rcases hf a s₁ h₁ h₂ hc with hc₁ | hm
    · exact hx h₁ hc₁
    · exact .inr hm
  · exact hx h₁ hc

end Retains

namespace Lowering

theorem ifHead_grows (t : TypeTable) (cond : Expr) : Grows (ifHead t cond) :=
  .bind .createLabel fun _ => .bind .createLabel fun _ => .bind (branchOn_grows ..) fun _ =>
    .bind (.defineLabel _) fun _ => .pure _

theorem ifElseHead_grows (t : TypeTable) (cond : Expr) : Grows (ifElseHead t cond) :=
  .bind .createLabel fun _ => .bind .createLabel fun _ => .bind .createLabel fun _ =>
    .bind (branchOn_grows ..) fun _ => .bind (.defineLabel _) fun _ => .pure _

theorem elseHead_grows (onFalse done : LabelId) : Grows (elseHead onFalse done) :=
  .bind (jumpIfOpen_grows _) fun _ => .defineLabel _

theorem loopHead_grows (t : TypeTable) (cond : Expr) : Grows (loopHead t cond) :=
  .bind .createLabel fun _ => .bind .createLabel fun _ => .bind .createLabel fun _ => .bind (.defineLabel _) fun _ =>
    .bind (branchOn_grows ..) fun _ => .bind (.defineLabel _) fun _ => .pure _

end Lowering

mutual

theorem Request.retains (c : Request) (s : Emitter) : Retains (c.Makes s) s c.code := by
  cases c with
  | start t name ty params =>
    intro r s' h hc
    obtain ⟨-, -, rfl⟩ | ⟨-, ⟨head, -, -, rfl⟩ | ⟨hs, -⟩⟩ := functionBegin_moves h
    · exact .inl hc
    · exact .inl hc
    · exact .inl hs
  | finish => exact fun _ _ _ _ => .inr ⟨s, .self ..⟩
  | value t e => exact .grows (.bind (lower_structured t e).value.grows fun _ => .pure _)
  | address t e => exact .grows (.bind (lower_structured t e).address.grows fun _ => .pure _)
  | constant t e => exact .grows (.bind (loadConstant_emits t e).grows fun _ => .pure _)
  | branch t e onTrue onFalse => exact .grows (branchOn_grows t e onTrue onFalse)
  | init t address e ty => exact .grows ((lower_structured t e).init address ty).grows
  | expr t e => exact .grows (.bind (lower_structured t e).value.grows fun _ => .pure _)
  | ret t value => exact .grows (returnStatement_straight t value).grows
  | declare t d => exact .grows (declaration_straight t d).grows
  | declareLocal t d => exact .grows (localDeclaration_straight t d).grows
  | declareGlobal t d => exact .grows (globalDeclaration_straight t d).grows
  | ifThen t cond body =>
    unfold Request.code
    rw [ifStatement_eq]
    refine (Retains.grows (ifHead_grows t cond)).bind fun done s₁ h₁ => ?_
    exact ((body.retains s₁).within fun _ _ => .ifThen h₁).bind fun _ s₂ _ => .grows (.defineLabel done)
  | ifElse t cond thenBody elseBody =>
    unfold Request.code
    rw [ifElseStatement_eq]
    refine (Retains.grows (ifElseHead_grows t cond)).bind fun labels s₁ h₁ => ?_
    refine ((thenBody.retains s₁).within fun _ _ => .ifElse h₁).bind fun _ s₂ h₂ => ?_
    refine (Retains.grows (elseHead_grows labels.1 labels.2)).bind fun _ s₃ h₃ => ?_
    exact ((elseBody.retains s₃).within fun _ _ => .orElse h₁ h₂ h₃).bind fun _ s₄ _ => .grows (.defineLabel labels.2)
  | loop t cond body =>
    unfold Request.code
    rw [whileStatement_eq]
    refine (Retains.grows (loopHead_grows t cond)).bind fun labels s₁ h₁ => ?_
    refine ((body.retains s₁).within fun _ _ => .loop h₁).bind fun _ s₂ _ => ?_
    exact .grows (.bind (jumpIfOpen_grows labels.1) fun _ => .defineLabel labels.2)

theorem Script.retains (c : Script) (s : Emitter) : Retains (c.Makes s) s c.code := by
  cases c with
  | nil => exact .grows (.pure ())
  | insist c rest =>
    unfold Script.code
    exact ((c.retains s).within fun _ _ => .insisted).bind fun _ s₁ h₁ => (rest.retains s₁).within fun _ _ => .insist h₁
  | attempt c rest =>
    unfold Script.code
    refine Retains.bind (fun r s' h hc => ?_) fun _ s₁ h₁ => ?_
    · obtain ⟨-, r₁, h₁⟩ := tryCatch_iff.1 h
      exact ((c.retains s).within fun _ _ => .attempted) h₁ hc
    · obtain ⟨-, r₁, h₁⟩ := tryCatch_iff.1 h₁
      exact (rest.retains s₁).within fun _ _ => .attempt h₁

end

/-! ### The states of the construction -/

namespace Emitter

variable {s : Emitter}

/-- The emitter and its builder agree on whether a function is under construction, and control has left every block of
it but the current one. -/
structure Consistent (s : Emitter) : Prop where
  function : s.builder.function.isSome = s.current.isSome
  block : s.builder.current.isSome = s.current.isSome
  closed : ∀ b ∈ s.blocks, s.builder.current ≠ some b.id → b.hasTerminator = true

theorem Steady.consistent (h : s.Steady) : s.Consistent := by
  cases h with
  | idle hc hf hb => exact ⟨by simp [hc, hf], by simp [hc, hb], by simp [blocks, hf]⟩
  | building hd _ =>
    obtain ⟨pre, b, hblocks, hcur⟩ := hd.last
    refine ⟨by rw [hd.function_isSome, hd.head], by simp [hcur, hd.head], fun c hc hne => ?_⟩
    rw [hblocks, List.mem_append, List.mem_singleton] at hc
    rcases hc with hc | rfl
    · exact hd.closed c (by rwa [hblocks, List.dropLast_concat])
    · exact absurd hcur hne

theorem new_steady (name : String) : (Emitter.new name).Steady := .idle rfl rfl rfl

end Emitter

/-- What may become of the request `c`, made in `s`. -/
structure Request.Outcome (c : Request) (s : Emitter) (r : Except Fault Unit) (s' : Emitter) : Prop where
  before : s.Consistent
  after : s'.Consistent
  /-- The builder is asked for nothing that it refuses. -/
  builder : ∀ e, r ≠ .error (.builder e)
  /-- There was no function from the start, or a body inside the request ended it. -/
  noFunction : r = .error .noFunction →
    s'.current = none ∧ (s.current = none ∨ c ≠ .finish ∧ ∃ u, c.Makes s .finish u)
  /-- A function whose type is in order was begun inside another. -/
  nested : ∀ {name outer}, r = .error (.nestedFunction name outer) →
    ∃ t ty params u head, c.Makes s (.start t name ty params) u ∧ Accepts t ty params ∧
      u.current = some head ∧ head.name = outer
  start : ∀ {t name ty params}, c = .start t name ty params → ∀ outer,
    r = .error (.nestedFunction name outer) ↔ Accepts t ty params ∧ ∃ head, s.current = some head ∧ head.name = outer

theorem Blamed.not_builder {e : BuildError} : ¬ Blamed M (.builder e) := by
  rintro (h | ⟨_, _, _, _, _, _, _, _, _, h⟩)
  · cases h
  · cases h

theorem Blamed.not_noFunction : ¬ Blamed M .noFunction := by
  rintro (h | ⟨_, _, _, _, _, _, _, _, _, h⟩)
  · cases h
  · cases h

theorem Blamed.of_nested {name outer : String} (h : Blamed M (.nestedFunction name outer)) :
    ∃ t ty params u head, M (.start t name ty params) u ∧ Accepts t ty params ∧ u.current = some head ∧
      head.name = outer := by
  rcases h with h | ⟨t, _, ty, params, u, head, hm, hok, hc, h⟩
  · cases h
  · cases h
    exact ⟨t, ty, params, u, head, hm, hok, hc, rfl⟩

/-- Ending a function fails for want of one only if there is none. -/
theorem finish_noFunction {s s' : Emitter} (hs : s.Steady) (h : Ends Request.finish.code s (.error .noFunction) s') :
    s.current = none := by
  obtain ⟨hc, -⟩ | ⟨-, hr | ⟨name, hr⟩, -⟩ := endFunction_moves hs h
  · exact hc
  · cases hr
  · cases hr

theorem start_nested_iff {t : TypeTable} {name outer : String} {ty : TypeId} {params : List (SymbolId × String)}
    {s s' : Emitter} {r : Except Fault Unit} (h : Ends (Request.start t name ty params).code s r s') :
    r = .error (.nestedFunction name outer) ↔
      Accepts t ty params ∧ ∃ head, s.current = some head ∧ head.name = outer := by
  obtain ⟨hno, ⟨f, rfl, hf⟩, -⟩ | ⟨hok, ⟨head, hc, rfl, -⟩ | ⟨hc, rfl, -⟩⟩ := functionBegin_moves h
  · refine ⟨?_, fun hn => absurd hn.1 hno⟩
    rintro ⟨⟩
    cases hf
  · simp [hok, hc]
  · simp [hc]

theorem Request.outcome {c : Request} {s s' : Emitter} {r : Except Fault Unit} (hs : s.Steady)
    (h : Ends c.code s r s') : c.Outcome s r s' := by
  obtain ⟨hmoves, hfault, -⟩ := c.safe s hs (.nil s) h
  refine ⟨hs.consistent, hmoves.steady.consistent, ?_, ?_, ?_, ?_⟩
  · rintro e rfl
    rcases hfault _ rfl with hb | ⟨hn, -⟩
    · exact hb.not_builder
    · cases hn
  · rintro rfl
    rcases hfault _ rfl with hb | ⟨-, hc⟩
    · exact absurd hb Blamed.not_noFunction
    refine ⟨hc, ?_⟩
    by_cases hfinish : c = .finish
    · subst hfinish
      exact .inl (finish_noFunction hs h)
    · exact (c.retains s h hc).imp_right fun hm => ⟨hfinish, hm⟩
  · rintro name outer rfl
    rcases hfault _ rfl with hb | ⟨hn, -⟩
    · exact hb.of_nested
    · cases hn
  · rintro t name ty params rfl outer
    exact start_nested_iff h

/-- Whatever is asked of a new emitter, and whatever became of it so far, the emitter and its builder agree on the
function under construction before and after each request, and a request fails on account of that function only if
there is none, or if there is one and another is begun. -/
theorem requests_keep_construction (name : String) {script : Script} {c : Request} {s s' : Emitter}
    {r : Except Fault Unit} (hm : script.Makes (Emitter.new name) c s) (h : Ends c.code s r s') : c.Outcome s r s' :=
  Request.outcome (hm.steady (new_steady name)) h

namespace Interrupted

open Stray

def begins (name : String) : Request := .start types name ⟨4⟩ []

/-- `if (cond())` with a body that ends the function, so that the code after it has none to go to. -/
def leaves : Request := .ifThen types test (.insist .finish .nil)

def script : Script :=
  .insist (begins "f") (.attempt leaves (.insist (begins "g") (.attempt (begins "h") .nil)))

def next (c : Request) (s : Emitter) : Emitter := (c.code.run.run s).2

theorem ends_next {c : Request} {s : Emitter} {r : Except Fault Unit} (h : (c.code.run.run s).1 = r) :
    Ends c.code s r (next c s) := Prod.ext h rfl

def leave : Emitter := next (begins "f") (Emitter.new "m")

def nest : Emitter := next (begins "g") (next leaves leave)

end Interrupted

open Interrupted in
theorem interrupted_construction :
    (leaves.code.run.run leave).1 = .error .noFunction ∧
      leaves.Outcome leave (.error .noFunction) (next leaves leave) ∧
    ((begins "h").code.run.run nest).1 = .error (.nestedFunction "h" "g") ∧
      (begins "h").Outcome nest (.error (.nestedFunction "h" "g")) (next (begins "h") nest) := by
  have hleave : (leaves.code.run.run leave).1 = .error .noFunction := by decide +kernel
  have hnest : ((begins "h").code.run.run nest).1 = .error (.nestedFunction "h" "g") := by decide +kernel
  have hbegin : Ends (begins "f").code (Emitter.new "m") (.ok ()) leave := ends_next (by decide +kernel)
  have hagain : Ends (begins "g").code (next leaves leave) (.ok ()) nest := ends_next (by decide +kernel)
  have hmakes : script.Makes (Emitter.new "m") leaves leave := .insist hbegin (.attempted (.self ..))
  have hmakes' : script.Makes (Emitter.new "m") (begins "h") nest :=
    .insist hbegin (.attempt (ends_next hleave) (.insist hagain (.attempted (.self ..))))
  exact ⟨hleave, requests_keep_construction "m" hmakes (ends_next hleave), hnest,
    requests_keep_construction "m" hmakes' (ends_next hnest)⟩

end TypedCore
