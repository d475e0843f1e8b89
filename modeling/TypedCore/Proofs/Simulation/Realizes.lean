import TypedCore.Proofs.Machine.Evaluation
import TypedCore.Proofs.Simulation.Stage

/-!
# Code that does what an evaluation does

`Realizes T L σ x m`: the code that `x` emits, run in the finished function `T`, does what the
evaluation `m` does, and where control comes out of it the result of `x` stands for the result of `m`.
`Branches T L σ x m onTrue onFalse` says the same of code that leaves by a jump to one of two labels.
Both hold from a stage `σ` on and compose along `>>=`, so that the code of an expression is compared
with its meaning part by part.
-/

namespace TypedCore

open Ir Machine Emit Emitter

namespace Machine

/-- How the results of generating code stand for those of an evaluation. -/
class Represents (M : Machine) (α β : Type) where
  rel : M.Stage → α → β → Prop
  mono : ∀ {σ σ' : M.Stage} {a : α} {b : β}, σ ≤ σ' → rel σ a b → rel σ' a b
  total : ∀ (σ : M.Stage) (a : α), ∃ σ' b, σ ≤ σ' ∧ rel σ' a b

variable {M : Machine}

instance same {α : Type} : Represents M α α where
  rel _ a b := a = b
  mono _ h := h
  total σ a := ⟨σ, a, le_rfl, rfl⟩

instance representsValue : Represents M Value M.Word where
  rel := Denotes
  mono hσ h := h.mono hσ
  total σ v := by
    obtain ⟨n, hn⟩ := v.exists_below
    exact ⟨⟨max σ.temps n, σ.regs⟩, _, ⟨Nat.le_max_left _ _, fun _ _ => rfl⟩,
      hn.mono (Nat.le_max_right _ _), rfl⟩

theorem denoteAll_of_allBelow {σ : M.Stage} :
    ∀ {vs : List Value}, Value.AllBelow σ.temps vs → DenoteAll σ vs (words σ.regs vs)
  | [], _ => .nil
  | _ :: _, h => .cons ⟨h.1, rfl⟩ (denoteAll_of_allBelow h.2)

instance representsValues : Represents M (List Value) (List M.Word) where
  rel := DenoteAll
  mono hσ h := h.imp fun _ _ hv => hv.mono hσ
  total σ vs := by
    obtain ⟨n, hn⟩ := Value.exists_allBelow vs
    exact ⟨⟨max σ.temps n, σ.regs⟩, _, ⟨Nat.le_max_left _ _, fun _ _ => rfl⟩,
      denoteAll_of_allBelow (hn.mono (Nat.le_max_right _ _))⟩

/-- A call that returns nothing has no value. -/
instance representsResult : Represents M (Option Value) M.Word where
  rel σ v w := Denotes σ (v.getD .undef) w
  mono hσ h := h.mono hσ
  total σ v := Represents.total σ (v.getD .undef)

theorem RunM.bind_eq_some {α β : Type} {m : M.RunM α} {g : α → M.RunM β} {ω ω₁ : M.World} {a : α}
    (h : m ω = some (a, ω₁)) : (m >>= g) ω = g a ω₁ := by
  show (m ω).bind (fun p => g p.1 p.2) = _
  rw [h]
  rfl

end Machine

open Represents (rel)

variable {M : Machine} {α β γ δ : Type}

/-- Code that control can fall through has been added. -/
structure Continues (s s' : Emitter) : Prop where
  steps : Steps s s'
  locals : s'.locals = s.locals
  opened : s.Open → s'.Open

/-- Code that control leaves has been added. -/
structure Leaves (s s' : Emitter) : Prop where
  steps : Steps s s'
  locals : s'.locals = s.locals
  closed : s'.acceptsInstr = false

namespace Continues

variable {s s₁ s' : Emitter}

theorem refl (s : Emitter) : Continues s s := ⟨.refl, rfl, id⟩

theorem trans (h : Continues s s₁) (h₁ : Continues s₁ s') : Continues s s' :=
  ⟨h.steps.trans h₁.steps, h₁.locals.trans h.locals, fun ho => h₁.opened (h.opened ho)⟩

theorem leaves (h : Continues s s₁) (h₁ : Leaves s₁ s') : Leaves s s' :=
  ⟨h.steps.trans h₁.steps, h₁.locals.trans h.locals, h₁.closed⟩

end Continues

/-- Control has come from the end of the code of `s` to the end of that of `s'`. -/
structure Arrives (T : M.Target) (s s' : Emitter) (c c' : M.Config) : Prop where
  runs : Runs T.blocks c c'
  there : s'.At T c'
  stage : s.stage c ≤ s'.stage c'

theorem Arrives.trans {T : M.Target} {s s₁ s' : Emitter} {c c₁ c' : M.Config}
    (h : Arrives T s s₁ c c₁) (h₁ : Arrives T s₁ s' c₁ c') : Arrives T s s' c c' :=
  ⟨h.runs.trans h₁.runs, h₁.there, h.stage.trans h₁.stage⟩

variable (T : M.Target) (L : List (SymbolId × Value))

def Realizes [Represents M α β] (σ : M.Stage) (x : EmitM α) (m : M.RunM β) : Prop :=
  ∀ ⦃s a s'⦄, s.Drafting → s.locals = L → Ends x s (.ok a) s' →
    Continues s s' ∧ ∀ ⦃c⦄, s'.Extends T → s.At T c → σ ≤ s.stage c →
      ∃ b c', m c.world = some (b, c'.world) ∧ Arrives T s s' c c' ∧ rel (s'.stage c') a b

def Branches (σ : M.Stage) (x : EmitM Unit) (m : M.RunM Bool) (onTrue onFalse : LabelId) : Prop :=
  ∀ ⦃s s'⦄, s.Drafting → s.locals = L → Ends x s (.ok ()) s' →
    Leaves s s' ∧ ∀ ⦃c⦄, s'.Extends T → s.At T c → σ ≤ s.stage c →
      ∃ b c', m c.world = some (b, c'.world) ∧ Relation.TransGen (Machine.Step T.blocks) c c' ∧
        c'.label = (if b then onTrue else onFalse) ∧ c'.index = 0 ∧ s.stage c ≤ s'.stage c'

variable {T L} {σ σ' : M.Stage}

namespace Realizes

theorem mono [Represents M α β] {x : EmitM α} {m : M.RunM β} (h : Realizes T L σ x m)
    (hσ : σ ≤ σ') : Realizes T L σ' x m := by
  intro s a s' hs hL hx
  obtain ⟨hcont, hrun⟩ := h hs hL hx
  exact ⟨hcont, fun c hT hat hc => hrun hT hat (hσ.trans hc)⟩

theorem pure [Represents M α β] {a : α} {b : β} (h : rel σ a b) :
    Realizes T L σ (pure a) (pure b) := by
  intro s a' s' hs hL hx
  obtain ⟨ha, rfl⟩ := Ends.pure_iff.1 hx
  cases ha
  exact ⟨.refl s', fun c _ hat hc => ⟨b, c, rfl, ⟨.refl, hat, le_rfl⟩, Represents.mono hc h⟩⟩

theorem throw [Represents M α β] (f : Fault) (m : M.RunM β) :
    Realizes T L σ (throw f : EmitM α) m := by
  intro s a s' _ _ hx
  cases (Ends.throw_iff.1 hx).1

theorem bind [Represents M α γ] [Represents M β δ] {x : EmitM α} {f : α → EmitM β} {m : M.RunM γ}
    {g : γ → M.RunM δ} (hx : Realizes T L σ x m)
    (hf : ∀ σ', σ ≤ σ' → ∀ a b, rel σ' a b → Realizes T L σ' (f a) (g b)) :
    Realizes T L σ (x >>= f) (m >>= g) := by
  intro s a s' hs hL h
  obtain ⟨a₁, s₁, h₁, h₂⟩ := Ends.bind_ok_iff.1 h
  obtain ⟨hcont, hrun⟩ := hx hs hL h₁
  have hs₁ := hs.steps hcont.steps
  have hL₁ := hcont.locals.trans hL
  -- some stage at which the result stands for something, to learn what the second part adds
  obtain ⟨σ₁, b₁, hσ₁, hrel⟩ := Represents.total (β := γ) σ a₁
  have hcont₂ := (hf σ₁ hσ₁ a₁ b₁ hrel hs₁ hL₁ h₂).1
  refine ⟨hcont.trans hcont₂, fun c hT hat hc => ?_⟩
  obtain ⟨b, c₁, hm, harr, hb⟩ := hrun (hT.of_steps hs₁ hcont₂.steps) hat hc
  obtain ⟨d, c₂, hg, harr₂, hd⟩ :=
    (hf _ (hc.trans harr.stage) a₁ b hb hs₁ hL₁ h₂).2 hT harr.there le_rfl
  exact ⟨d, c₂, (RunM.bind_eq_some hm).trans hg, harr.trans harr₂, hd⟩

theorem lift (y : Except Fault α) : Realizes T L σ (liftM y) (RunM.lift y) := by
  intro s a s' hs hL hx
  obtain ⟨ha, rfl⟩ := Ends.lift_iff.1 hx
  refine ⟨.refl s', fun c _ hat _ => ⟨a, c, ?_, ⟨.refl, hat, le_rfl⟩, rfl⟩⟩
  simp [RunM.lift, ← ha, Except.toOption]

theorem lift_bind [Represents M β δ] {y : Except Fault α} {f : α → EmitM β} {g : α → M.RunM δ}
    (hf : ∀ a, Realizes T L σ (f a) (g a)) :
    Realizes T L σ (liftM y >>= f) (RunM.lift y >>= g) := by
  refine (lift y).bind fun σ' hσ a b hab => ?_
  cases hab
  exact (hf a).mono hσ

/-! ### Single instructions -/

end Realizes

/-- A block is opened for the next instruction, and control is in it. -/
theorem openBlock_enters {s s' : Emitter} (hs : s.Drafting) (h : Ends openBlock s (.ok ()) s') :
    Continues s s' ∧ s'.Open ∧ ∀ c : M.Config, s'.Extends T → s.At T c → Arrives T s s' c c := by
  obtain ⟨-, -, ha, rfl⟩ | ⟨-, -, ha, hf, hl, rfl⟩ | ⟨e, h, -⟩ := openBlock_ends h
  · exact ⟨.refl s', hs.open_iff.2 ha, fun _ _ hat => ⟨.refl, hat, le_rfl⟩⟩
  · have hs₁ : s.takeLabel.Drafting := hs.step (.label s)
    have hopen := hs₁.open_startBlock ha hl
    refine ⟨⟨(Step.label s).steps.tail (.block s.takeLabel s.labels hf ha hl), rfl, fun _ => hopen⟩,
      hopen, fun c hT hat => ?_⟩
    obtain ⟨hlabel, hindex⟩ := hs₁.label_of_at ha hT hat.takeLabel
    exact ⟨.refl, hs₁.at_startBlock ha hl hlabel hindex, le_rfl⟩
  · cases h

/-- The instruction that is added is the one that is executed. -/
theorem Emitter.Drafting.step_push {s : Emitter} {i : Instr} {c c' : M.Config} (hs : s.Drafting)
    (hopen : s.Open) (hT : (s.push i).Extends T) (hat : s.At T c) (hexec : c.exec i = some c') :
    Machine.Step T.blocks c c' :=
  ⟨i, hs.fetch_push hopen hT hat, hexec⟩

/-- Nothing changes for control if only what stands around the function does. -/
theorem Arrives.note {s s' : Emitter} {c : M.Config} (hb : s'.builder = s.builder) (hat : s.At T c) :
    Arrives T s s' c c :=
  ⟨.refl, hat.congr hb, by simp only [Emitter.stage, Emitter.temps, hb]; exact le_rfl⟩

theorem recordType_arrives {s s' : Emitter} {ty : Ty} (h : Ends (recordType ty) s (.ok ()) s') :
    Continues s s' ∧ ∀ c : M.Config, s.At T c → Arrives T s s' c c := by
  have hsteps := Grows.recordType ty h
  obtain ⟨-, rfl⟩ := Ends.modify_iff.1 h
  exact ⟨⟨hsteps, rfl, id⟩, fun _ hat => .note rfl hat⟩

/-- An instruction that defines nothing. -/
theorem emit_arrives {s s' : Emitter} {i : Instr} (hs : s.Drafting) (hopen : s.Open)
    (hi : i.isTerminator = false) (h : Ends (build (.emit i)) s (.ok ()) s') :
    Continues s s' ∧ ∀ (c : M.Config) ω, s'.Extends T → s.At T c →
      c.exec i = some { c.next with world := ω } → ∃ c', c'.world = ω ∧ Arrives T s s' c c' := by
  obtain ⟨-, -, rfl⟩ | ⟨e, he, -⟩ := build_emit h
  swap
  · cases he
  have hstep : Step s (s.push i) := .instr s i hopen
  refine ⟨⟨hstep.steps, rfl, fun _ => hopen.push hi⟩, fun c ω hT hat hexec =>
    ⟨{ c.next with world := ω }, rfl, ?_⟩⟩
  exact ⟨.single (hs.step_push hopen hT hat hexec), hs.at_push hopen hi hat rfl rfl, le_rfl⟩

/-- An instruction defines a new temporary. -/
theorem emitTemp_arrives {s s' : Emitter} {i : TempId → Instr} {r : TempId} (hs : s.Drafting)
    (hopen : s.Open) (hi : ∀ r, (i r).isTerminator = false)
    (h : Ends (build (.emitTemp i)) s (.ok r) s') :
    Continues s s' ∧ ∀ (c : M.Config) w ω, s'.Extends T → s.At T c →
      c.exec (i r) = some { c.define r w with world := ω } →
      ∃ c', c'.world = ω ∧ Arrives T s s' c c' ∧ Denotes (s'.stage c') (.temp r) w := by
  obtain ⟨hr, -, rfl⟩ | ⟨e, he, -⟩ := build_emitTemp h
  swap
  · cases he
  cases hr
  have htemp : Step s s.takeTemp := .temp s
  have hpush : Step s.takeTemp (s.takeTemp.push (i s.temps)) := .instr s.takeTemp _ hopen
  have hs₁ := hs.step htemp
  refine ⟨⟨htemp.steps.tail hpush, rfl, fun _ => Open.push hopen (hi _)⟩,
    fun c w ω hT hat hexec => ?_⟩
  refine ⟨_, rfl, ⟨.single (hs₁.step_push hopen hT hat.takeTemp hexec),
    hs₁.at_push hopen (hi _) hat.takeTemp rfl rfl, Stage.assign _ _ _⟩, Nat.lt_succ_self _,
    assign_self _ _ _⟩

namespace Realizes

theorem instr {i : Instr} {m : M.RunM Unit} (hi : i.isTerminator = false)
    (h : ∀ (c : M.Config) n, σ ≤ ⟨n, c.regs⟩ →
      ∃ ω, m c.world = some ((), ω) ∧ c.exec i = some { c.next with world := ω }) :
    Realizes T L σ (openBlock >>= fun _ => build (.emit i)) m := by
  intro s a s' hs hL hx
  obtain ⟨_, s₁, h₁, h₂⟩ := Ends.bind_ok_iff.1 hx
  obtain ⟨hcont, hopen, hopened⟩ := openBlock_enters (T := T) hs h₁
  have hs₁ := hs.steps hcont.steps
  obtain ⟨hcont₁, hemit⟩ := emit_arrives (T := T) hs₁ hopen hi h₂
  refine ⟨hcont.trans hcont₁, fun c hT hat hc => ?_⟩
  have harr := hopened c (hT.of_steps hs₁ hcont₁.steps) hat
  obtain ⟨ω, hm, hexec⟩ := h c _ hc
  obtain ⟨c', rfl, harr₁⟩ := hemit c ω hT harr.there hexec
  exact ⟨(), c', hm, harr.trans harr₁, rfl⟩

theorem temp {i : TempId → Instr} {m : M.RunM M.Word} (hi : ∀ r, (i r).isTerminator = false)
    (h : ∀ (c : M.Config) n r, σ ≤ ⟨n, c.regs⟩ →
      ∃ w ω, m c.world = some (w, ω) ∧ c.exec (i r) = some { c.define r w with world := ω }) :
    Realizes T L σ (do openBlock; let r ← build (.emitTemp i); return Value.temp r) m := by
  intro s a s' hs hL hx
  obtain ⟨_, s₁, h₁, hx⟩ := Ends.bind_ok_iff.1 hx
  obtain ⟨r, s₂, h₂, h₃⟩ := Ends.bind_ok_iff.1 hx
  obtain ⟨ha, rfl⟩ := Ends.pure_iff.1 h₃
  cases ha
  obtain ⟨hcont, hopen, hopened⟩ := openBlock_enters (T := T) hs h₁
  have hs₁ := hs.steps hcont.steps
  obtain ⟨hcont₁, hemit⟩ := emitTemp_arrives (T := T) hs₁ hopen hi h₂
  refine ⟨hcont.trans hcont₁, fun c hT hat hc => ?_⟩
  have harr := hopened c (hT.of_steps hs₁ hcont₁.steps) hat
  obtain ⟨w, ω, hm, hexec⟩ := h c _ r hc
  obtain ⟨c', rfl, harr₁, hw⟩ := hemit c w ω hT harr.there hexec
  exact ⟨w, c', hm, harr.trans harr₁, hw⟩

variable {v v' : Value} {w w' : M.Word}

theorem load (hv : Denotes σ v w) (ty : Ty) : Realizes T L σ (Emit.load v ty) (.load w ty) :=
  temp (fun _ => rfl) fun c n r hσ => ⟨_, _, rfl, by simp [Config.exec, hv.word_of_le hσ]; rfl⟩

theorem store (hv : Denotes σ v w) (hv' : Denotes σ v' w') (ty : Ty) :
    Realizes T L σ (Emit.store v v' ty) (.store w w' ty) :=
  instr rfl fun c n hσ => ⟨_, rfl, by simp [Config.exec, hv.word_of_le hσ, hv'.word_of_le hσ]⟩

theorem arith (op : BinOp) (hv : Denotes σ v w) (hv' : Denotes σ v' w') (ty : Ty) :
    Realizes T L σ (Emit.arith op v v' ty) (.binary op w w' ty) :=
  temp (fun _ => rfl) fun c n r hσ =>
    ⟨_, _, rfl, by simp [Config.exec, hv.word_of_le hσ, hv'.word_of_le hσ]; rfl⟩

theorem compare (op : BinOp) (hv : Denotes σ v w) (hv' : Denotes σ v' w') :
    Realizes T L σ (Emit.compare op v v') (.binary op w w' .i1) :=
  temp (fun _ => rfl) fun c n r hσ =>
    ⟨_, _, rfl, by simp [Config.exec, hv.word_of_le hσ, hv'.word_of_le hσ]; rfl⟩

theorem unary (op : UnOp) (hv : Denotes σ v w) (ty : Ty) :
    Realizes T L σ (Emit.unary op v ty) (.unary op w ty) :=
  temp (fun _ => rfl) fun c n r hσ => ⟨_, _, rfl, by simp [Config.exec, hv.word_of_le hσ]; rfl⟩

theorem elementAddress (hv : Denotes σ v w) (hv' : Denotes σ v' w') (ty : Ty) :
    Realizes T L σ (Emit.elementAddress v v' ty) (.element w w' ty) := by
  simp only [Emit.elementAddress, build_offset_eq]
  exact temp (fun _ => rfl) fun c n r hσ =>
    ⟨_, _, rfl, by simp [Config.exec, words, hv.word_of_le hσ, hv'.word_of_le hσ]; rfl⟩

theorem memberAddress (hv : Denotes σ v w) (index : Nat) (ty : Ty) :
    Realizes T L σ (Emit.memberAddress v index ty) (.member w index ty) := by
  simp only [Emit.memberAddress, build_offset_eq]
  exact temp (fun _ => rfl) fun c n r hσ =>
    ⟨_, _, rfl, by simp [Config.exec, words, word, hv.word_of_le hσ]; rfl⟩

/-- The result of a call is what the machine is told. -/
theorem call {vs : List Value} {ws : List M.Word} (hv : Denotes σ v w) (hvs : DenoteAll σ vs ws)
    (ty : Ty) : Realizes T L σ (Emit.call v vs ty) (.call w ws ty) := by
  unfold Emit.call BuilderM.call
  split
  · rename_i hty
    have hcall : RunM.call w ws ty = ((fun ω => some ((), (ω.call w ws ty).2)) : M.RunM Unit) >>=
        fun _ => Pure.pure M.undef := by
      funext ω
      simp [RunM.call, hty]
      rfl
    rw [hcall]
    simp only [build_bind, bind_assoc]
    rw [← bind_assoc]
    refine bind (instr rfl fun c n hσ => ⟨_, rfl, ?_⟩) fun σ' hσ _ _ _ => pure ⟨trivial, rfl⟩
    simp [Config.exec, hv.word_of_le hσ, hvs.words_of_le hσ]
  · rename_i hty
    have htemp : Realizes T L σ (do
        openBlock
        let r ← build (.emitTemp fun r => .call (some r) v vs ty)
        return Value.temp r) (.call w ws ty) :=
      temp (fun _ => rfl) fun c n r hσ =>
        ⟨(c.world.call w ws ty).1, (c.world.call w ws ty).2, by simp [RunM.call, hty],
          by simp [Config.exec, hv.word_of_le hσ, hvs.words_of_le hσ]⟩
    have hsome := bind (f := fun v => Pure.pure (some v)) htemp fun σ' _ v w hv =>
      pure (a := some v) (b := w) hv
    simpa only [build_map, bind_assoc, pure_bind, bind_pure, Option.map_some] using hsome

/-! ### Storage and names -/

theorem temporary (ty : Ty) : Realizes T L σ (Emit.temporary ty) (.alloca ty) := by
  intro s a s' hs hL hx
  obtain ⟨_, s₁, h₁, hx⟩ := Ends.bind_ok_iff.1 hx
  obtain ⟨_, s₂, h₂, hx⟩ := Ends.bind_ok_iff.1 hx
  rw [build_alloca_eq] at hx
  obtain ⟨r, s₃, h₃, hx⟩ := Ends.bind_ok_iff.1 hx
  obtain ⟨ha, rfl⟩ := Ends.pure_iff.1 hx
  cases ha
  obtain ⟨hcont₁, hopen, hopened⟩ := openBlock_enters (T := T) hs h₁
  have hs₁ := hs.steps hcont₁.steps
  obtain ⟨hcont₂, hnoted⟩ := recordType_arrives (T := T) h₂
  have hs₂ := hs₁.steps hcont₂.steps
  obtain ⟨hcont₃, hemit⟩ := emitTemp_arrives (T := T) hs₂ (hcont₂.opened hopen) (fun _ => rfl) h₃
  refine ⟨(hcont₁.trans hcont₂).trans hcont₃, fun c hT hat hc => ?_⟩
  have hT₂ := hT.of_steps hs₂ hcont₃.steps
  have harr := hopened c (hT₂.of_steps hs₁ hcont₂.steps) hat
  have harr₂ := harr.trans (hnoted c harr.there)
  obtain ⟨c', hω, harr₃, hw⟩ := hemit c _ _ hT harr₂.there rfl
  refine ⟨_, c', ?_, harr₂.trans harr₃, hw⟩
  rw [hω]
  rfl

end Realizes

/-- The slots that the evaluator is given are those of the generated code. -/
def Sees (σ : M.Stage) (L : List (SymbolId × Value)) (env : M.Env) : Prop :=
  ∀ symbol slot, L.lookup symbol = some slot → ∃ w, env symbol = some w ∧ Denotes σ slot w

theorem Sees.mono {env : M.Env} (h : Sees σ L env) (hσ : σ ≤ σ') : Sees σ' L env := by
  intro symbol slot hslot
  obtain ⟨w, henv, hw⟩ := h symbol slot hslot
  exact ⟨w, henv, hw.mono hσ⟩

namespace Realizes

theorem symbolAddress {env : M.Env} (henv : Sees σ L env) (symbol : SymbolId) (name : String)
    (storage : Storage) :
    Realizes T L σ (Emit.symbolAddress symbol name storage)
      (Eval.symbolAddress env symbol name storage) := by
  cases storage with
  | global => exact pure ⟨trivial, rfl⟩
  | function => exact pure ⟨trivial, rfl⟩
  | automatic =>
    intro s a s' hs hL hx
    rw [Emit.symbolAddress, Ends.get_bind_iff] at hx
    split at hx
    · rename_i slot hslot
      obtain ⟨ha, rfl⟩ := Ends.pure_iff.1 hx
      cases ha
      obtain ⟨w, hw, hd⟩ := henv symbol a (hL ▸ hslot)
      refine ⟨.refl s', fun c _ hat hc => ⟨w, c, ?_, ⟨.refl, hat, le_rfl⟩, hd.mono hc⟩⟩
      simp [Eval.symbolAddress, hw]
    · cases (Ends.throw_iff.1 hx).1

theorem stringLiteral (text : String) :
    Realizes T L σ (Emit.stringLiteral text) (return M.text text) := by
  intro s a s' hs hL hx
  have hsteps := Grows.stringLiteral text hx
  unfold Emit.stringLiteral at hx
  rw [Ends.get_bind_iff, Ends.bind_ok_iff] at hx
  obtain ⟨_, _, h₁, h₂⟩ := hx
  obtain ⟨-, rfl⟩ := Ends.set_iff.1 h₁
  obtain ⟨ha, rfl⟩ := Ends.pure_iff.1 h₂
  cases ha
  refine ⟨⟨hsteps, rfl, id⟩, fun c hT hat hc => ⟨_, c, rfl, ⟨.refl, hat.congr rfl, le_rfl⟩, trivial, ?_⟩⟩
  refine T.texts _ text (hT.globals.subset ?_)
  simp [Module.addGlobal, textGlobal]

end Realizes

end TypedCore
