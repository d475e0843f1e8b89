import TypedCore.Proofs.Emitter.Function
import TypedCore.Proofs.Machine.Statements

/-!
# Code that does what a statement does

`Follows T s s' c m`: from `c`, at the end of the code of `s`, the code up to `s'` has the effects `m`,
and no others. It comes to the end of the code of `s'`, or to a return, whenever `m` says so; and if a
run from `c` comes to a return at all, it does so inside this code, or it comes out of it first. A loop
that does not end is one whose code does not. `Carries T L σ x m` says that what `x` emits follows `m`.
-/

namespace TypedCore

open Ir Machine Emit Emitter Lowering

variable {M : Machine} {T : M.Target} {L : List (SymbolId × Value)} {σ σ' : M.Stage}

/-- Code has been added. -/
structure Added (s s' : Emitter) : Prop where
  steps : Steps s s'
  locals : s'.locals = s.locals

theorem Added.trans {s s₁ s' : Emitter} (h : Added s s₁) (h₁ : Added s₁ s') : Added s s' :=
  ⟨h.steps.trans h₁.steps, h₁.locals.trans h.locals⟩

theorem Leaves.added {s s' : Emitter} (h : Leaves s s') : Added s s' := ⟨h.steps, h.locals⟩

/-- Control gets from `c` to the end of the code of `s'` or, if it returns, to the end of the
function. -/
def Reaches (T : M.Target) (s s' : Emitter) (c : M.Config) : Flow → M.World → Prop
  | .normal, ω' => s'.Open ∧ ∃ c', Arrives T s s' c c' ∧ c'.world = ω'
  | .returned, ω' => ∃ c', Runs T.blocks c c' ∧ Returns T.blocks c' ∧ c'.world = ω'

theorem Reaches.head {s s₁ s' : Emitter} {c c₁ : M.Config} {k : Flow} {ω' : M.World}
    (hruns : Runs T.blocks c c₁) (hst : s.stage c ≤ s₁.stage c₁) (h : Reaches T s₁ s' c₁ k ω') :
    Reaches T s s' c k ω' := by
  cases k with
  | normal =>
    obtain ⟨ho, c', harr, hω⟩ := h
    exact ⟨ho, c', ⟨hruns.trans harr.runs, harr.there, hst.trans harr.stage⟩, hω⟩
  | returned =>
    obtain ⟨c', hruns', hret, hω⟩ := h
    exact ⟨c', hruns.trans hruns', hret, hω⟩

structure Follows (T : M.Target) (s s' : Emitter) (c : M.Config) (m : Flow → M.World → Prop) :
    Prop where
  reaches : ∀ {k ω'}, m k ω' → Reaches T s s' c k ω'
  halts : ∀ {n c'}, Halts T.blocks n c c' → m .returned c'.world ∨
    s'.Open ∧ ∃ c₁, m .normal c₁.world ∧ Arrives T s s' c c₁ ∧ ∃ n₁ ≤ n, Halts T.blocks n₁ c₁ c'

namespace Follows

variable {s s₁ s' : Emitter} {c c₁ c' : M.Config} {m : Flow → M.World → Prop}

theorem arrive (ho : s'.Open) (harr : Arrives T s s' c c')
    (hm : ∀ k ω', m k ω' ↔ k = .normal ∧ ω' = c'.world) : Follows T s s' c m := by
  refine ⟨fun h => ?_, fun h => ?_⟩
  · obtain ⟨rfl, rfl⟩ := (hm _ _).1 h
    exact ⟨ho, c', harr, rfl⟩
  · obtain ⟨n₁, hn, h₁⟩ := h.after_runs harr.runs
    exact .inr ⟨ho, c', (hm _ _).2 ⟨rfl, rfl⟩, harr, n₁, hn, h₁⟩

theorem leave (hruns : Runs T.blocks c c') (hret : Returns T.blocks c')
    (hm : ∀ k ω', m k ω' ↔ k = .returned ∧ ω' = c'.world) : Follows T s s' c m := by
  refine ⟨fun h => ?_, fun h => ?_⟩
  · obtain ⟨rfl, rfl⟩ := (hm _ _).1 h
    exact ⟨c', hruns, hret, rfl⟩
  · obtain ⟨_, -, h₁⟩ := h.after_runs hruns
    cases h₁ with
    | here => exact .inl ((hm _ _).2 ⟨rfl, rfl⟩)
    | step hstep _ => exact absurd hstep hret.not_step

theorem head (h : Follows T s₁ s' c₁ m) (hruns : Runs T.blocks c c₁)
    (hst : s.stage c ≤ s₁.stage c₁) : Follows T s s' c m := by
  refine ⟨fun hm => (h.reaches hm).head hruns hst, fun hn => ?_⟩
  obtain ⟨n₁, hle, hn₁⟩ := hn.after_runs hruns
  obtain hret | ⟨ho, c₂, hm, harr, n₂, hle₂, hn₂⟩ := h.halts hn₁
  · exact .inl hret
  · exact .inr ⟨ho, c₂, hm, ⟨hruns.trans harr.runs, harr.there, hst.trans harr.stage⟩, n₂,
      Nat.le_trans hle₂ hle, hn₂⟩

/-- Code that has no effect of its own comes after. -/
theorem tail (h : Follows T s s₁ c m) (ho : s'.Open)
    (hnext : ∀ c₁, s₁.Open → Arrives T s s₁ c c₁ →
      ∃ c₂, Runs T.blocks c₁ c₂ ∧ Arrives T s s' c c₂ ∧ c₂.world = c₁.world) : Follows T s s' c m := by
  refine ⟨fun {k ω'} hm => ?_, fun hn => ?_⟩
  · have hreach := h.reaches hm
    cases k with
    | normal =>
      obtain ⟨ho₁, c₁, harr, rfl⟩ := hreach
      obtain ⟨c₂, -, harr₂, hω⟩ := hnext c₁ ho₁ harr
      exact ⟨ho, c₂, harr₂, hω⟩
    | returned => exact hreach
  · obtain hret | ⟨ho₁, c₁, hm, harr, n₁, hle, hn₁⟩ := h.halts hn
    · exact .inl hret
    · obtain ⟨c₂, hruns, harr₂, hω⟩ := hnext c₁ ho₁ harr
      obtain ⟨n₂, hle₂, hn₂⟩ := hn₁.after_runs hruns
      exact .inr ⟨ho, c₂, hω ▸ hm, harr₂, n₂, Nat.le_trans hle₂ hle, hn₂⟩

theorem seq {a b : M.Effect} (h : Follows T s s₁ c (a c.world))
    (hb : ∀ c₁, s₁.Open → Arrives T s s₁ c c₁ → Follows T s₁ s' c₁ (b c₁.world)) :
    Follows T s s' c (Effect.seq a b c.world) := by
  refine ⟨?_, fun hn => ?_⟩
  · rintro k ω' (⟨ω₁, ha, hm⟩ | ⟨rfl, ha⟩)
    · obtain ⟨ho₁, c₁, harr, rfl⟩ := h.reaches ha
      exact ((hb c₁ ho₁ harr).reaches hm).head harr.runs harr.stage
    · exact h.reaches ha
  · obtain hret | ⟨ho₁, c₁, ha, harr, n₁, hle, hn₁⟩ := h.halts hn
    · exact .inl (.inr ⟨rfl, hret⟩)
    · obtain hret | ⟨ho, c₂, hm, harr₂, n₂, hle₂, hn₂⟩ := (hb c₁ ho₁ harr).halts hn₁
      · exact .inl (.inl ⟨_, ha, hret⟩)
      · exact .inr ⟨ho, c₂, .inl ⟨_, ha, hm⟩, harr.trans harr₂, n₂, Nat.le_trans hle₂ hle, hn₂⟩

/-- A loop whose every pass begins at the end of the code of `s`. -/
theorem repeats {m : M.RunM Bool} {a : M.Effect} (ho : s'.Open) (htemps : s.temps ≤ s'.temps)
    (hpass : ∀ c, s.At T c → σ ≤ s.stage c → ∃ b c₁, m c.world = some (b, c₁.world) ∧
      Relation.TransGen (Machine.Step T.blocks) c c₁ ∧ s.stage c ≤ s.stage c₁ ∧
      (b = false → s'.At T c₁) ∧ (b = true → Follows T s s c₁ (a c₁.world)))
    (hat : s.At T c) (hc : σ ≤ s.stage c) : Follows T s s' c (Effect.Repeats m a c.world) := by
  refine ⟨fun {k ω'} h => ?_, fun {n c'} h => ?_⟩
  · generalize hω : c.world = ω at h
    induction h generalizing c with
    | done h =>
      obtain ⟨b, c₁, hm, hruns, hst, hdone, -⟩ := hpass c hat hc
      rw [hω, h] at hm
      cases hm
      exact ⟨ho, c₁, ⟨hruns.to_reflTransGen, hdone rfl, Stage.widen hst htemps⟩, rfl⟩
    | again h ha _ ih =>
      obtain ⟨b, c₁, hm, hruns, hst, -, hbody⟩ := hpass c hat hc
      rw [hω, h] at hm
      cases hm
      obtain ⟨-, c₂, harr, hω₂⟩ := (hbody rfl).reaches ha
      have hst₂ := hst.trans harr.stage
      exact (ih harr.there (hc.trans hst₂) hω₂).head (hruns.to_reflTransGen.trans harr.runs) hst₂
    | left h ha =>
      obtain ⟨b, c₁, hm, hruns, hst, -, hbody⟩ := hpass c hat hc
      rw [hω, h] at hm
      cases hm
      exact ((hbody rfl).reaches ha).head hruns.to_reflTransGen hst
  · -- every pass takes at least one instruction
    induction n using Nat.strongRecOn generalizing c with
    | _ n ih =>
      obtain ⟨b, c₁, hm, hruns, hst, hdone, hbody⟩ := hpass c hat hc
      obtain ⟨n₁, hlt, h₁⟩ := h.after_transGen hruns
      cases b with
      | false =>
        exact .inr ⟨ho, c₁, .done hm, ⟨hruns.to_reflTransGen, hdone rfl, Stage.widen hst htemps⟩, n₁,
          Nat.le_of_lt hlt, h₁⟩
      | true =>
        obtain hret | ⟨-, c₂, ha, harr, n₂, hle₂, h₂⟩ := (hbody rfl).halts h₁
        · exact .inl (.left hm hret)
        have hst₂ := hst.trans harr.stage
        have hlt₂ := Nat.lt_of_le_of_lt hle₂ hlt
        obtain hret | ⟨-, c₃, hrest, harr₃, n₃, hle₃, h₃⟩ :=
          ih n₂ hlt₂ harr.there (hc.trans hst₂) h₂
        · exact .inl (.again hm ha hret)
        · exact .inr ⟨ho, c₃, .again hm ha hrest,
            ⟨(hruns.to_reflTransGen.trans harr.runs).trans harr₃.runs, harr₃.there,
              hst₂.trans harr₃.stage⟩, n₃, Nat.le_trans hle₃ (Nat.le_of_lt hlt₂), h₃⟩

end Follows

theorem Machine.Effect.after_iff {α : Type} {m : M.RunM α} {flow k : Flow} {ω ω₁ ω' : M.World} {a : α}
    (h : m ω = some (a, ω₁)) : Effect.after m flow ω k ω' ↔ k = flow ∧ ω' = ω₁ := by
  refine and_congr_right fun _ => ⟨?_, ?_⟩
  · rintro ⟨a', h'⟩
    cases h.symm.trans h'
    rfl
  · rintro rfl
    exact ⟨a, h⟩

theorem Machine.Effect.branch_eq {m : M.RunM Bool} {a b : M.Effect} {ω ω₁ : M.World} {d : Bool}
    (h : m ω = some (d, ω₁)) : Effect.branch m a b ω = (if d then a else b) ω₁ := by
  funext k ω'
  refine propext ⟨?_, fun h' => ⟨d, ω₁, h, h'⟩⟩
  rintro ⟨d', ω₂, h', hm⟩
  cases h.symm.trans h'
  exact hm

/-! ### Labels -/

/-- The block of a label begins, and control falls into it from an open block. -/
theorem defineLabel_opens {s s' : Emitter} {l : LabelId} (hs : s.Drafting)
    (h : Ends (defineLabel l) s (.ok ()) s') :
    Added s s' ∧ s'.Open ∧ (∀ c : M.Config, c.label = l → c.index = 0 → s'.At T c) ∧
      (s.Open → ∀ c : M.Config, s'.Extends T → s.At T c → Arrives T s s' c (c.goto l)) := by
  have hsteps := Grows.defineLabel l h
  obtain ⟨-, ho, hf, hl, rfl⟩ | ⟨-, ha, hf, hl, rfl⟩ | ⟨e, h, -⟩ := defineLabel_ends h
  · have hstep : Step s (s.push (.branch l)) := .instr s _ ho
    have hs₁ := hs.step hstep
    have ha : (s.push (.branch l)).acceptsInstr = false := ho.push_terminator rfl
    have hblock : Step (s.push (.branch l)) ((s.push (.branch l)).startBlock l) :=
      .block _ l (by simpa [Emitter.push] using hf) ha hl
    refine ⟨⟨hsteps, rfl⟩, hs₁.open_startBlock ha hl, fun c hc hi => hs₁.at_startBlock ha hl hc hi,
      fun _ c hT hat => ⟨?_, hs₁.at_startBlock ha hl rfl rfl, le_rfl⟩⟩
    exact .single (hs.step_push ho (hT.of_steps hs₁ hblock.steps) hat rfl)
  · refine ⟨⟨hsteps, rfl⟩, hs.open_startBlock ha hl, fun c hc hi => hs.at_startBlock ha hl hc hi,
      fun ho => ?_⟩
    rw [ho.acceptsInstr] at ha
    cases ha
  · cases h

/-- Control leaves an open block, and a closed one it has left before. -/
theorem jumpIfOpen_leaves {s s' : Emitter} {l : LabelId} (hs : s.Drafting)
    (h : Ends (jumpIfOpen l) s (.ok ()) s') :
    Leaves s s' ∧ (s.Open → ∀ c : M.Config, s'.Extends T → s.At T c →
      Machine.Step T.blocks c (c.goto l)) := by
  obtain ⟨head, hhead⟩ := Option.isSome_iff_exists.1 hs.head
  have hopen : s.isBlockOpen = s.acceptsInstr := by simp [isBlockOpen, state, hhead]
  rw [jumpIfOpen, Ends.get_bind_iff, hopen] at h
  split at h
  · rename_i ha
    obtain ⟨hleaves, -, hjump⟩ := jump_leaves (T := T) hs (hs.open_iff.2 ha) h
    exact ⟨hleaves, fun _ => hjump⟩
  · rename_i ha
    obtain ⟨-, rfl⟩ := Ends.pure_iff.1 h
    exact ⟨⟨.refl, rfl, by simpa using ha⟩, fun ho => absurd ho.acceptsInstr ha⟩

/-! ### Statements -/

def Carries (T : M.Target) (L : List (SymbolId × Value)) (σ : M.Stage) (x : EmitM Unit)
    (m : M.Effect) : Prop :=
  ∀ ⦃s s'⦄, s.Drafting → s.locals = L → Ends x s (.ok ()) s' → Added s s' ∧
    (s.Open → ∀ ⦃c⦄, s'.Extends T → s.At T c → σ ≤ s.stage c → Follows T s s' c (m c.world))

namespace Carries

theorem skip : Carries T L σ (pure ()) Effect.skip := by
  intro s s' _ _ h
  obtain ⟨-, rfl⟩ := Ends.pure_iff.1 h
  exact ⟨⟨.refl, rfl⟩, fun ho c _ hat _ =>
    .arrive ho ⟨.refl, hat, le_rfl⟩ fun _ _ => Effect.after_iff rfl⟩

theorem seq {x y : EmitM Unit} {a b : M.Effect} (hx : Carries T L σ x a) (hy : Carries T L σ y b) :
    Carries T L σ (x >>= fun _ => y) (Effect.seq a b) := by
  intro s s' hs hL h
  obtain ⟨_, s₁, h₁, h₂⟩ := Ends.bind_ok_iff.1 h
  obtain ⟨hadd, hrun⟩ := hx hs hL h₁
  have hs₁ := hs.steps hadd.steps
  obtain ⟨hadd₁, hrun₁⟩ := hy hs₁ (hadd.locals.trans hL) h₂
  refine ⟨hadd.trans hadd₁, fun ho c hT hat hc => ?_⟩
  exact (hrun ho (hT.of_steps hs₁ hadd₁.steps) hat hc).seq fun c₁ ho₁ harr =>
    hrun₁ ho₁ hT harr.there (hc.trans harr.stage)

/-- An expression is evaluated for its effects. -/
theorem value {x : EmitM Value} {m : M.RunM M.Word} (hx : Realizes T L σ x m) :
    Carries T L σ (x >>= fun _ => pure ()) (Effect.after m .normal) := by
  intro s s' hs hL h
  obtain ⟨v, s₁, h₁, h₂⟩ := Ends.bind_ok_iff.1 h
  obtain ⟨-, rfl⟩ := Ends.pure_iff.1 h₂
  obtain ⟨hcont, hrun⟩ := hx hs hL h₁
  refine ⟨⟨hcont.steps, hcont.locals⟩, fun ho c hT hat hc => ?_⟩
  obtain ⟨w, c', hm, harr, -⟩ := hrun hT hat hc
  exact .arrive (hcont.opened ho) harr fun _ _ => Effect.after_iff hm

/-- A return after an evaluation. -/
theorem ret {α β : Type} [Represents M α β] {x : EmitM α} {m : M.RunM β} (hx : Realizes T L σ x m)
    (f : α → Option Value) :
    Carries T L σ (x >>= fun a => Emit.ret (f a)) (Effect.after m .returned) := by
  intro s s' hs hL h
  obtain ⟨a, s₁, h₁, h₂⟩ := Ends.bind_ok_iff.1 h
  obtain ⟨hcont, hrun⟩ := hx hs hL h₁
  have hs₁ := hs.steps hcont.steps
  obtain ⟨_, s₂, h₂, h₃⟩ := Ends.bind_ok_iff.1 h₂
  obtain ⟨hcont₂, hopen₂, hopened⟩ := openBlock_enters (T := T) hs₁ h₂
  have hs₂ := hs₁.steps hcont₂.steps
  obtain ⟨-, -, rfl⟩ | ⟨e, he, -⟩ := build_emit h₃
  swap
  · cases he
  have hpush : Step s₂ (s₂.push (.ret (f a))) := .instr s₂ _ hopen₂
  refine ⟨⟨(hcont.steps.trans hcont₂.steps).tail hpush, hcont₂.locals.trans hcont.locals⟩,
    fun ho c hT hat hc => ?_⟩
  have hT₂ := hT.of_steps hs₂ hpush.steps
  obtain ⟨b, c₁, hm, harr, -⟩ := hrun (hT₂.of_steps hs₁ hcont₂.steps) hat hc
  have harr₂ := hopened c₁ hT₂ harr.there
  exact .leave (harr.runs.trans harr₂.runs) ⟨_, hs₂.fetch_push hopen₂ hT harr₂.there⟩
    fun _ _ => Effect.after_iff hm

section Branching

variable {t : TypeTable} {cond : Expr} {m : M.RunM Bool}

theorem ifThen {body : EmitM Unit} {a : M.Effect}
    (hcond : ∀ l l', Branches T L σ (branchOn t cond l l') m l l') (hbody : Carries T L σ body a) :
    Carries T L σ (ifStatement t cond body) (Effect.branch m a Effect.skip) := by
  intro s s' hs hL h
  obtain ⟨onTrue, _, h₁, h⟩ := Ends.bind_ok_iff.1 h
  obtain ⟨done, _, h₂, h⟩ := Ends.bind_ok_iff.1 h
  obtain ⟨_, s₁, h₃, h⟩ := Ends.bind_ok_iff.1 h
  obtain ⟨_, s₂, h₄, h⟩ := Ends.bind_ok_iff.1 h
  obtain ⟨_, s₃, h₅, h₆⟩ := Ends.bind_ok_iff.1 h
  obtain ⟨-, rfl⟩ := createLabel_iff.1 h₁
  obtain ⟨-, rfl⟩ := createLabel_iff.1 h₂
  have hlabels : Added s s.takeLabel.takeLabel := ⟨(Step.label s).steps.tail (.label _), rfl⟩
  have hs₀ := hs.steps hlabels.steps
  obtain ⟨hleave, hrun⟩ := hcond onTrue done hs₀ hL h₃
  have hs₁ := hs₀.steps hleave.steps
  obtain ⟨hadd₂, hopen₂, hat₂, -⟩ := defineLabel_opens (T := T) hs₁ h₄
  have hs₂ := hs₁.steps hadd₂.steps
  have hL₂ : s₂.locals = L := (hadd₂.locals.trans hleave.locals).trans hL
  obtain ⟨hadd₃, hrun₃⟩ := hbody hs₂ hL₂ h₅
  have hs₃ := hs₂.steps hadd₃.steps
  obtain ⟨hadd₄, hopen₄, hat₄, hfall₄⟩ := defineLabel_opens (T := T) hs₃ h₆
  refine ⟨(((hlabels.trans hleave.added).trans hadd₂).trans hadd₃).trans hadd₄,
    fun _ c hT hat hc => ?_⟩
  have hT₃ := hT.of_steps hs₃ hadd₄.steps
  have hT₁ := (hT₃.of_steps hs₂ hadd₃.steps).of_steps hs₁ hadd₂.steps
  obtain ⟨b, c₁, hm, hruns, hl₁, hi₁, hst⟩ := hrun hT₁ hat.takeLabel.takeLabel hc
  have hst₂ : s.stage c ≤ s₂.stage c₁ := Stage.widen hst hadd₂.steps.temps
  rw [Effect.branch_eq hm]
  cases b with
  | true =>
    have hfollows := hrun₃ hopen₂ hT₃ (hat₂ c₁ hl₁ hi₁) (hc.trans hst₂)
    refine (hfollows.tail hopen₄ fun c₂ ho₃ harr => ?_).head hruns.to_reflTransGen hst₂
    have harr₄ := hfall₄ ho₃ c₂ hT harr.there
    exact ⟨_, harr₄.runs, harr.trans harr₄, rfl⟩
  | false =>
    have hst₄ := Stage.widen hst₂ (Steps.temps (hadd₃.steps.trans hadd₄.steps))
    exact .arrive hopen₄ ⟨hruns.to_reflTransGen, hat₄ c₁ hl₁ hi₁, hst₄⟩ fun _ _ =>
      Effect.after_iff rfl

theorem ifElse {thenBody elseBody : EmitM Unit} {a b : M.Effect}
    (hcond : ∀ l l', Branches T L σ (branchOn t cond l l') m l l')
    (hthen : Carries T L σ thenBody a) (helse : Carries T L σ elseBody b) :
    Carries T L σ (ifElseStatement t cond thenBody elseBody) (Effect.branch m a b) := by
  intro s s' hs hL h
  obtain ⟨onTrue, _, h₁, h⟩ := Ends.bind_ok_iff.1 h
  obtain ⟨onFalse, _, h₂, h⟩ := Ends.bind_ok_iff.1 h
  obtain ⟨done, _, h₃, h⟩ := Ends.bind_ok_iff.1 h
  obtain ⟨_, s₁, h₄, h⟩ := Ends.bind_ok_iff.1 h
  obtain ⟨_, s₂, h₅, h⟩ := Ends.bind_ok_iff.1 h
  obtain ⟨_, s₃, h₆, h⟩ := Ends.bind_ok_iff.1 h
  obtain ⟨_, s₄, h₇, h⟩ := Ends.bind_ok_iff.1 h
  obtain ⟨_, s₅, h₈, h⟩ := Ends.bind_ok_iff.1 h
  obtain ⟨_, s₆, h₉, h₁₀⟩ := Ends.bind_ok_iff.1 h
  obtain ⟨-, rfl⟩ := createLabel_iff.1 h₁
  obtain ⟨-, rfl⟩ := createLabel_iff.1 h₂
  obtain ⟨-, rfl⟩ := createLabel_iff.1 h₃
  have hlabels : Added s s.takeLabel.takeLabel.takeLabel :=
    ⟨((Step.label s).steps.tail (.label _)).tail (.label _), rfl⟩
  have hs₀ := hs.steps hlabels.steps
  obtain ⟨hleave, hrun⟩ := hcond onTrue onFalse hs₀ hL h₄
  have hs₁ := hs₀.steps hleave.steps
  obtain ⟨hadd₂, hopen₂, hat₂, -⟩ := defineLabel_opens (T := T) hs₁ h₅
  have hs₂ := hs₁.steps hadd₂.steps
  have hL₂ : s₂.locals = L := (hadd₂.locals.trans hleave.locals).trans hL
  obtain ⟨hadd₃, hrun₃⟩ := hthen hs₂ hL₂ h₆
  have hs₃ := hs₂.steps hadd₃.steps
  obtain ⟨hleave₄, hjump₄⟩ := jumpIfOpen_leaves (T := T) hs₃ h₇
  have hs₄ := hs₃.steps hleave₄.steps
  obtain ⟨hadd₅, hopen₅, hat₅, -⟩ := defineLabel_opens (T := T) hs₄ h₈
  have hs₅ := hs₄.steps hadd₅.steps
  have hmiddle : Added s₂ s₅ := (hadd₃.trans hleave₄.added).trans hadd₅
  obtain ⟨hadd₆, hrun₆⟩ := helse hs₅ (hmiddle.locals.trans hL₂) h₉
  have hs₆ := hs₅.steps hadd₆.steps
  obtain ⟨hadd₇, hopen₇, hat₇, hfall₇⟩ := defineLabel_opens (T := T) hs₆ h₁₀
  refine ⟨((((hlabels.trans hleave.added).trans hadd₂).trans hmiddle).trans hadd₆).trans hadd₇,
    fun _ c hT hat hc => ?_⟩
  have hT₆ := hT.of_steps hs₆ hadd₇.steps
  have hT₄ := (hT₆.of_steps hs₅ hadd₆.steps).of_steps hs₄ hadd₅.steps
  have hT₃ := hT₄.of_steps hs₃ hleave₄.steps
  have hT₁ := (hT₃.of_steps hs₂ hadd₃.steps).of_steps hs₁ hadd₂.steps
  obtain ⟨d, c₁, hm, hruns, hl₁, hi₁, hst⟩ := hrun hT₁ hat.takeLabel.takeLabel.takeLabel hc
  have hst₂ : s.stage c ≤ s₂.stage c₁ := Stage.widen hst hadd₂.steps.temps
  rw [Effect.branch_eq hm]
  cases d with
  | true =>
    have hfollows := hrun₃ hopen₂ hT₃ (hat₂ c₁ hl₁ hi₁) (hc.trans hst₂)
    refine (hfollows.tail hopen₇ fun c₂ ho₃ harr => ?_).head hruns.to_reflTransGen hst₂
    have hstep := hjump₄ ho₃ c₂ hT₄ harr.there
    have htemps : s₃.temps ≤ s'.temps :=
      Steps.temps (((hleave₄.steps.trans hadd₅.steps).trans hadd₆.steps).trans hadd₇.steps)
    exact ⟨_, .single hstep, ⟨harr.runs.tail hstep, hat₇ _ rfl rfl, Stage.widen harr.stage htemps⟩,
      rfl⟩
  | false =>
    have hst₅ : s.stage c ≤ s₅.stage c₁ := Stage.widen hst₂ hmiddle.steps.temps
    have hfollows := hrun₆ hopen₅ hT₆ (hat₅ c₁ hl₁ hi₁) (hc.trans hst₅)
    refine (hfollows.tail hopen₇ fun c₂ ho₆ harr => ?_).head hruns.to_reflTransGen hst₅
    have harr₇ := hfall₇ ho₆ c₂ hT harr.there
    exact ⟨_, harr₇.runs, harr.trans harr₇, rfl⟩

theorem loop {body : EmitM Unit} {a : M.Effect}
    (hcond : ∀ l l', Branches T L σ (branchOn t cond l l') m l l') (hbody : Carries T L σ body a) :
    Carries T L σ (whileStatement t cond body) (Effect.Repeats m a) := by
  intro s s' hs hL h
  obtain ⟨check, _, h₁, h⟩ := Ends.bind_ok_iff.1 h
  obtain ⟨again, _, h₂, h⟩ := Ends.bind_ok_iff.1 h
  obtain ⟨done, _, h₃, h⟩ := Ends.bind_ok_iff.1 h
  obtain ⟨_, s₁, h₄, h⟩ := Ends.bind_ok_iff.1 h
  obtain ⟨_, s₂, h₅, h⟩ := Ends.bind_ok_iff.1 h
  obtain ⟨_, s₃, h₆, h⟩ := Ends.bind_ok_iff.1 h
  obtain ⟨_, s₄, h₇, h⟩ := Ends.bind_ok_iff.1 h
  obtain ⟨_, s₅, h₈, h₉⟩ := Ends.bind_ok_iff.1 h
  obtain ⟨-, rfl⟩ := createLabel_iff.1 h₁
  obtain ⟨-, rfl⟩ := createLabel_iff.1 h₂
  obtain ⟨-, rfl⟩ := createLabel_iff.1 h₃
  have hlabels : Added s s.takeLabel.takeLabel.takeLabel :=
    ⟨((Step.label s).steps.tail (.label _)).tail (.label _), rfl⟩
  have hs₀ := hs.steps hlabels.steps
  obtain ⟨hadd₁, hopen₁, hat₁, hfall₁⟩ := defineLabel_opens (T := T) hs₀ h₄
  have hs₁ := hs₀.steps hadd₁.steps
  have hL₁ : s₁.locals = L := hadd₁.locals.trans hL
  obtain ⟨hleave, hrun⟩ := hcond again done hs₁ hL₁ h₅
  have hs₂ := hs₁.steps hleave.steps
  obtain ⟨hadd₃, hopen₃, hat₃, -⟩ := defineLabel_opens (T := T) hs₂ h₆
  have hs₃ := hs₂.steps hadd₃.steps
  obtain ⟨hadd₄, hrun₄⟩ := hbody hs₃ ((hadd₃.locals.trans hleave.locals).trans hL₁) h₇
  have hs₄ := hs₃.steps hadd₄.steps
  obtain ⟨hleave₅, hjump₅⟩ := jumpIfOpen_leaves (T := T) hs₄ h₈
  have hs₅ := hs₄.steps hleave₅.steps
  obtain ⟨hadd₆, hopen₆, hat₆, -⟩ := defineLabel_opens (T := T) hs₅ h₉
  have hrest : Added s₁ s' :=
    (((hleave.added.trans hadd₃).trans hadd₄).trans hleave₅.added).trans hadd₆
  refine ⟨(hlabels.trans hadd₁).trans hrest, fun ho c hT hat hc => ?_⟩
  have hT₅ := hT.of_steps hs₅ hadd₆.steps
  have hT₄ := hT₅.of_steps hs₄ hleave₅.steps
  have hT₂ := (hT₄.of_steps hs₃ hadd₄.steps).of_steps hs₂ hadd₃.steps
  have harr₁ := hfall₁ ho c (hT₂.of_steps hs₁ hleave.steps) hat.takeLabel.takeLabel.takeLabel
  refine Follows.head ?_ harr₁.runs harr₁.stage
  refine Follows.repeats (σ := σ) hopen₆ hrest.steps.temps (fun c hat hc => ?_) harr₁.there
    (hc.trans harr₁.stage)
  obtain ⟨d, c₁, hm, hruns, hl₁, hi₁, hst⟩ := hrun hT₂ hat hc
  refine ⟨d, c₁, hm, hruns, ⟨Nat.le_refl _, hst.2⟩, ?_, ?_⟩
  · rintro rfl
    exact hat₆ c₁ hl₁ hi₁
  · rintro rfl
    have hst₃ : s₁.stage c ≤ s₃.stage c₁ := Stage.widen hst hadd₃.steps.temps
    have hfollows := hrun₄ hopen₃ hT₄ (hat₃ c₁ hl₁ hi₁) (hc.trans hst₃)
    have htemps : s₁.temps ≤ s₃.temps := Steps.temps (hleave.steps.trans hadd₃.steps)
    refine (hfollows.head .refl (Stage.widen le_rfl htemps)).tail hopen₁ fun c₂ ho₄ harr => ?_
    have hstep := hjump₅ ho₄ c₂ hT₅ harr.there
    exact ⟨_, .single hstep, ⟨harr.runs.tail hstep, hat₁ _ rfl rfl, ⟨Nat.le_refl _, harr.stage.2⟩⟩,
      rfl⟩

end Branching

end Carries

variable {env : M.Env}

theorem branchOn_decides {t : TypeTable} (henv : Sees σ L env) {cond : Expr} (h : Condition t cond)
    (l l' : LabelId) :
    Branches T L σ (branchOn t cond l l') (Eval.shortCircuit t env cond) l l' :=
  (h.agrees env).truth ▸ (lower_models t henv cond).branch l l'

theorem returnStatement_carries (t : TypeTable) (henv : Sees σ L env) (value : Option Expr) :
    Carries T L σ (returnStatement t value) (Eval.statement t env (.ret value)) := by
  unfold returnStatement
  cases value with
  | none => exact Carries.ret (x := pure ()) (m := pure ()) (.pure rfl) fun _ => none
  | some e =>
    simp only [map_eq_pure_bind, bind_assoc, pure_bind]
    exact .ret (lower_models t henv e).value some

mutual

theorem statement_carries (t : TypeTable) (henv : Sees σ L env) :
    ∀ st : Stmt, st.Plain (Condition t) → Carries T L σ (statement t st) (Eval.statement t env st)
  | .expr e, _ => .value (lower_models t henv e).value
  | .ret value, _ => returnStatement_carries t henv value
  | .decl _, h => h.elim
  | .ifThen _ body, h => .ifThen (branchOn_decides henv h.1) (statements_carries t henv body h.2)
  | .ifElse _ thenBody elseBody, h =>
    .ifElse (branchOn_decides henv h.1) (statements_carries t henv thenBody h.2.1)
      (statements_carries t henv elseBody h.2.2)
  | .loop _ body, h => .loop (branchOn_decides henv h.1) (statements_carries t henv body h.2)
  | .block body, h => statements_carries t henv body h

theorem statements_carries (t : TypeTable) (henv : Sees σ L env) :
    ∀ sts : List Stmt, Stmt.AllPlain (Condition t) sts →
      Carries T L σ (statements t sts) (Eval.statements t env sts)
  | [], _ => .skip
  | st :: rest, h => .seq (statement_carries t henv st h.1) (statements_carries t henv rest h.2)

end

theorem body_carries (henv : Sees σ L env) {sts : List (TypeTable × Stmt)}
    (h : ∀ p ∈ sts, p.2.Plain (Condition p.1)) : Carries T L σ (body sts) (Eval.body env sts) := by
  induction sts with
  | nil => exact .skip
  | cons p sts ih =>
    exact .seq (statement_carries p.1 henv p.2 (h p (List.mem_cons_self ..)))
      (ih fun q hq => h q (List.mem_cons_of_mem _ hq))

end TypedCore
