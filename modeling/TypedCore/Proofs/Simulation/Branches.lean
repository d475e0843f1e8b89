import TypedCore.Proofs.Emitter.Structured
import TypedCore.Proofs.Simulation.Realizes

/-!
# Code that splits and joins control

The rules for code that leaves by a jump: jumps themselves, the logical operators, and the two places
where the ways of a condition meet again, as a bit or as one of two values.
-/

namespace TypedCore

open Ir Machine Emit Emitter Lowering

variable {M : Machine} {α β γ δ : Type} {T : M.Target} {L : List (SymbolId × Value)}
  {σ σ' : M.Stage}

/-! ### Labels -/

/-- After control has left, the block of a label begins. -/
theorem defineLabel_begins {s s' : Emitter} {l : LabelId} (hs : s.Drafting)
    (hclosed : s.acceptsInstr = false) (h : Ends (defineLabel l) s (.ok ()) s') :
    Steps s s' ∧ s'.locals = s.locals ∧ s'.Open ∧ s'.blocks.length = s.blocks.length + 1 ∧
      ∀ c : M.Config, c.label = l → c.index = 0 → s'.At T c := by
  have hsteps := Grows.defineLabel l h
  obtain ⟨-, ho, -⟩ | ⟨-, -, hf, hl, rfl⟩ | ⟨e, h, -⟩ := defineLabel_ends h
  · rw [ho.acceptsInstr] at hclosed
    cases hclosed
  · refine ⟨hsteps, rfl, hs.open_startBlock hclosed hl, ?_, fun c hc hi =>
      hs.at_startBlock hclosed hl hc hi⟩
    simp [blocks_startBlock hf]
  · cases h

/-- A jump from an open block. -/
theorem jump_leaves {s s' : Emitter} {l : LabelId} (hs : s.Drafting) (hopen : s.Open)
    (h : Ends (jump l) s (.ok ()) s') :
    Leaves s s' ∧ s.blocks.length ≤ s'.blocks.length ∧
      ∀ c : M.Config, s'.Extends T → s.At T c → Machine.Step T.blocks c (c.goto l) := by
  have hsteps := Grows.jump l h
  obtain ⟨_, s₁, h₁, h₂⟩ := Ends.bind_ok_iff.1 h
  obtain ⟨-, -, -, rfl⟩ | ⟨-, -, ha, -⟩ | ⟨e, h, -⟩ := openBlock_ends h₁
  · obtain ⟨-, -, rfl⟩ | ⟨e, he, -⟩ := build_emit h₂
    · exact ⟨⟨hsteps, rfl, hopen.push_terminator rfl⟩, (hs.prefixed hsteps).length_le,
        fun c hT hat => hs.step_push hopen hT hat rfl⟩
    · cases he
  · rw [hopen.acceptsInstr] at ha
    cases ha
  · cases h

/-- Control is in the block that instructions go to. -/
theorem Emitter.Drafting.label_eq {s : Emitter} {c : M.Config} {l : LabelId} (hs : s.Drafting)
    (hopen : s.Open) (hat : s.At T c) (hl : s.builder.current = some l) : c.label = l := by
  cases hat with
  | before hclosed _ _ _ => rw [hopen.acceptsInstr] at hclosed; cases hclosed
  | inside _ hb hc _ =>
    obtain ⟨pre, b, hb', hcur⟩ := hs.last
    obtain ⟨-, hbb⟩ := List.append_inj' (hb.symm.trans hb') rfl
    cases hbb
    exact hc.trans (Option.some.inj (hcur.symm.trans hl))

namespace Branches

open Represents (rel)

theorem bind [Represents M α γ] {x : EmitM α} {f : α → EmitM Unit} {m : M.RunM γ}
    {g : γ → M.RunM Bool} {onTrue onFalse : LabelId} (hx : Realizes T L σ x m)
    (hf : ∀ σ', σ ≤ σ' → ∀ a b, rel σ' a b → Branches T L σ' (f a) (g b) onTrue onFalse) :
    Branches T L σ (x >>= f) (m >>= g) onTrue onFalse := by
  intro s s' hs hL h
  obtain ⟨a₁, s₁, h₁, h₂⟩ := Ends.bind_ok_iff.1 h
  obtain ⟨hcont, hrun⟩ := hx hs hL h₁
  have hs₁ := hs.steps hcont.steps
  have hL₁ := hcont.locals.trans hL
  obtain ⟨σ₁, b₁, hσ₁, hrel⟩ := Represents.total (β := γ) σ a₁
  have hleaves := (hf σ₁ hσ₁ a₁ b₁ hrel hs₁ hL₁ h₂).1
  refine ⟨hcont.leaves hleaves, fun c hT hat hc => ?_⟩
  obtain ⟨b, c₁, hm, harr, hb⟩ := hrun (hT.of_steps hs₁ hleaves.steps) hat hc
  obtain ⟨d, c₂, hg, hruns, hl, hi, hst⟩ :=
    (hf _ (hc.trans harr.stage) a₁ b hb hs₁ hL₁ h₂).2 hT harr.there le_rfl
  exact ⟨d, c₂, (RunM.bind_eq_some hm).trans hg, Relation.TransGen.trans_right harr.runs hruns, hl, hi,
    harr.stage.trans hst⟩

/-- An instruction that leaves its block. -/
theorem instr {i : Instr} {m : M.RunM Bool} {onTrue onFalse : LabelId} (hi : i.isTerminator = true)
    (h : ∀ (c : M.Config) n, σ ≤ ⟨n, c.regs⟩ → ∃ b, m c.world = some (b, c.world) ∧
      c.exec i = some (c.goto (if b then onTrue else onFalse))) :
    Branches T L σ (openBlock >>= fun _ => build (.emit i)) m onTrue onFalse := by
  intro s s' hs hL hx
  obtain ⟨_, s₁, h₁, h₂⟩ := Ends.bind_ok_iff.1 hx
  obtain ⟨hcont, hopen, hopened⟩ := openBlock_enters (T := T) hs h₁
  have hs₁ := hs.steps hcont.steps
  obtain ⟨-, -, rfl⟩ | ⟨e, he, -⟩ := build_emit h₂
  swap
  · cases he
  have hstep : Step s₁ (s₁.push i) := .instr s₁ i hopen
  refine ⟨hcont.leaves ⟨hstep.steps, rfl, hopen.push_terminator hi⟩, fun c hT hat hc => ?_⟩
  have harr := hopened c (hT.of_steps hs₁ hstep.steps) hat
  obtain ⟨b, hm, hexec⟩ := h c _ hc
  exact ⟨b, c.goto (if b then onTrue else onFalse), hm,
    .single (hs₁.step_push hopen hT harr.there hexec), rfl, rfl, harr.stage⟩

theorem jump (b : Bool) (onTrue onFalse : LabelId) :
    Branches T L σ (Emit.jump (if b then onTrue else onFalse)) (pure b) onTrue onFalse :=
  instr rfl fun _ _ _ => ⟨b, rfl, rfl⟩

theorem condJump {v : Value} {w : M.Word} (hv : Denotes σ v w) (onTrue onFalse : LabelId) :
    Branches T L σ (Emit.condJump v onTrue onFalse) (pure (M.isTrue w)) onTrue onFalse :=
  instr rfl fun c n hσ => ⟨M.isTrue w, rfl, by simp [Config.exec, hv.word_of_le hσ]⟩

theorem not {x : EmitM Unit} {m : M.RunM Bool} {onTrue onFalse : LabelId}
    (h : Branches T L σ x m onFalse onTrue) :
    Branches T L σ x (do return !(← m)) onTrue onFalse := by
  intro s s' hs hL hx
  obtain ⟨hleaves, hrun⟩ := h hs hL hx
  refine ⟨hleaves, fun c hT hat hc => ?_⟩
  obtain ⟨b, c', hm, hruns, hl, hi, hst⟩ := hrun hT hat hc
  refine ⟨!b, c', RunM.bind_eq_some hm, hruns, ?_, hi, hst⟩
  cases b <;> simpa using hl

/-- A logical operator: the right operand is reached if the left one has the truth `d`. -/
theorem logical (d : Bool) {left right : Code} {lm rm : M.Meaning}
    (hl : ∀ l l', Branches T L σ (left.branch l l') lm.truth l l')
    (hr : ∀ l l', Branches T L σ (right.branch l l') rm.truth l l') (onTrue onFalse : LabelId) :
    Branches T L σ
      (do
        let check ← createLabel
        left.branch (if d then check else onTrue) (if d then onFalse else check)
        defineLabel check
        right.branch onTrue onFalse)
      (do
        let b ← lm.truth
        if b = d then rm.truth else return b) onTrue onFalse := by
  intro s s' hs hL hx
  obtain ⟨check, s₁, h₁, hx⟩ := Ends.bind_ok_iff.1 hx
  obtain ⟨_, s₂, h₂, hx⟩ := Ends.bind_ok_iff.1 hx
  obtain ⟨_, s₃, h₃, h₄⟩ := Ends.bind_ok_iff.1 hx
  obtain ⟨-, rfl⟩ := createLabel_iff.1 h₁
  have hs₁ : s.takeLabel.Drafting := hs.step (.label s)
  obtain ⟨hleft, hrunl⟩ := hl _ _ hs₁ hL h₂
  have hs₂ := hs₁.steps hleft.steps
  obtain ⟨hsteps₃, hlocals₃, -, -, hat₃⟩ := defineLabel_begins (T := T) hs₂ hleft.closed h₃
  have hs₃ := hs₂.steps hsteps₃
  obtain ⟨hright, hrunr⟩ := hr onTrue onFalse hs₃ ((hlocals₃.trans hleft.locals).trans hL) h₄
  refine ⟨⟨(((Step.label s).steps.trans hleft.steps).trans hsteps₃).trans hright.steps,
    (hright.locals.trans hlocals₃).trans hleft.locals, hright.closed⟩, fun c hT hat hc => ?_⟩
  have hT₃ := hT.of_steps hs₃ hright.steps
  obtain ⟨b, c₁, hm, hruns, hl₁, hi₁, hst⟩ :=
    hrunl (hT₃.of_steps hs₂ hsteps₃) hat.takeLabel hc
  by_cases hb : b = d
  · subst hb
    have hst₃ : s.stage c ≤ s₃.stage c₁ := Stage.widen hst hsteps₃.temps
    have hcheck : c₁.label = check := by rw [hl₁]; cases b <;> rfl
    obtain ⟨b₂, c₂, hm₂, hruns₂, hl₂, hi₂, hst₂⟩ :=
      hrunr hT (hat₃ c₁ hcheck hi₁) (hc.trans hst₃)
    refine ⟨b₂, c₂, (RunM.bind_eq_some hm).trans ?_, hruns.trans hruns₂, hl₂, hi₂,
      hst₃.trans hst₂⟩
    simpa using hm₂
  · refine ⟨b, c₁, (RunM.bind_eq_some hm).trans ?_, hruns, ?_, hi₁,
      Stage.widen hst (Nat.le_trans hsteps₃.temps hright.steps.temps)⟩
    · simp only [hb, if_false]
      rfl
    · rw [hl₁]
      cases b <;> cases d <;> simp_all

theorem both {left right : Code} {lm rm : M.Meaning}
    (hl : ∀ l l', Branches T L σ (left.branch l l') lm.truth l l')
    (hr : ∀ l l', Branches T L σ (right.branch l l') rm.truth l l') (onTrue onFalse : LabelId) :
    Branches T L σ (andBranch left right onTrue onFalse) (Eval.conjunction lm rm) onTrue onFalse := by
  have hmeaning : Eval.conjunction lm rm = lm.truth >>= fun b => if b = true then rm.truth else pure b :=
    congrArg (lm.truth >>= ·) (funext fun b => by cases b <;> rfl)
  rw [hmeaning]
  exact logical true hl hr onTrue onFalse

theorem either {left right : Code} {lm rm : M.Meaning}
    (hl : ∀ l l', Branches T L σ (left.branch l l') lm.truth l l')
    (hr : ∀ l l', Branches T L σ (right.branch l l') rm.truth l l') (onTrue onFalse : LabelId) :
    Branches T L σ (orBranch left right onTrue onFalse) (Eval.disjunction lm rm) onTrue onFalse := by
  have hmeaning : Eval.disjunction lm rm = lm.truth >>= fun b => if b = false then rm.truth else pure b :=
    congrArg (lm.truth >>= ·) (funext fun b => by cases b <;> rfl)
  rw [hmeaning]
  exact logical false hl hr onTrue onFalse

end Branches

/-! ### Where two ways meet -/

/-- One of two ways that meet: code from `s` to `s'` that computes the value `v` of `m` and ends in the
block `l`. -/
structure Way (T : M.Target) (σ : M.Stage) (s s' : Emitter) (m : M.RunM M.Word) (v : Value)
    (l : LabelId) : Prop where
  continues : Continues s s'
  current : s'.builder.current = some l
  arrives : ∀ c : M.Config, s'.Extends T → s.At T c → σ ≤ s.stage c →
    ∃ w c', m c.world = some (w, c'.world) ∧ Arrives T s s' c c' ∧ Denotes (s'.stage c') v w ∧
      c'.label = l

/-- The ways of a condition meet in the block `done`, which control enters from the block and with the
value of the way that it took. -/
theorem ways_meet {s s₁ s₂ s₃ s₄ s₅ s₆ s₇ s₈ : Emitter} {branch : EmitM Unit} {m : M.RunM Bool}
    {ma mb : M.RunM M.Word} {a b : Value} {onTrue onFalse done la lb : LabelId} (hs : s.Drafting)
    (hL : s.locals = L) (hbranch : Branches T L σ branch m onTrue onFalse)
    (h₁ : Ends branch s (.ok ()) s₁) (h₂ : Ends (defineLabel onTrue) s₁ (.ok ()) s₂)
    (ha : s₂.Drafting → s₂.Open → s₂.locals = L → Way T σ s₂ s₃ ma a la)
    (h₄ : Ends (jump done) s₃ (.ok ()) s₄) (h₅ : Ends (defineLabel onFalse) s₄ (.ok ()) s₅)
    (hb : s₅.Drafting → s₅.Open → s₅.locals = L → Way T σ s₅ s₆ mb b lb)
    (h₇ : Ends (jump done) s₆ (.ok ()) s₇) (h₈ : Ends (defineLabel done) s₇ (.ok ()) s₈) :
    Steps s s₈ ∧ s₈.locals = s.locals ∧ s₈.Open ∧ la ≠ lb ∧
      ∀ c : M.Config, s₈.Extends T → s.At T c → σ ≤ s.stage c →
        ∃ w c', (do if ← m then ma else mb : M.RunM M.Word) c.world = some (w, c'.world) ∧
          Arrives T s s₈ c c' ∧ ∃ v, (c'.prev = la ∧ v = a ∨ c'.prev = lb ∧ v = b) ∧
            Denotes (s₈.stage c') v w := by
  obtain ⟨hleave, hrun⟩ := hbranch hs hL h₁
  have hs₁ := hs.steps hleave.steps
  obtain ⟨hsteps₂, hlocals₂, hopen₂, -, hat₂⟩ := defineLabel_begins (T := T) hs₁ hleave.closed h₂
  have hs₂ := hs₁.steps hsteps₂
  have hL₂ := (hlocals₂.trans hleave.locals).trans hL
  have ha := ha hs₂ hopen₂ hL₂
  have hs₃ := hs₂.steps ha.continues.steps
  obtain ⟨hleave₄, hlen₄, hjump₄⟩ := jump_leaves (T := T) hs₃ (ha.continues.opened hopen₂) h₄
  have hs₄ := hs₃.steps hleave₄.steps
  obtain ⟨hsteps₅, hlocals₅, hopen₅, hlen₅, hat₅⟩ :=
    defineLabel_begins (T := T) hs₄ hleave₄.closed h₅
  have hs₅ := hs₄.steps hsteps₅
  have hL₅ := ((hlocals₅.trans hleave₄.locals).trans ha.continues.locals).trans hL₂
  have hb := hb hs₅ hopen₅ hL₅
  have hs₆ := hs₅.steps hb.continues.steps
  obtain ⟨hleave₇, -, hjump₇⟩ := jump_leaves (T := T) hs₆ (hb.continues.opened hopen₅) h₇
  have hs₇ := hs₆.steps hleave₇.steps
  obtain ⟨hsteps₈, hlocals₈, hopen₈, -, hat₈⟩ := defineLabel_begins (T := T) hs₇ hleave₇.closed h₈
  have hlast : Steps s₃ s₆ := (hleave₄.steps.trans hsteps₅).trans hb.continues.steps
  have hrest : Steps s₂ s₈ :=
    ((ha.continues.steps.trans hlast).trans hleave₇.steps).trans hsteps₈
  refine ⟨(hleave.steps.trans hsteps₂).trans hrest, ?_, hopen₈, ?_, fun c hT hat hc => ?_⟩
  · rw [hlocals₈, hleave₇.locals, hb.continues.locals, hL₅, hL]
  · refine hs₃.current_ne hlast ?_ ha.current hb.current
    have := (hs₅.prefixed hb.continues.steps).length_le
    omega
  have hT₇ := hT.of_steps hs₇ hsteps₈
  have hT₆ := hT₇.of_steps hs₆ hleave₇.steps
  have hT₄ := (hT₆.of_steps hs₅ hb.continues.steps).of_steps hs₄ hsteps₅
  have hT₃ := hT₄.of_steps hs₃ hleave₄.steps
  have hT₂ := hT₃.of_steps hs₂ ha.continues.steps
  obtain ⟨t, c₁, hm, hruns, hl₁, hi₁, hst₁⟩ := hrun (hT₂.of_steps hs₁ hsteps₂) hat hc
  cases t with
  | true =>
    have hst₂ : s.stage c ≤ s₂.stage c₁ := Stage.widen hst₁ hsteps₂.temps
    obtain ⟨w, c₂, hma, harr, hw, hl₂⟩ := ha.arrives c₁ hT₃ (hat₂ c₁ hl₁ hi₁) (hc.trans hst₂)
    have htemps : s₃.temps ≤ s₈.temps :=
      Steps.temps ((hlast.trans hleave₇.steps).trans hsteps₈)
    refine ⟨w, c₂.goto done, (RunM.bind_eq_some hm).trans hma, ⟨?_, hat₈ _ rfl rfl, ?_⟩,
      a, .inl ⟨hl₂, rfl⟩, hw.mono (Stage.widen le_rfl htemps)⟩
    · exact (hruns.to_reflTransGen.trans harr.runs).tail (hjump₄ c₂ hT₄ harr.there)
    · exact (hst₂.trans harr.stage).trans (Stage.widen le_rfl htemps)
  | false =>
    have hst₅ : s.stage c ≤ s₅.stage c₁ := Stage.widen hst₁
      (Steps.temps ((hsteps₂.trans ha.continues.steps).trans (hleave₄.steps.trans hsteps₅)))
    obtain ⟨w, c₂, hmb, harr, hw, hl₂⟩ := hb.arrives c₁ hT₆ (hat₅ c₁ hl₁ hi₁) (hc.trans hst₅)
    have htemps : s₆.temps ≤ s₈.temps := Steps.temps (hleave₇.steps.trans hsteps₈)
    refine ⟨w, c₂.goto done, (RunM.bind_eq_some hm).trans hmb, ⟨?_, hat₈ _ rfl rfl, ?_⟩,
      b, .inr ⟨hl₂, rfl⟩, hw.mono (Stage.widen le_rfl htemps)⟩
    · exact (hruns.to_reflTransGen.trans harr.runs).tail (hjump₇ c₂ hT₇ harr.there)
    · exact (hst₅.trans harr.stage).trans (Stage.widen le_rfl htemps)

/-- A phi takes the value that belongs to the block control came from. -/
theorem merge_arrives {s s' : Emitter} {incoming : List (Value × LabelId)} {ty : Ty} {v : Value}
    (hs : s.Drafting) (h : Ends (merge incoming ty) s (.ok v) s') :
    Continues s s' ∧ ∀ (c : M.Config) p, s'.Extends T → s.At T c →
      incoming.find? (fun p => p.2 == c.prev) = some p →
      ∃ c', c'.world = c.world ∧ Arrives T s s' c c' ∧ Denotes (s'.stage c') v (word c.regs p.1) := by
  obtain ⟨_, s₁, h₁, h⟩ := Ends.bind_ok_iff.1 h
  obtain ⟨r, s₂, h₂, h₃⟩ := Ends.bind_ok_iff.1 h
  obtain ⟨hv, rfl⟩ := Ends.pure_iff.1 h₃
  cases hv
  obtain ⟨hcont, hopen₁, hopened⟩ := openBlock_enters (T := T) hs h₁
  have hs₁ := hs.steps hcont.steps
  obtain ⟨hcont₁, hemit⟩ := emitTemp_arrives (T := T) hs₁ hopen₁ (fun _ => rfl) h₂
  refine ⟨hcont.trans hcont₁, fun c p hT hat hp => ?_⟩
  have harr := hopened c (hT.of_steps hs₁ hcont₁.steps) hat
  obtain ⟨c', hω, harr₁, hw⟩ := hemit c (word c.regs p.1) c.world hT harr.there
    (by simp [Config.exec, hp]; rfl)
  exact ⟨c', hω, harr.trans harr₁, hw⟩

theorem find?_incoming {a b v : Value} {la lb prev : LabelId} (hne : la ≠ lb)
    (h : prev = la ∧ v = a ∨ prev = lb ∧ v = b) :
    [(a, la), (b, lb)].find? (fun p => p.2 == prev) = some (v, prev) := by
  rcases h with ⟨rfl, rfl⟩ | ⟨rfl, rfl⟩
  · simp
  · simp [hne]

namespace Way

/-- A way without code. -/
theorem empty {s : Emitter} {l : LabelId} {v : Value} {w : M.Word} (hs : s.Drafting) (hopen : s.Open)
    (hl : s.builder.current = some l) (hv : Denotes σ v w) :
    Way T σ s s (Pure.pure w) v l :=
  ⟨.refl s, hl, fun c _ hat hc =>
    ⟨w, c, rfl, ⟨.refl, hat, le_rfl⟩, hv.mono hc, hs.label_eq hopen hat hl⟩⟩

/-- The way of a value. -/
theorem ofValue {s s₁ s' : Emitter} {l : LabelId} {v : Value} {x : EmitM Value}
    {m : M.RunM M.Word} (hx : Realizes T L σ x m) (hs : s.Drafting) (hopen : s.Open)
    (hL : s.locals = L) (h : Ends x s (.ok v) s₁) (h₁ : Ends currentLabel s₁ (.ok l) s') :
    Way T σ s s' m v l := by
  obtain ⟨rfl, hl⟩ := currentLabel_ends h₁
  obtain ⟨hcont, hrun⟩ := hx hs hL h
  refine ⟨hcont, hl, fun c hT hat hc => ?_⟩
  obtain ⟨w, c', hm, harr, hw⟩ := hrun hT hat hc
  exact ⟨w, c', hm, harr, hw,
    (hs.steps hcont.steps).label_eq (hcont.opened hopen) harr.there hl⟩

end Way

/-- A condition as a bit. -/
theorem Realizes.materialize {branch : LabelId → LabelId → EmitM Unit} {m : M.RunM Bool}
    (hbranch : ∀ l l', Branches T L σ (branch l l') m l l') :
    Realizes T L σ (materialize branch) (Eval.bit m) := by
  intro s v s' hs hL hx
  obtain ⟨onTrue, s₁, h₁, hx⟩ := Ends.bind_ok_iff.1 hx
  obtain ⟨onFalse, s₂, h₂, hx⟩ := Ends.bind_ok_iff.1 hx
  obtain ⟨done, s₃, h₃, hx⟩ := Ends.bind_ok_iff.1 hx
  obtain ⟨_, s₄, h₄, hx⟩ := Ends.bind_ok_iff.1 hx
  obtain ⟨_, s₅, h₅, hx⟩ := Ends.bind_ok_iff.1 hx
  obtain ⟨_, s₆, h₆, hx⟩ := Ends.bind_ok_iff.1 hx
  obtain ⟨_, s₇, h₇, hx⟩ := Ends.bind_ok_iff.1 hx
  obtain ⟨_, s₈, h₈, hx⟩ := Ends.bind_ok_iff.1 hx
  obtain ⟨_, s₉, h₉, hmerge⟩ := Ends.bind_ok_iff.1 hx
  obtain ⟨-, rfl⟩ := createLabel_iff.1 h₁
  obtain ⟨-, rfl⟩ := createLabel_iff.1 h₂
  obtain ⟨-, rfl⟩ := createLabel_iff.1 h₃
  have hlabels : Steps s s.takeLabel.takeLabel.takeLabel :=
    ((Step.label s).steps.tail (.label _)).tail (.label _)
  obtain ⟨hsteps, hlocals, hopen, hne, hmeet⟩ := ways_meet (T := T) (σ := σ) (hs.steps hlabels) hL
    (hbranch onTrue onFalse) h₄ h₅
    (fun ht ho _ => .empty ht ho (defineLabel_current h₅) (.const σ 1)) h₆ h₇
    (fun ht ho _ => .empty ht ho (defineLabel_current h₇) (.const σ 0)) h₈ h₉
  have hs₉ := (hs.steps hlabels).steps hsteps
  obtain ⟨hcont, hphi⟩ := merge_arrives (T := T) hs₉ hmerge
  refine ⟨⟨(hlabels.trans hsteps).trans hcont.steps, hcont.locals.trans hlocals,
    fun _ => hcont.opened hopen⟩, fun c hT hat hc => ?_⟩
  have hstart : Arrives T s s.takeLabel.takeLabel.takeLabel c c :=
    ⟨.refl, hat.takeLabel.takeLabel.takeLabel, le_rfl⟩
  obtain ⟨w, c₁, hm, harr, v', hfrom, hv'⟩ :=
    hmeet c (hT.of_steps hs₉ hcont.steps) hstart.there hc
  obtain ⟨c', hω, harr', hw⟩ := hphi c₁ _ hT harr.there (find?_incoming hne hfrom)
  refine ⟨w, c', ?_, hstart.trans (harr.trans harr'), hv'.word_eq ▸ hw⟩
  rw [hω, ← hm]
  exact congrFun (congrArg (m >>= ·) (funext fun b => by cases b <;> rfl)) c.world

/-- A choice between two values. -/
theorem Realizes.choice {t : TypeTable} {cond a b : Code} {cm am bm : M.Meaning} {ty : TypeId}
    (hcond : ∀ l l', Branches T L σ (cond.branch l l') cm.truth l l')
    (ha : Realizes T L σ a.value am.value) (hb : Realizes T L σ b.value bm.value) :
    Realizes T L σ (conditionalValue t cond a b ty) (Eval.choice t cm am bm ty) := by
  intro s v s' hs hL hx
  obtain ⟨onTrue, s₁, h₁, hx⟩ := Ends.bind_ok_iff.1 hx
  obtain ⟨onFalse, s₂, h₂, hx⟩ := Ends.bind_ok_iff.1 hx
  obtain ⟨done, s₃, h₃, hx⟩ := Ends.bind_ok_iff.1 hx
  obtain ⟨_, s₄, h₄, hx⟩ := Ends.bind_ok_iff.1 hx
  obtain ⟨_, s₅, h₅, hx⟩ := Ends.bind_ok_iff.1 hx
  obtain ⟨va, s₆, h₆, hx⟩ := Ends.bind_ok_iff.1 hx
  obtain ⟨la, s₇, h₇, hx⟩ := Ends.bind_ok_iff.1 hx
  obtain ⟨_, s₈, h₈, hx⟩ := Ends.bind_ok_iff.1 hx
  obtain ⟨_, s₉, h₉, hx⟩ := Ends.bind_ok_iff.1 hx
  obtain ⟨vb, s₁₀, h₁₀, hx⟩ := Ends.bind_ok_iff.1 hx
  obtain ⟨lb, s₁₁, h₁₁, hx⟩ := Ends.bind_ok_iff.1 hx
  obtain ⟨_, s₁₂, h₁₂, hx⟩ := Ends.bind_ok_iff.1 hx
  obtain ⟨_, s₁₃, h₁₃, hend⟩ := Ends.bind_ok_iff.1 hx
  obtain ⟨-, rfl⟩ := createLabel_iff.1 h₁
  obtain ⟨-, rfl⟩ := createLabel_iff.1 h₂
  obtain ⟨-, rfl⟩ := createLabel_iff.1 h₃
  have hlabels : Steps s s.takeLabel.takeLabel.takeLabel :=
    ((Step.label s).steps.tail (.label _)).tail (.label _)
  obtain ⟨hsteps, hlocals, hopen, hne, hmeet⟩ := ways_meet (T := T) (σ := σ) (hs.steps hlabels) hL
    (hcond onTrue onFalse) h₄ h₅ (fun ht ho hL => .ofValue ha ht ho hL h₆ h₇) h₈ h₉
    (fun ht ho hL => .ofValue hb ht ho hL h₁₀ h₁₁) h₁₂ h₁₃
  have hs₁₃ := (hs.steps hlabels).steps hsteps
  by_cases hvoid : t.isVoid ty = true
  · simp only [hvoid, if_true] at hend
    obtain ⟨hv, rfl⟩ := Ends.pure_iff.1 hend
    cases hv
    refine ⟨⟨hlabels.trans hsteps, hlocals, fun _ => hopen⟩, fun c hT hat hc => ?_⟩
    have hstart : Arrives T s s.takeLabel.takeLabel.takeLabel c c :=
      ⟨.refl, hat.takeLabel.takeLabel.takeLabel, le_rfl⟩
    obtain ⟨w, c₁, hm, harr, -⟩ := hmeet c hT hstart.there hc
    refine ⟨M.undef, c₁, (RunM.bind_eq_some (m := Eval.chosen cm am bm) hm).trans ?_,
      hstart.trans harr, trivial, rfl⟩
    simp only [hvoid, if_true]
    rfl
  · simp only [hvoid] at hend
    obtain ⟨ir, s₁₄, h₁₄, hmerge⟩ := Ends.bind_ok_iff.1 hend
    obtain ⟨hir, rfl⟩ := Ends.lift_iff.1 h₁₄
    obtain ⟨hcont, hphi⟩ := merge_arrives (T := T) hs₁₃ hmerge
    refine ⟨⟨(hlabels.trans hsteps).trans hcont.steps, hcont.locals.trans hlocals,
      fun _ => hcont.opened hopen⟩, fun c hT hat hc => ?_⟩
    have hstart : Arrives T s s.takeLabel.takeLabel.takeLabel c c :=
      ⟨.refl, hat.takeLabel.takeLabel.takeLabel, le_rfl⟩
    obtain ⟨w, c₁, hm, harr, v', hfrom, hv'⟩ :=
      hmeet c (hT.of_steps hs₁₃ hcont.steps) hstart.there hc
    obtain ⟨c', hω, harr', hw⟩ := hphi c₁ _ hT harr.there (find?_incoming hne hfrom)
    refine ⟨w, c', (RunM.bind_eq_some (m := Eval.chosen cm am bm) hm).trans ?_,
      hstart.trans (harr.trans harr'), hv'.word_eq ▸ hw⟩
    rw [hω]
    simp only [hvoid]
    exact RunM.bind_eq_some (a := ir) (by simp [RunM.lift, ← hir, Except.toOption])

end TypedCore
