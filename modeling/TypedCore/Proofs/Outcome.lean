/-!
# Outcomes of computations

Sessions, builders and emitters run in `ExceptT ε (StateM σ)`: a computation may fail, and what it did
before stays done. `Ends x s r s'` says how a run of `x` ends, and has one law for each way to build a
computation, so that proofs take runs apart without unfolding the monad.
-/

namespace TypedCore

variable {ε σ α β : Type}

theorem except_bind_ok {x : Except ε α} {f : α → Except ε β} {b : β} :
    x >>= f = .ok b ↔ ∃ a, x = .ok a ∧ f a = .ok b := by
  cases x with
  | error e => exact ⟨fun h => (nomatch h), fun ⟨_, h, _⟩ => (nomatch h)⟩
  | ok a => exact ⟨fun h => ⟨a, rfl, h⟩, fun ⟨_, h, h'⟩ => Except.ok.inj h ▸ h'⟩

/-- `x`, started in `s`, ends in `s'` with outcome `r`. -/
def Ends (x : ExceptT ε (StateM σ) α) (s : σ) (r : Except ε α) (s' : σ) : Prop :=
  x.run.run s = (r, s')

namespace Ends

variable {x : ExceptT ε (StateM σ) α} {f : α → ExceptT ε (StateM σ) β} {s s' : σ}

theorem exists_of_run (x : ExceptT ε (StateM σ) α) (s : σ) : ∃ r s', Ends x s r s' :=
  ⟨_, _, rfl⟩

theorem of_isOk (h : (x.run.run s).1.isOk = true) : ∃ a, Ends x s (.ok a) (x.run.run s).2 := by
  unfold Ends
  revert h
  rcases x.run.run s with ⟨e | a, s'⟩
  · exact nofun
  · exact fun _ => ⟨a, rfl⟩

theorem unique {r r₁ : Except ε α} {s₁ : σ} (h : Ends x s r s') (h₁ : Ends x s r₁ s₁) :
    r = r₁ ∧ s' = s₁ := by
  cases h.symm.trans h₁
  exact ⟨rfl, rfl⟩

theorem pure_iff {a : α} {r : Except ε α} :
    Ends (pure a : ExceptT ε (StateM σ) α) s r s' ↔ r = .ok a ∧ s' = s := by
  show ((Except.ok a, s) = (r, s')) ↔ _
  simp [eq_comm]

theorem throw_iff {e : ε} {r : Except ε α} :
    Ends (throw e : ExceptT ε (StateM σ) α) s r s' ↔ r = .error e ∧ s' = s := by
  show ((Except.error e, s) = (r, s')) ↔ _
  simp [eq_comm]

theorem lift_iff {y r : Except ε α} :
    Ends (liftM y : ExceptT ε (StateM σ) α) s r s' ↔ r = y ∧ s' = s := by
  show ((y, s) = (r, s')) ↔ _
  simp [eq_comm]

theorem get_iff {r : Except ε σ} :
    Ends (get : ExceptT ε (StateM σ) σ) s r s' ↔ r = .ok s ∧ s' = s := by
  show ((Except.ok s, s) = (r, s')) ↔ _
  simp [eq_comm]

theorem set_iff {s₁ : σ} {r : Except ε PUnit} :
    Ends (set s₁ : ExceptT ε (StateM σ) PUnit) s r s' ↔ r = .ok ⟨⟩ ∧ s' = s₁ := by
  show ((Except.ok ⟨⟩, s₁) = (r, s')) ↔ _
  simp [eq_comm]

theorem modify_iff {g : σ → σ} {r : Except ε PUnit} :
    Ends (modify g : ExceptT ε (StateM σ) PUnit) s r s' ↔ r = .ok ⟨⟩ ∧ s' = g s := by
  show ((Except.ok ⟨⟩, g s) = (r, s')) ↔ _
  simp [eq_comm]

theorem modifyGet_iff {g : σ → α × σ} {r : Except ε α} :
    Ends (modifyGet g : ExceptT ε (StateM σ) α) s r s' ↔ r = .ok (g s).1 ∧ s' = (g s).2 := by
  show ((Except.ok (g s).1, (g s).2) = (r, s')) ↔ _
  simp [eq_comm]

/-- A sequence ends as its second part does, unless the first part fails. -/
theorem bind_iff {r : Except ε β} :
    Ends (x >>= f) s r s' ↔
      (∃ a s₁, Ends x s (.ok a) s₁ ∧ Ends (f a) s₁ r s') ∨
        ∃ e, r = .error e ∧ Ends x s (.error e) s' := by
  have key : (x >>= f).run.run s =
      (match x.run.run s with | (o, s₁) => (ExceptT.bindCont f o) s₁) := rfl
  unfold Ends
  rw [key]
  rcases x.run.run s with ⟨e | a, s₁⟩
  · show ((Except.error e, s₁) = (r, s')) ↔ _
    constructor
    · intro h; cases h; exact .inr ⟨e, rfl, rfl⟩
    · rintro (⟨a, s₂, h, -⟩ | ⟨e', rfl, h⟩)
      · cases h
      · cases h; rfl
  · show ((f a).run.run s₁ = (r, s')) ↔ _
    constructor
    · intro h; exact .inl ⟨a, s₁, rfl, h⟩
    · rintro (⟨a', s₂, h, h'⟩ | ⟨e, rfl, h⟩)
      · cases h; exact h'
      · cases h

theorem bind_ok_iff {b : β} :
    Ends (x >>= f) s (.ok b) s' ↔ ∃ a s₁, Ends x s (.ok a) s₁ ∧ Ends (f a) s₁ (.ok b) s' := by
  simp [bind_iff]

theorem get_bind_iff {f : σ → ExceptT ε (StateM σ) β} {r : Except ε β} :
    Ends (get >>= f) s r s' ↔ Ends (f s) s r s' := Iff.rfl

theorem set_bind_iff {s₁ : σ} {f : PUnit → ExceptT ε (StateM σ) β} {r : Except ε β} :
    Ends (set s₁ >>= f) s r s' ↔ Ends (f ⟨⟩) s₁ r s' := Iff.rfl

theorem modifyGet_bind_iff {g : σ → α × σ} {r : Except ε β} :
    Ends (modifyGet g >>= f) s r s' ↔ Ends (f (g s).1) (g s).2 r s' := Iff.rfl

theorem modify_bind_iff {g : σ → σ} {f : PUnit → ExceptT ε (StateM σ) β} {r : Except ε β} :
    Ends (modify g >>= f) s r s' ↔ Ends (f ⟨⟩) (g s) r s' := Iff.rfl

theorem map_iff {g : α → β} {r : Except ε β} :
    Ends (g <$> x) s r s' ↔ ∃ r₀, Ends x s r₀ s' ∧ r = r₀.map g := by
  rw [show g <$> x = x >>= fun a => pure (g a) from map_eq_pure_bind g x, bind_iff]
  constructor
  · rintro (⟨a, s₁, h, h'⟩ | ⟨e, rfl, h⟩)
    · obtain ⟨rfl, rfl⟩ := pure_iff.1 h'
      exact ⟨.ok a, h, rfl⟩
    · exact ⟨.error e, h, rfl⟩
  · rintro ⟨e | a, h, rfl⟩
    · exact .inr ⟨e, rfl, h⟩
    · exact .inl ⟨a, s', h, pure_iff.2 ⟨rfl, rfl⟩⟩

theorem map_ok_iff {g : α → β} {b : β} :
    Ends (g <$> x) s (.ok b) s' ↔ ∃ a, Ends x s (.ok a) s' ∧ b = g a := by
  rw [map_iff]
  constructor
  · rintro ⟨e | a, h, hb⟩
    · cases hb
    · exact ⟨a, h, Except.ok.inj hb⟩
  · rintro ⟨a, h, rfl⟩
    exact ⟨.ok a, h, rfl⟩

end Ends

end TypedCore
