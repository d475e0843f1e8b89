import TypedCore.Proofs.Emitter.Drafting
import TypedCore.Proofs.Emitter.Structured

/-!
# Where code ends

Code that leaves control where it ends, started in an open block, ends in one (`Emits.keepsOpen`): what
comes next goes to the block that is current then, not to a new one. Code that only adds to an open block does not
fail (`Inside`).
-/

namespace TypedCore

open Ir Lowering Emit Emitter

variable {α β : Type}

/-! ### Single operations -/

theorem Ir.Instr.isTerminator_of_isPlain {i : Instr} (h : i.isPlain = true) :
    i.isTerminator = false := by
  cases i <;> simp_all [Instr.isPlain, Instr.isTerminator]

theorem defineLabel_open {s s' : Emitter} {l : LabelId} (hs : s.Drafting)
    (h : Ends (defineLabel l) s (.ok ()) s') : s'.Open := by
  obtain ⟨-, ho, -, hl, rfl⟩ | ⟨-, ha, -, hl, rfl⟩ | ⟨e, h, -⟩ := defineLabel_ends h
  · exact (hs.push ho _).open_startBlock (ho.push_terminator rfl) hl
  · exact hs.open_startBlock ha hl
  · cases h

theorem defineLabel_length {s s' : Emitter} {l : LabelId} (hs : s.Drafting)
    (h : Ends (defineLabel l) s (.ok ()) s') : s'.blocks.length = s.blocks.length + 1 := by
  obtain ⟨-, ho, -, hl, rfl⟩ | ⟨-, ha, hf, hl, rfl⟩ | ⟨e, h, -⟩ := defineLabel_ends h
  · obtain ⟨pre, b, hb, hc, -⟩ := hs.exists_last
    simp [blocks_startBlock (hs.push ho _).function_isSome, hs.blocks_push hb hc, hb]
  · simp [blocks_startBlock hf]
  · cases h

theorem openBlock_of_open {s s' : Emitter} (ho : s.Open) (h : Ends openBlock s (.ok ()) s') : s' = s := by
  obtain ⟨-, -, -, rfl⟩ | ⟨-, -, ha, -⟩ | ⟨e, h, -⟩ := openBlock_ends h
  · rfl
  · rw [ho.acceptsInstr] at ha
    cases ha
  · cases h

theorem jump_of_open {s s' : Emitter} {l : LabelId} (ho : s.Open) (h : Ends (jump l) s (.ok ()) s') :
    s' = s.push (.branch l) := by
  obtain ⟨_, s₁, h₁, h₂⟩ := Ends.bind_ok_iff.1 h
  cases openBlock_of_open ho h₁
  obtain ⟨-, -, rfl⟩ | ⟨e, h, -⟩ := build_emit h₂
  · rfl
  · cases h

/-- The code of `x` ends in an open block if it starts in one. -/
def KeepsOpen (x : EmitM α) : Prop :=
  ∀ ⦃s a s'⦄, s.Drafting → s.Open → Ends x s (.ok a) s' → s'.Open

namespace KeepsOpen

theorem bind {x : EmitM α} {f : α → EmitM β} (hgrows : Grows x) (hx : KeepsOpen x)
    (hf : ∀ a, KeepsOpen (f a)) : KeepsOpen (x >>= f) := by
  intro s b s' hs ho h
  obtain ⟨a, s₁, h₁, h₂⟩ := Ends.bind_ok_iff.1 h
  exact hf a (hs.steps (hgrows h₁)) (hx hs ho h₁) h₂

theorem pure (a : α) : KeepsOpen (pure a) := by
  intro s _ s' _ ho h
  obtain ⟨-, rfl⟩ := Ends.pure_iff.1 h
  exact ho

theorem throw (f : Fault) : KeepsOpen (throw f : EmitM α) := by
  intro s _ s' _ _ h
  cases (Ends.throw_iff.1 h).1

theorem lift (y : Except Fault α) : KeepsOpen (liftM y : EmitM α) := by
  intro s _ s' _ ho h
  obtain ⟨-, rfl⟩ := Ends.lift_iff.1 h
  exact ho

theorem openBlock_bind {f : Unit → EmitM β} (hf : KeepsOpen (f ())) : KeepsOpen (openBlock >>= f) := by
  intro s b s' hs ho h
  obtain ⟨_, s₁, h₁, h₂⟩ := Ends.bind_ok_iff.1 h
  cases openBlock_of_open ho h₁
  exact hf hs ho h₂

theorem emit {i : Instr} (hi : i.isTerminator = false) : KeepsOpen (build (.emit i)) := by
  intro s _ s' _ ho h
  obtain ⟨-, -, rfl⟩ | ⟨e, h, -⟩ := build_emit h
  · exact ho.push hi
  · cases h

theorem emitTemp {i : TempId → Instr} (hi : ∀ r, (i r).isTerminator = false) :
    KeepsOpen (build (.emitTemp i)) := by
  intro s _ s' _ _ h
  obtain ⟨-, ho, rfl⟩ | ⟨e, h, -⟩ := build_emitTemp h
  · exact Open.push (s := s.takeTemp) ho (hi _)
  · cases h

theorem merge (incoming : List (Value × LabelId)) (ty : Ty) : KeepsOpen (Emit.merge incoming ty) :=
  openBlock_bind (bind (.emitTemp _) (emitTemp fun _ => rfl) fun _ => pure _)

end KeepsOpen

/-- The code of `x` ends in an open block, wherever it starts. -/
def Opens (x : EmitM α) : Prop := ∀ ⦃s a s'⦄, s.Drafting → Ends x s (.ok a) s' → s'.Open

namespace Opens

theorem keepsOpen {x : EmitM α} (h : Opens x) : KeepsOpen x := fun _ _ _ hs _ hx => h hs hx

theorem after {x : EmitM α} {f : α → EmitM β} (hx : Grows x) (hf : ∀ a, Opens (f a)) :
    Opens (x >>= f) := by
  intro s b s' hs h
  obtain ⟨a, s₁, h₁, h₂⟩ := Ends.bind_ok_iff.1 h
  exact hf a (hs.steps (hx h₁)) h₂

theorem defineLabel_bind {l : LabelId} {f : Unit → EmitM β} (hf : KeepsOpen (f ())) :
    Opens (defineLabel l >>= f) := by
  intro s b s' hs h
  obtain ⟨_, s₁, h₁, h₂⟩ := Ends.bind_ok_iff.1 h
  exact hf (hs.steps (Grows.defineLabel l h₁)) (defineLabel_open hs h₁) h₂

end Opens

/-- Code that leaves control where it ends leaves an open block open. -/
theorem Emits.keepsOpen {k : Exit} {x : EmitM α} (h : Emits k x) (hk : k = .falls) : KeepsOpen x := by
  induction h with
  | pure a => exact .pure a
  | throw k f => exact .throw f
  | lift y => exact .lift y
  | bind hx _ ihx ihf => exact .bind hx.grows (ihx rfl) fun a => ihf a hk
  | instr i hi => exact .openBlock_bind (.emit (Instr.isTerminator_of_isPlain hi))
  | temp i hi => exact .openBlock_bind (.emitTemp fun r => Instr.isTerminator_of_isPlain (hi r))
  | slot ty =>
    refine .openBlock_bind (.bind (.recordType ty) ?_ fun _ => ?_)
    · intro s _ s' _ ho h
      obtain ⟨-, rfl⟩ := Ends.modify_iff.1 h
      exact ho
    · rw [build_alloca_eq]
      exact .bind (.emitTemp _) (.emitTemp fun _ => rfl) fun _ => .pure _
  | symbol id name storage =>
    intro s v s' _ ho h
    obtain ⟨rfl, -⟩ := symbolAddress_ends h
    exact ho
  | text text =>
    intro s v s' _ ho h
    obtain ⟨g, n, rfl, -, -⟩ := stringLiteral_ends h
    exact ho
  | materialize hb _ =>
    exact Opens.keepsOpen (.after .createLabel fun _ => .after .createLabel fun _ =>
      .after .createLabel fun _ => .after (hb _ _).grows fun _ => .after (.defineLabel _) fun _ =>
      .after (.jump _) fun _ => .after (.defineLabel _) fun _ => .after (.jump _) fun _ =>
      .defineLabel_bind (.merge _ _))
  | choice hc ha hb _ _ _ =>
    refine Opens.keepsOpen (.after .createLabel fun _ => .after .createLabel fun _ =>
      .after .createLabel fun _ => .after (hc _ _).grows fun _ => .after (.defineLabel _) fun _ =>
      .after ha.grows fun _ => .after grows_currentLabel fun _ => .after (.jump _) fun _ =>
      .after (.defineLabel _) fun _ => .after hb.grows fun _ => .after grows_currentLabel fun _ =>
      .after (.jump _) fun _ => .defineLabel_bind ?_)
    split
    · exact .pure _
    · exact .bind (.lift _) (.lift _) fun _ => .merge _ _
  | jump _ => cases hk
  | condJump v onTrue onFalse => cases hk
  | swap _ _ => cases hk
  | both onTrue onFalse _ _ _ _ => cases hk
  | either onTrue onFalse _ _ _ _ => cases hk

/-! ### Code within one block -/

namespace Emit

/-- In an open block `x` goes through, and only adds to the block. -/
def Inside (x : EmitM α) : Prop :=
  ∀ ⦃s r s'⦄, s.Drafting → s.Open → Ends x s r s' →
    (∃ a, r = .ok a) ∧ s'.Drafting ∧ s'.Open ∧ s'.defined = s.defined ∧ s'.labels = s.labels

namespace Inside

theorem pure (a : α) : Inside (pure a) := by
  intro s r s' hd ho h
  obtain ⟨rfl, rfl⟩ := Ends.pure_iff.1 h
  exact ⟨⟨a, rfl⟩, hd, ho, rfl, rfl⟩

theorem bind {x : EmitM α} {f : α → EmitM β} (hx : Inside x) (hf : ∀ a, Inside (f a)) : Inside (x >>= f) := by
  intro s r s' hd ho h
  obtain ⟨a, s₁, h₁, h₂⟩ | ⟨e, -, h₁⟩ := Ends.bind_iff.1 h
  · obtain ⟨-, hd₁, ho₁, hdefined₁, hlabels₁⟩ := hx hd ho h₁
    obtain ⟨hr, hd₂, ho₂, hdefined₂, hlabels₂⟩ := hf a hd₁ ho₁ h₂
    exact ⟨hr, hd₂, ho₂, hdefined₂.trans hdefined₁, hlabels₂.trans hlabels₁⟩
  · obtain ⟨⟨a, ha⟩, -⟩ := hx hd ho h₁
    cases ha

theorem emit {i : Instr} (hi : i.isTerminator = false) : Inside (build (.emit i)) := by
  intro s r s' hd ho h
  obtain ⟨rfl, rfl⟩ := Ends.unique h (build_emit_open ho i)
  exact ⟨⟨(), rfl⟩, hd.push ho i, ho.push hi, defined_push .., rfl⟩

theorem emitTemp {i : TempId → Instr} (hi : ∀ r, (i r).isTerminator = false) : Inside (build (.emitTemp i)) := by
  rw [BuilderM.emitTemp, build_bind]
  refine bind (fun s r s' hd ho h => ?_) fun temp => ?_
  · obtain ⟨rb, b, hb, rfl, rfl⟩ := build_iff.1 h
    obtain ⟨rfl, rfl⟩ := Ends.modifyGet_iff.1 hb
    exact ⟨⟨_, rfl⟩, hd.step (.temp s), ho, rfl, rfl⟩
  · rw [build_bind]
    exact bind (emit (hi temp)) fun _ => pure temp

theorem note {f : Emitter → Emitter} (hb : ∀ s, (f s).builder = s.builder)
    (hc : ∀ s, (f s).current = s.current) : Inside (modify f) := by
  intro s r s' hd ho h
  obtain ⟨rfl, rfl⟩ := Ends.modify_iff.1 h
  refine ⟨⟨⟨⟩, rfl⟩, hd.congr (hb s) (hc s), ?_, ?_, ?_⟩
  · rwa [Open, hb]
  · simp only [defined, blocks, hb]
  · simp only [labels, hb]

theorem recordType (ty : Ty) : Inside (recordType ty) := note (fun _ => rfl) fun _ => rfl

theorem alloca (ty : Ty) : Inside (build (.alloca ty)) := by
  rw [build_alloca_eq]
  exact bind (emitTemp fun _ => rfl) fun _ => pure _

theorem openBlock : Inside openBlock := by
  intro s r s' hd ho h
  obtain ⟨head, hc⟩ := Option.isSome_iff_exists.1 hd.head
  obtain ⟨_, _, h⟩ | ⟨hn, -⟩ := requireFunction_bind_iff.1 h
  · rw [Ends.get_bind_iff, ho.acceptsInstr] at h
    exact pure () hd ho h
  · cases hc.symm.trans hn

theorem localVariable (symbol : SymbolId) (name : String) (ty : Ty) : Inside (localVariable symbol name ty) :=
  openBlock.bind fun _ => (recordType ty).bind fun _ => (emit rfl).bind fun _ => (alloca ty).bind fun slot =>
    (note (f := fun e => { e with locals := (symbol, slot) :: e.locals }) (fun _ => rfl) fun _ => rfl).bind
      fun _ => pure _

theorem spill (params : List Parameter) (index : Nat) : Inside (spill index params) := by
  induction params generalizing index with
  | nil => exact pure _
  | cons p params ih => exact (localVariable _ _ _).bind fun _ => (emit rfl).bind fun _ => ih _

end Inside

end Emit

end TypedCore
