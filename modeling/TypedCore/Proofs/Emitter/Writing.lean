import TypedCore.Proofs.Graph.Grounded

/-!
# What code writes

`s.Writes I s'`: from `s` to `s'` exactly the instructions `I` have been added to the function under construction, in
this order. Labels that are taken and blocks that are started write nothing, and each operation of an emitter writes
one instruction at most.
-/

namespace TypedCore

open Ir

namespace Emitter

/-- From `s` to `s'` the instructions `I` have been added. -/
structure Writes (s : Emitter) (I : List Instr) (s' : Emitter) : Prop where
  drafting : s'.Drafting
  instrs_eq : instrsOf s'.blocks = instrsOf s.blocks ++ I

namespace Writes

variable {s s₁ s' : Emitter} {I J : List Instr}

theorem refl (hs : s.Drafting) : Writes s [] s := ⟨hs, (List.append_nil _).symm⟩

theorem trans (h : Writes s I s₁) (h' : Writes s₁ J s') : Writes s (I ++ J) s' :=
  ⟨h'.drafting, by rw [h'.instrs_eq, h.instrs_eq, List.append_assoc]⟩

/-- Nothing is done to the function. -/
theorem congr (hs : s.Drafting) (hb : s'.builder = s.builder) (hc : s'.current = s.current) : Writes s [] s' :=
  ⟨hs.congr hb hc, by simp only [blocks, hb, List.append_nil]⟩

theorem takeLabel (hs : s.Drafting) : Writes s [] s.takeLabel :=
  ⟨hs.step (.label s), (List.append_nil _).symm⟩

theorem takeTemp (hs : s.Drafting) : Writes s [] s.takeTemp :=
  ⟨hs.step (.temp s), (List.append_nil _).symm⟩

theorem startBlock (hs : s.Drafting) (hclosed : s.acceptsInstr = false) {l : LabelId} (hl : l ∉ s.defined) :
    Writes s [] (s.startBlock l) :=
  ⟨hs.startBlock hclosed hl, by rw [hs.instrsOf_startBlock, List.append_nil]⟩

theorem push (hs : s.Drafting) (ho : s.Open) (i : Instr) : Writes s [i] (s.push i) :=
  ⟨hs.push ho i, hs.instrsOf_push i⟩

end Writes

end Emitter

namespace Emit

open Emitter

variable {s s' : Emitter}

theorem openBlock_writes (hs : s.Drafting) (h : Ends openBlock s (.ok ()) s') :
    s.Writes [] s' ∧ s'.temps = s.temps := by
  obtain ⟨-, -, -, rfl⟩ | ⟨-, -, ha, -, hl, rfl⟩ | ⟨e, h, -⟩ := openBlock_ends h
  · exact ⟨.refl hs, rfl⟩
  · exact ⟨(Writes.takeLabel hs).trans (.startBlock (hs.step (.label s)) ha hl), rfl⟩
  · cases h

theorem instr_writes {i : Instr} (hs : s.Drafting) (h : Ends (openBlock >>= fun _ => build (.emit i)) s (.ok ()) s') :
    s.Writes [i] s' := by
  obtain ⟨_, s₁, h₁, h₂⟩ := Ends.bind_ok_iff.1 h
  have hopened := (openBlock_writes hs h₁).1
  obtain ⟨-, ho, rfl⟩ | ⟨e, he, -⟩ := build_emit h₂
  · exact hopened.trans (.push hopened.drafting ho i)
  · cases he

/-- An instruction with a result gets the next temporary. -/
theorem temp_writes {i : TempId → Instr} {k : TempId} (hs : s.Drafting)
    (h : Ends (openBlock >>= fun _ => build (.emitTemp i)) s (.ok k) s') :
    k = s.temps ∧ s.Writes [i k] s' ∧ s'.temps = s.temps + 1 := by
  obtain ⟨_, s₁, h₁, h₂⟩ := Ends.bind_ok_iff.1 h
  obtain ⟨hopened, htemps⟩ := openBlock_writes hs h₁
  obtain ⟨hk, ho, rfl⟩ | ⟨e, he, -⟩ := build_emitTemp h₂
  · cases hk
    have htaken := Writes.takeTemp hopened.drafting
    exact ⟨htemps, hopened.trans (htaken.trans (.push htaken.drafting ho _)), congrArg (· + 1) htemps⟩
  · cases he

/-- An instruction whose result is the value. -/
theorem value_writes {i : TempId → Instr} {v : Value} (hs : s.Drafting)
    (h : Ends (openBlock >>= fun _ => return .temp (← build (.emitTemp i))) s (.ok v) s') :
    ∃ k, v = .temp k ∧ s.Writes [i k] s' := by
  rw [← bind_assoc] at h
  obtain ⟨k, s₁, h₁, h₂⟩ := Ends.bind_ok_iff.1 h
  obtain ⟨hv, rfl⟩ := Ends.pure_iff.1 h₂
  exact ⟨k, Except.ok.inj hv, (temp_writes hs h₁).2.1⟩

theorem offset_writes {base v : Value} {indices : List Value} {ty : Ty} (hs : s.Drafting)
    (h : Ends (openBlock >>= fun _ => build (.offset base indices ty)) s (.ok v) s') :
    ∃ k, v = .temp k ∧ s.Writes [.offset k base indices ty] s' := by
  rw [build_offset_eq] at h
  exact value_writes hs h

/-- A call is one instruction, with a result or without. -/
theorem call_writes {callee : Value} {args : List Value} {ty : Ty} {r : Option Value} (hs : s.Drafting)
    (h : Ends (call callee args ty) s (.ok r) s') : ∃ k, s.Writes [.call k callee args ty] s' := by
  unfold call BuilderM.call at h
  split at h
  · rw [build_bind, bind_assoc, ← bind_assoc] at h
    obtain ⟨_, s₁, h₁, h₂⟩ := Ends.bind_ok_iff.1 h
    -- nothing is done after the instruction
    obtain ⟨-, rfl⟩ := Ends.pure_iff.1 (show Ends (pure none) s₁ (.ok r) s' from h₂)
    exact ⟨none, instr_writes hs h₁⟩
  · rw [build_map, bind_assoc, ← bind_assoc] at h
    obtain ⟨k, s₁, h₁, h₂⟩ := Ends.bind_ok_iff.1 h
    obtain ⟨-, rfl⟩ := Ends.pure_iff.1 (show Ends (pure (some (.temp k))) s₁ (.ok r) s' from h₂)
    exact ⟨some k, (temp_writes hs h₁).2.1⟩

theorem createLabel_writes {l : LabelId} (hs : s.Drafting) (h : Ends createLabel s (.ok l) s') : s.Writes [] s' := by
  obtain ⟨-, rfl⟩ := createLabel_iff.1 h
  exact .takeLabel hs

/-- Control falls from an open block into the next one by a jump. -/
theorem defineLabel_writes {l : LabelId} (hs : s.Drafting) (h : Ends (defineLabel l) s (.ok ()) s') :
    s.Writes [] s' ∨ s.Writes [.branch l] s' := by
  obtain ⟨-, ho, -, hl, rfl⟩ | ⟨-, ha, -, hl, rfl⟩ | ⟨e, h, -⟩ := defineLabel_ends h
  · have hpush := Writes.push hs ho (.branch l)
    exact .inr (hpush.trans (.startBlock hpush.drafting (ho.push_terminator rfl) hl))
  · exact .inl (.startBlock hs ha hl)
  · cases h

theorem recordType_writes {ty : Ty} (hs : s.Drafting) (h : Ends (recordType ty) s (.ok ()) s') : s.Writes [] s' := by
  obtain ⟨-, rfl⟩ := Ends.modify_iff.1 h
  exact .congr hs rfl rfl

/-- A new slot is an instruction. -/
theorem alloca_writes {ty : Ty} {v : Value} (hs : s.Drafting) (h : Ends (build (.alloca ty)) s (.ok v) s') :
    ∃ k, v = .temp k ∧ s.Writes [.alloca k ty (.ptr ty)] s' := by
  rw [build_alloca_eq] at h
  obtain ⟨k, s₁, h₁, h₂⟩ := Ends.bind_ok_iff.1 h
  obtain ⟨hv, rfl⟩ := Ends.pure_iff.1 h₂
  obtain ⟨hk, ho, rfl⟩ | ⟨e, he, -⟩ := build_emitTemp h₁
  · cases hv
    cases hk
    have htaken := Writes.takeTemp hs
    exact ⟨_, rfl, htaken.trans (.push htaken.drafting ho _)⟩
  · cases he

theorem temporary_writes {ty : Ty} {v : Value} (hs : s.Drafting) (h : Ends (temporary ty) s (.ok v) s') :
    ∃ k, v = .temp k ∧ s.Writes [.alloca k ty (.ptr ty)] s' := by
  obtain ⟨_, s₁, h₁, h₂⟩ := Ends.bind_ok_iff.1 h
  have hopened := (openBlock_writes hs h₁).1
  obtain ⟨_, s₂, h₃, h₄⟩ := Ends.bind_ok_iff.1 h₂
  have hnoted := recordType_writes hopened.drafting h₃
  obtain ⟨k, hv, hslot⟩ := alloca_writes hnoted.drafting h₄
  exact ⟨k, hv, hopened.trans (hnoted.trans hslot)⟩

/-- The slot of a variable has the name of the variable in front. -/
theorem localVariable_writes {symbol : SymbolId} {name : String} {ty : Ty} {v : Value} (hs : s.Drafting)
    (h : Ends (localVariable symbol name ty) s (.ok v) s') :
    ∃ k, v = .temp k ∧ s.Writes [.comment (name ++ ": " ++ ty.text), .alloca k ty (.ptr ty)] s' := by
  obtain ⟨_, s₁, h₁, h₂⟩ := Ends.bind_ok_iff.1 h
  have hopened := (openBlock_writes hs h₁).1
  obtain ⟨_, s₂, h₃, h₄⟩ := Ends.bind_ok_iff.1 h₂
  have hnoted := hopened.trans (recordType_writes hopened.drafting h₃)
  obtain ⟨_, s₃, h₅, h₆⟩ := Ends.bind_ok_iff.1 h₄
  obtain ⟨-, ho, rfl⟩ | ⟨e, he, -⟩ := build_emit h₅
  · have hnamed := hnoted.trans (.push hnoted.drafting ho (.comment (name ++ ": " ++ ty.text)))
    obtain ⟨slot, s₄, h₇, h₈⟩ := Ends.bind_ok_iff.1 h₆
    obtain ⟨k, rfl, hslot⟩ := alloca_writes hnamed.drafting h₇
    rw [Ends.modify_bind_iff] at h₈
    obtain ⟨hv, rfl⟩ := Ends.pure_iff.1 h₈
    cases hv
    exact ⟨k, rfl, (hnamed.trans hslot).trans (.congr hslot.drafting rfl rfl)⟩
  · cases he

end Emit

end TypedCore
