import TypedCore.Proofs.Emitter.Function
import TypedCore.Proofs.Emitter.OpenBlocks

/-!
# The generator never gets stuck

`s.Steady`: no function is under construction in `s`, neither in the emitter nor in its builder, or one is and all is
well with it. Started in such a state, code ends in one, whether it fails or not. Labels are handed on from taking
them to starting their blocks: `Keeps P J x K` says that code `x` is given the labels `J`, which have no blocks yet,
starts blocks only at these and at labels that it takes itself, and leaves the labels `K` for the code after it. Its
faults satisfy `P`, unless there is no function to generate code for. Structured code fails for reasons that lie in
the program only (`Emits.safe`), and the builder never refuses it anything.
-/

namespace TypedCore

open Ir Lowering Emit

namespace Emitter

variable {s s' s₁ : Emitter} {J J₁ J₂ : List LabelId} {l : LabelId}

/-- No function is under construction, or one is and all is well with it. -/
inductive Steady (s : Emitter) : Prop
  | idle (hc : s.current = none) (hf : s.builder.function = none) (hb : s.builder.current = none)
  | building (hd : s.Drafting) (hl : ∀ l ∈ s.defined, l < s.labels)

/-- The labels `J` were taken, and have no blocks yet. -/
structure Reserves (s : Emitter) (J : List LabelId) : Prop where
  nodup : J.Nodup
  taken : ∀ l ∈ J, l < s.labels
  free : ∀ l ∈ J, l ∉ s.defined

/-- From `s` to `s'` blocks are started only at labels of `J` and at new ones. -/
structure Moves (J : List LabelId) (s s' : Emitter) : Prop where
  steady : s'.Steady
  labels_le : s.labels ≤ s'.labels
  defined : ∀ l ∈ s'.defined, l ∈ s.defined ∨ l ∈ J ∨ s.labels ≤ l

theorem defined_of_no_function (h : s.builder.function = none) : s.defined = [] := by
  simp [defined, blocks, h]

namespace Steady

theorem congr (h : s.Steady) (hb : s'.builder = s.builder) (hc : s'.current = s.current) : s'.Steady := by
  cases h with
  | idle hi hf hcur => exact .idle (hc.trans hi) (hb ▸ hf) (hb ▸ hcur)
  | building hd hl =>
    refine .building (hd.congr hb hc) ?_
    simpa only [defined, blocks, labels, hb] using hl

theorem takeLabel (h : s.Steady) : s.takeLabel.Steady := by
  cases h with
  | idle hc hf hb => exact .idle hc hf hb
  | building hd hl => exact .building (hd.step (.label s)) fun l h => Nat.lt_succ_of_lt (hl l h)

theorem defined_lt (h : s.Steady) : ∀ l ∈ s.defined, l < s.labels := by
  cases h with
  | idle _ hf _ => simp [defined_of_no_function hf]
  | building _ hl => exact hl

/-- Where instructions can be added there is a function. -/
theorem drafting (h : s.Steady) (hc : s.current.isSome) : s.Drafting := by
  cases h with
  | idle hn _ _ => simp [hn] at hc
  | building hd _ => exact hd

end Steady

namespace Reserves

theorem nil (s : Emitter) : s.Reserves [] := ⟨List.nodup_nil, by simp, by simp⟩

theorem left (h : s.Reserves (J₁ ++ J₂)) : s.Reserves J₁ :=
  ⟨(List.nodup_append.1 h.nodup).1, fun l hl => h.taken l (by simp [hl]), fun l hl => h.free l (by simp [hl])⟩

/-- What is not used stays reserved. -/
theorem right (h : s.Reserves (J₁ ++ J₂)) (hm : Moves J₁ s s') : s'.Reserves J₂ := by
  obtain ⟨-, hnd, hdisjoint⟩ := List.nodup_append.1 h.nodup
  have hlt (l : LabelId) (hl : l ∈ J₂) : l < s.labels := h.taken l (by simp [hl])
  refine ⟨hnd, fun l hl => Nat.lt_of_lt_of_le (hlt l hl) hm.labels_le, fun l hl hd => ?_⟩
  rcases hm.defined l hd with hd | hd | hd
  · exact h.free l (by simp [hl]) hd
  · exact hdisjoint l hd l hl rfl
  · exact Nat.not_lt.2 hd (hlt l hl)

theorem append (h₁ : s.Reserves J₁) (h₂ : s.Reserves J₂) (hne : ∀ l ∈ J₁, l ∉ J₂) : s.Reserves (J₁ ++ J₂) := by
  refine ⟨List.nodup_append.2 ⟨h₁.nodup, h₂.nodup, fun l hl l' hl' heq => hne l hl (heq ▸ hl')⟩, ?_, ?_⟩
  · exact fun l hl => (List.mem_append.1 hl).elim (h₁.taken l) (h₂.taken l)
  · exact fun l hl => (List.mem_append.1 hl).elim (h₁.free l) (h₂.free l)

theorem takeLabel (h : s.Reserves J) (hs : s.Steady) : s.takeLabel.Reserves (J ++ [s.labels]) := by
  have hkept : s.takeLabel.Reserves J := ⟨h.nodup, fun l hl => Nat.lt_succ_of_lt (h.taken l hl), h.free⟩
  have hnew : s.takeLabel.Reserves [s.labels] := by
    refine ⟨by simp, fun l hl => ?_, fun l hl hd => ?_⟩
    · rw [List.mem_singleton.1 hl]
      exact Nat.lt_succ_self _
    · rw [List.mem_singleton.1 hl] at hd
      exact Nat.lt_irrefl _ (hs.defined_lt _ hd)
  refine hkept.append hnew fun l hl hl' => ?_
  rw [List.mem_singleton.1 hl'] at hl
  exact Nat.lt_irrefl _ (h.taken _ hl)

end Reserves

namespace Moves

theorem refl (hs : s.Steady) : Moves J s s := ⟨hs, Nat.le_refl _, fun _ h => .inl h⟩

/-- The labels `J₂` are left from `J₁`, or new. -/
theorem trans (h : Moves J₁ s s₁) (h' : Moves J₂ s₁ s') (hJ : ∀ l ∈ J₂, l ∈ J₁ ∨ s.labels ≤ l) :
    Moves J₁ s s' := by
  refine ⟨h'.steady, Nat.le_trans h.labels_le h'.labels_le, fun l hl => ?_⟩
  rcases h'.defined l hl with hl | hl | hl
  · exact h.defined l hl
  · exact .inr (hJ l hl)
  · exact .inr (.inr (Nat.le_trans h.labels_le hl))

theorem mono (h : Moves J₁ s s') (hJ : J₁ ⊆ J₂) : Moves J₂ s s' :=
  ⟨h.steady, h.labels_le, fun l hl => (h.defined l hl).imp_right (·.imp_left fun hl => hJ hl)⟩

theorem congr (hs : s.Steady) (hb : s'.builder = s.builder) (hc : s'.current = s.current) : Moves J s s' := by
  refine ⟨hs.congr hb hc, ?_, ?_⟩
  · simp only [labels, hb, Nat.le_refl]
  · simp only [Emitter.defined, blocks, hb]
    exact fun _ h => .inl h

theorem takeLabel (hs : s.Steady) : Moves J s s.takeLabel :=
  ⟨hs.takeLabel, Nat.le_succ _, fun _ h => .inl h⟩

/-- No block is started. -/
theorem of_same (hs : s.Steady) (hd : s'.Drafting) (hdefined : s'.defined = s.defined)
    (hlabels : s'.labels = s.labels) : Moves J s s' := by
  refine ⟨.building hd ?_, Nat.le_of_eq hlabels.symm, ?_⟩
  · rw [hdefined, hlabels]
    exact hs.defined_lt
  · rw [hdefined]
    exact fun _ h => .inl h

end Moves

end Emitter

/-! ### What the builder grants -/

namespace Emit

open Emitter

variable {α β : Type} {s s' : Emitter}

theorem build_startBlock_ok {l : LabelId} (hf : s.builder.function.isSome) (hl : l ∉ s.defined) :
    Ends (build (.startBlock l)) s (.ok ()) (s.startBlock l) := by
  obtain ⟨f, hf⟩ := Option.isSome_iff_exists.1 hf
  have hl : (f.block? l).isSome = false := by simpa [Function.block?, defined, blocks, hf] using hl
  refine build_iff.2 ⟨.ok (), (s.startBlock l).builder, ?_, rfl, rfl⟩
  rw [BuilderM.startBlock, Ends.get_bind_iff]
  simp only [hf, hl, Bool.false_eq_true, if_false]
  exact Ends.set_iff.2 ⟨rfl, by simp [Emitter.startBlock, hf]⟩

theorem defined_startBlock {l : LabelId} (hf : s.builder.function.isSome) :
    (s.startBlock l).defined = s.defined ++ [l] := by
  simp [defined, blocks_startBlock hf]

/-- A new block is begun at a label that has none. -/
theorem moves_startBlock {l : LabelId} {J : List LabelId} (hd : s.Drafting) (hs : s.Steady)
    (hclosed : s.acceptsInstr = false) (hl : l ∉ s.defined) (hlt : l < s.labels) :
    Moves (l :: J) s (s.startBlock l) := by
  have hdefined := defined_startBlock (l := l) hd.function_isSome
  refine ⟨.building (hd.startBlock hclosed hl) ?_, Nat.le_refl _, ?_⟩
  · rw [hdefined]
    intro l' hl'
    rcases List.mem_append.1 hl' with hl' | hl'
    · exact hs.defined_lt l' hl'
    · rwa [List.mem_singleton.1 hl']
  · rw [hdefined]
    intro l' hl'
    rcases List.mem_append.1 hl' with hl' | hl'
    · exact .inl hl'
    · exact .inr (.inl (by simp [List.mem_singleton.1 hl']))

/-- If there is a function, there is a block for the next instruction. -/
theorem openBlock_steady (hs : s.Steady) {r : Except Fault Unit} (h : Ends openBlock s r s') :
    (r = .error .noFunction ∧ s.current = none ∧ s' = s) ∨ (r = .ok () ∧ s'.Drafting ∧ s'.Open ∧ Moves [] s s') := by
  obtain ⟨head, hc, h⟩ | ⟨hc, rfl, rfl⟩ := requireFunction_bind_iff.1 h
  · have hd := hs.drafting (by simp [hc])
    rw [Ends.get_bind_iff] at h
    cases ha : s.acceptsInstr with
    | true =>
      rw [ha] at h
      obtain ⟨rfl, rfl⟩ := Ends.pure_iff.1 h
      exact .inr ⟨rfl, hd, hd.open_iff.2 ha, .refl hs⟩
    | false =>
      rw [ha] at h
      have hl : s.labels ∉ s.takeLabel.defined := fun hl => Nat.lt_irrefl _ (hs.defined_lt _ hl)
      have hd' := hd.step (.label s)
      have hstart := build_startBlock_ok (s := s.takeLabel) hd.function_isSome hl
      have hok : Ends (build do Ir.BuilderM.startBlock (← .newLabel)) s (.ok ())
          (s.takeLabel.startBlock s.labels) := by
        rw [build_bind]
        exact Ends.bind_ok_iff.2 ⟨s.labels, s.takeLabel, createLabel_iff.2 ⟨rfl, rfl⟩, hstart⟩
      obtain ⟨rfl, rfl⟩ := Ends.unique h hok
      refine .inr ⟨rfl, hd'.startBlock ha hl, hd'.open_startBlock ha hl, ?_⟩
      have hnew : ∀ l ∈ [s.labels], l ∈ [] ∨ s.labels ≤ l := by simp
      exact (Moves.takeLabel hs).trans (moves_startBlock hd' hs.takeLabel ha hl (Nat.lt_succ_self _)) hnew
  · exact .inl ⟨rfl, hc, rfl⟩

/-- If there is a function, a label gets its block. -/
theorem defineLabel_steady {l : LabelId} (hs : s.Steady) (hl : s.Reserves [l]) {r : Except Fault Unit}
    (h : Ends (defineLabel l) s r s') :
    (r = .error .noFunction ∧ s.current = none ∧ s' = s) ∨ (r = .ok () ∧ Moves [l] s s') := by
  have hfree := hl.free l (by simp)
  have hlt := hl.taken l (by simp)
  obtain ⟨head, hc, h⟩ | ⟨hc, rfl, rfl⟩ := requireFunction_bind_iff.1 h
  · have hd := hs.drafting (by simp [hc])
    have hopen : s.isBlockOpen = s.acceptsInstr := by simp [isBlockOpen, state, hc]
    rw [Ends.get_bind_iff, hopen] at h
    cases ha : s.acceptsInstr with
    | true =>
      rw [ha] at h
      -- control falls into the new block
      have ho := hd.open_iff.2 ha
      have hpush := hd.push ho (.branch l)
      have hfree' : l ∉ (s.push (.branch l)).defined := by rwa [defined_push]
      have hstart := build_startBlock_ok (s := s.push (.branch l)) hpush.function_isSome hfree'
      obtain ⟨rfl, rfl⟩ := Ends.unique h (Ends.bind_ok_iff.2 ⟨(), _, build_emit_open ho _, hstart⟩)
      have hmove : Moves [l] s (s.push (.branch l)) := .of_same hs hpush (defined_push ..) rfl
      have hblock := moves_startBlock (J := []) hpush hmove.steady (ho.push_terminator rfl) hfree' hlt
      exact .inr ⟨rfl, hmove.trans hblock fun _ hl => .inl hl⟩
    | false =>
      rw [ha] at h
      obtain ⟨rfl, rfl⟩ := Ends.unique h (build_startBlock_ok hd.function_isSome hfree)
      exact .inr ⟨rfl, moves_startBlock hd hs ha hfree hlt⟩
  · exact .inl ⟨rfl, hc, rfl⟩

end Emit

/-! ### Code that keeps the state steady -/

open Emitter

variable {α β : Type} {P : Fault → Prop} {J L : List LabelId} {K : α → List LabelId} {K' : β → List LabelId}

/-- Started in `s`, `x` is given the labels `J` and leaves the labels `K` without their blocks. It keeps the state
steady, and fails by faults that satisfy `P` or because there is no function. -/
def KeepsAt (P : Fault → Prop) (J : List LabelId) (s : Emitter) (x : EmitM α) (K : α → List LabelId) : Prop :=
  ∀ ⦃r s'⦄, s.Steady → s.Reserves J → Ends x s r s' →
    Moves J s s' ∧ (∀ f, r = .error f → P f ∨ f = .noFunction ∧ s'.current = none) ∧
      ∀ a, r = .ok a → s'.Reserves (K a) ∧ ∀ l ∈ K a, l ∈ J ∨ s.labels ≤ l

def Keeps (P : Fault → Prop) (J : List LabelId) (x : EmitM α) (K : α → List LabelId) : Prop :=
  ∀ ⦃s⦄, KeepsAt P J s x K

/-- Code that starts blocks at labels of its own only. -/
abbrev Safe (P : Fault → Prop) (x : EmitM α) : Prop := Keeps P [] x fun _ => []

namespace KeepsAt

variable {s : Emitter}

/-- The second part gets the labels that the first one leaves. -/
theorem seq {x : EmitM α} {f : α → EmitM β} (hx : KeepsAt P J s x K)
    (hf : ∀ a s₁, Ends x s (.ok a) s₁ → KeepsAt P (K a) s₁ (f a) K') : KeepsAt P J s (x >>= f) K' := by
  intro r s' hs hJ h
  obtain ⟨a, s₁, h₁, h₂⟩ | ⟨e, rfl, h₁⟩ := Ends.bind_iff.1 h
  · obtain ⟨hm₁, -, hleft⟩ := hx hs hJ h₁
    obtain ⟨hK, hnew⟩ := hleft a rfl
    obtain ⟨hm₂, hfaults, hleft'⟩ := hf a s₁ h₁ hm₁.steady hK h₂
    refine ⟨hm₁.trans hm₂ hnew, hfaults, fun b hb => ⟨(hleft' b hb).1, fun l hl => ?_⟩⟩
    rcases (hleft' b hb).2 l hl with hl | hl
    · exact hnew l hl
    · exact .inr (Nat.le_trans hm₁.labels_le hl)
  · obtain ⟨hm₁, hfaults, -⟩ := hx hs hJ h₁
    exact ⟨hm₁, fun f hr => hfaults f (Except.error.inj hr ▸ rfl), by rintro _ ⟨⟩⟩

/-- Labels that are not meant for `x` are left as they are. -/
theorem frame {x : EmitM α} (hx : KeepsAt P J s x K) (L : List LabelId) :
    KeepsAt P (J ++ L) s x fun a => K a ++ L := by
  intro r s' hs hJ h
  obtain ⟨hm, hfaults, hleft⟩ := hx hs hJ.left h
  refine ⟨hm.mono (List.subset_append_left ..), hfaults, fun a ha => ?_⟩
  obtain ⟨hK, hnew⟩ := hleft a ha
  refine ⟨hK.append (hJ.right hm) fun l hl hL => ?_, fun l hl => ?_⟩
  · rcases hnew l hl with hl | hl
    · exact (List.nodup_append.1 hJ.nodup).2.2 l hl l hL rfl
    · exact Nat.not_lt.2 hl (hJ.taken l (by simp [hL]))
  · rcases List.mem_append.1 hl with hl | hl
    · exact (hnew l hl).imp_left fun hl => by simp [hl]
    · exact .inl (by simp [hl])

theorem imp {Q : Fault → Prop} {x : EmitM α} (h : KeepsAt P J s x K) (hPQ : ∀ f, P f → Q f) :
    KeepsAt Q J s x K := by
  intro r s' hs hJ hx
  obtain ⟨hm, hfaults, hleft⟩ := h hs hJ hx
  exact ⟨hm, fun f hr => (hfaults f hr).imp_left (hPQ f), hleft⟩

end KeepsAt

namespace Keeps

theorem pure (K : α → List LabelId) (a : α) : Keeps P (K a) (pure a) K := by
  intro s r s' hs hJ h
  obtain ⟨rfl, rfl⟩ := Ends.pure_iff.1 h
  refine ⟨.refl hs, by rintro _ ⟨⟩, ?_⟩
  rintro _ ⟨⟩
  exact ⟨hJ, fun _ hl => .inl hl⟩

theorem throw {f : Fault} (hf : P f) : Keeps P J (throw f : EmitM α) K := by
  intro s r s' hs _ h
  obtain ⟨rfl, rfl⟩ := Ends.throw_iff.1 h
  exact ⟨.refl hs, fun _ hr => .inl (Except.error.inj hr ▸ hf), by rintro _ ⟨⟩⟩

theorem seq {x : EmitM α} {f : α → EmitM β} (hx : Keeps P J x K) (hf : ∀ a, Keeps P (K a) (f a) K') :
    Keeps P J (x >>= f) K' :=
  fun _ => KeepsAt.seq (@hx _) fun a _ _ => @hf a _

theorem frame {x : EmitM α} (hx : Keeps P J x K) (L : List LabelId) : Keeps P (J ++ L) x fun a => K a ++ L :=
  fun _ => KeepsAt.frame (@hx _) L

theorem bind {x : EmitM α} {f : α → EmitM β} (hx : Safe P x) (hf : ∀ a, Keeps P J (f a) K') :
    Keeps P J (x >>= f) K' := (hx.frame J).seq hf

theorem get_bind {f : Emitter → EmitM β} (hf : ∀ s, Keeps P J (f s) K') : Keeps P J (get >>= f) K' :=
  fun s _ _ hs hJ h => hf s hs hJ (Ends.get_bind_iff.1 h)

/-! ### Labels -/

theorem createLabel : Keeps P J createLabel fun l => J ++ [l] := by
  intro s r s' hs hJ h
  obtain ⟨rfl, rfl⟩ := createLabel_iff.1 h
  refine ⟨.takeLabel hs, by rintro _ ⟨⟩, ?_⟩
  rintro _ ⟨⟩
  refine ⟨hJ.takeLabel hs, fun l hl => ?_⟩
  exact (List.mem_append.1 hl).imp_right fun hl => Nat.le_of_eq (List.mem_singleton.1 hl).symm

theorem defineLabel (l : LabelId) (J : List LabelId) : Keeps P (l :: J) (defineLabel l) fun _ => J := by
  refine Keeps.frame (J := [l]) (K := fun _ => []) ?_ J
  intro s r s' hs hJ h
  obtain ⟨rfl, hc, rfl⟩ | ⟨rfl, hm⟩ := defineLabel_steady hs hJ h
  · exact ⟨.refl hs, fun f hr => .inr ⟨(Except.error.inj hr).symm, hc⟩, by rintro _ ⟨⟩⟩
  · exact ⟨hm, by rintro _ ⟨⟩, fun _ _ => ⟨.nil _, by simp⟩⟩

end Keeps

namespace Safe

open Keeps (get_bind)

theorem pure (a : α) : Safe P (pure a) := Keeps.pure (fun _ => []) a

theorem lift {y : Except Fault α} (hy : ∀ f, y = .error f → P f) : Safe P (liftM y : EmitM α) := by
  intro s r s' hs _ h
  obtain ⟨rfl, rfl⟩ := Ends.lift_iff.1 h
  exact ⟨.refl hs, fun f hr => .inl (hy f hr), fun _ _ => ⟨.nil _, by simp⟩⟩

/-- Code that stands in one block. -/
theorem openBlock_bind {f : Unit → EmitM β}
    (hf : ∀ ⦃s r s'⦄, s.Drafting → s.Open → Ends (f ()) s r s' →
      (∃ a, r = .ok a) ∧ s'.Drafting ∧ s'.defined = s.defined ∧ s'.labels = s.labels) :
    Safe P (openBlock >>= f) := by
  intro s r s' hs _ h
  obtain ⟨_, s₁, h₁, h₂⟩ | ⟨e, rfl, h₁⟩ := Ends.bind_iff.1 h
  · obtain ⟨h₁, -⟩ | ⟨-, hd, ho, hm⟩ := openBlock_steady hs h₁
    · cases h₁
    · obtain ⟨⟨a, rfl⟩, hd', hdefined, hlabels⟩ := hf hd ho h₂
      have hsame : Moves [] s₁ s' := .of_same hm.steady hd' hdefined hlabels
      exact ⟨hm.trans hsame (by simp), by rintro _ ⟨⟩, fun _ _ => ⟨.nil _, by simp⟩⟩
  · obtain ⟨hr, hc, rfl⟩ | ⟨hr, -⟩ := openBlock_steady hs h₁
    · cases hr
      exact ⟨.refl hs, fun f hr => .inr ⟨(Except.error.inj hr).symm, hc⟩, by rintro _ ⟨⟩⟩
    · cases hr

theorem inside {f : Unit → EmitM β} (hf : Inside (f ())) : Safe P (openBlock >>= f) := by
  refine openBlock_bind fun s r s' hd ho h => ?_
  obtain ⟨hr, hd', -, hdefined, hlabels⟩ := hf hd ho h
  exact ⟨hr, hd', hdefined, hlabels⟩

theorem instr (i : Instr) : Safe P (openBlock >>= fun _ => build (.emit i)) := by
  refine openBlock_bind fun s r s' hd ho h => ?_
  obtain ⟨rfl, rfl⟩ := Ends.unique h (build_emit_open ho i)
  exact ⟨⟨(), rfl⟩, hd.push ho i, defined_push .., rfl⟩

theorem jump (target : LabelId) : Safe P (Emit.jump target) := instr _

theorem condJump (v : Value) (onTrue onFalse : LabelId) : Safe P (Emit.condJump v onTrue onFalse) := instr _

theorem merge (incoming : List (Value × LabelId)) (ty : Ty) : Safe P (Emit.merge incoming ty) :=
  inside (Inside.bind (.emitTemp fun _ => rfl) fun _ => .pure _)

theorem temporary (ty : Ty) : Safe P (Emit.temporary ty) :=
  inside ((Inside.recordType ty).bind fun _ => .alloca ty)

theorem localVariable (symbol : SymbolId) (name : String) (ty : Ty) : Safe P (Emit.localVariable symbol name ty) :=
  inside <| (Inside.recordType ty).bind fun _ => (Inside.emit rfl).bind fun _ => (Inside.alloca ty).bind fun slot =>
    (Inside.note (f := fun e => { e with locals := (symbol, slot) :: e.locals }) (fun _ => rfl) fun _ => rfl).bind
      fun _ => .pure _

theorem note {f : Emitter → Emitter} (hb : ∀ s, (f s).builder = s.builder)
    (hc : ∀ s, (f s).current = s.current) : Safe P (modify f) := by
  intro s r s' hs _ h
  obtain ⟨rfl, rfl⟩ := Ends.modify_iff.1 h
  exact ⟨.congr hs (hb s) (hc s), by rintro _ ⟨⟩, fun _ _ => ⟨.nil _, by simp⟩⟩

theorem currentLabel : Safe P currentLabel := by
  intro s r s' hs _ h
  rw [Lowering.currentLabel, Ends.get_bind_iff] at h
  split at h
  · obtain ⟨rfl, rfl⟩ := Ends.pure_iff.1 h
    exact ⟨.refl hs, by rintro _ ⟨⟩, fun _ _ => ⟨.nil _, by simp⟩⟩
  · rename_i hl
    obtain ⟨rfl, rfl⟩ := Ends.throw_iff.1 h
    refine ⟨.refl hs, fun f hr => .inr ⟨(Except.error.inj hr).symm, ?_⟩, by rintro _ ⟨⟩⟩
    cases hs with
    | idle hc _ _ => exact hc
    | building hd _ =>
      obtain ⟨pre, b, -, hc⟩ := hd.last
      cases hc.symm.trans hl

theorem jumpIfOpen (l : LabelId) : Safe P (jumpIfOpen l) := by
  refine get_bind fun s => ?_
  split
  · exact jump l
  · exact pure _

end Safe

/-! ### Expressions -/

/-- Structured code fails for reasons that lie in the program. -/
theorem Emits.safe {k : Exit} {x : EmitM α} (h : Emits k x) : Safe (fun f => f.isOfProgram = true) x := by
  induction h with
  | pure a => exact .pure a
  | throw k f hf => exact .throw hf
  | lift y hy => exact .lift fun f hf => Fault.isOfProgram_of_isOfType (hy f hf)
  | bind _ _ ihx ihf => exact ihx.bind ihf
  | instr i _ => exact .instr i
  | temp i hi => exact .inside (.emitTemp fun r => Instr.isTerminator_of_isPlain (hi r))
  | slot ty => exact .temporary ty
  | symbol id name storage =>
    intro s r s' hs _ h
    obtain ⟨rfl, hfault⟩ := symbolAddress_ends h
    exact ⟨.refl hs, fun f hf => .inl (by rw [hfault f hf]; rfl), fun _ _ => ⟨.nil _, by simp⟩⟩
  | text text =>
    intro s r s' hs _ h
    obtain ⟨g, n, rfl, rfl, -⟩ := stringLiteral_ends h
    exact ⟨.congr hs rfl rfl, by rintro _ ⟨⟩, fun _ _ => ⟨.nil _, by simp⟩⟩
  | materialize _ ih =>
    refine Keeps.createLabel.seq fun onTrue => Keeps.createLabel.seq fun onFalse => Keeps.createLabel.seq fun done => ?_
    refine (ih onTrue onFalse).bind fun _ => (Keeps.defineLabel onTrue [onFalse, done]).seq fun _ => ?_
    refine (Safe.jump done).bind fun _ => (Keeps.defineLabel onFalse [done]).seq fun _ => ?_
    exact (Safe.jump done).bind fun _ => (Keeps.defineLabel done []).seq fun _ => Safe.merge _ _
  | choice _ _ _ ihc iha ihb =>
    refine Keeps.createLabel.seq fun onTrue => Keeps.createLabel.seq fun onFalse => Keeps.createLabel.seq fun done => ?_
    refine (ihc onTrue onFalse).bind fun _ => (Keeps.defineLabel onTrue [onFalse, done]).seq fun _ => iha.bind fun _ =>
      Safe.currentLabel.bind fun _ => (Safe.jump done).bind fun _ => ?_
    refine (Keeps.defineLabel onFalse [done]).seq fun _ => ihb.bind fun _ =>
      Safe.currentLabel.bind fun _ => (Safe.jump done).bind fun _ => (Keeps.defineLabel done []).seq fun _ => ?_
    split
    · exact Safe.pure _
    · exact (Safe.lift fun f hf => Fault.isOfProgram_of_isOfType (TypeTable.layout_blames _ f hf)).bind
        fun _ => Safe.merge _ _
  | jump _ => exact .jump _
  | condJump v onTrue onFalse => exact .condJump v onTrue onFalse
  | swap _ ih => exact ih
  | both onTrue onFalse _ _ ihl ihr =>
    exact Keeps.createLabel.seq fun check => (ihl check onFalse).bind fun _ =>
      (Keeps.defineLabel check []).seq fun _ => ihr onTrue onFalse
  | either onTrue onFalse _ _ ihl ihr =>
    exact Keeps.createLabel.seq fun check => (ihl onTrue check).bind fun _ =>
      (Keeps.defineLabel check []).seq fun _ => ihr onTrue onFalse

end TypedCore
