import TypedCore.Proofs.Emitter.Growth

/-!
# The invariant of a function under construction

`Drafting s`: a function is being built in `s`, instructions go to its last block, labels are
distinct, and every block before the last one ends in its only terminator. All steps keep it, so it
holds from the start of a function to its end. Blocks are never taken away again: `Prefixed bs cs` says
that `cs` has the blocks of `bs` at the same places, with at least the same instructions.
-/

namespace TypedCore

open Ir

/-! ### Blocks -/

/-- No instruction before the last one leaves the block, and the successors are those of the
instructions. -/
structure Ir.Block.Tidy (b : Block) : Prop where
  inner : ∀ i ∈ b.instrs.dropLast, i.isTerminator = false
  successors : b.successors = b.instrs.flatMap (·.successors)

theorem Ir.Instr.successors_of_inner {i : Instr} (h : i.isTerminator = false) :
    i.successors = [] := by
  cases i <;> simp_all [Instr.isTerminator, Instr.successors]

namespace Ir.Block

theorem Tidy.empty (l : LabelId) : Tidy ⟨l, [], [], []⟩ := ⟨by simp, rfl⟩

theorem Tidy.all_plain {b : Block} (h : b.Tidy) (hb : b.hasTerminator = false) :
    ∀ i ∈ b.instrs, i.isTerminator = false := by
  intro i hi
  rcases List.eq_nil_or_concat b.instrs with hn | ⟨init, last, hn⟩
  · simp [hn] at hi
  · have hlast : last.isTerminator = false := by simpa [hasTerminator, terminator?, hn] using hb
    have hinner := h.inner
    simp only [hn, List.dropLast_concat, List.concat_eq_append] at hinner hi
    rcases List.mem_append.1 hi with hi | hi
    · exact hinner i hi
    · rw [List.mem_singleton.1 hi]; exact hlast

theorem Tidy.push {b : Block} (h : b.Tidy) (hb : b.hasTerminator = false) (i : Instr) :
    (b.push i).Tidy := by
  refine ⟨?_, ?_⟩
  · simpa [Block.push] using h.all_plain hb
  · simp [Block.push, h.successors]

theorem Tidy.successors_eq {b : Block} {init : List Instr} {term : Instr} (h : b.Tidy)
    (hb : b.instrs = init ++ [term]) : b.successors = term.successors := by
  have hinit : init.flatMap (·.successors) = [] := by
    refine List.flatMap_eq_nil_iff.2 fun i hi => Instr.successors_of_inner ?_
    exact h.inner i (by simpa [hb] using hi)
  rw [h.successors, hb, List.flatMap_append, hinit]
  simp

end Ir.Block

/-- The blocks `cs` are those of `bs` with instructions and further blocks added at the ends. -/
def Prefixed (bs cs : List Block) : Prop :=
  ∀ (n : Nat) (b : Block), bs[n]? = some b →
    ∃ c, cs[n]? = some c ∧ c.id = b.id ∧ b.instrs <+: c.instrs

namespace Prefixed

variable {bs cs ds : List Block}

theorem refl (bs : List Block) : Prefixed bs bs :=
  fun _ b h => ⟨b, h, rfl, List.prefix_rfl⟩

theorem trans (h : Prefixed bs cs) (h' : Prefixed cs ds) : Prefixed bs ds := by
  intro n b hb
  obtain ⟨c, hc, hid, hpre⟩ := h n b hb
  obtain ⟨d, hd, hid', hpre'⟩ := h' n c hc
  exact ⟨d, hd, hid'.trans hid, hpre.trans hpre'⟩

theorem append (bs cs : List Block) : Prefixed bs (bs ++ cs) := by
  intro n b hb
  have hn : n < bs.length := List.getElem?_eq_some_iff.1 hb |>.1
  exact ⟨b, by rw [List.getElem?_append_left hn, hb], rfl, List.prefix_rfl⟩

theorem push_last (pre : List Block) (b : Block) (i : Instr) :
    Prefixed (pre ++ [b]) (pre ++ [b.push i]) := by
  intro n c hc
  rcases Nat.lt_trichotomy n pre.length with hn | rfl | hn
  · rw [List.getElem?_append_left hn] at hc
    exact ⟨c, by rw [List.getElem?_append_left hn, hc], rfl, List.prefix_rfl⟩
  · simp only [List.getElem?_concat_length, Option.some.injEq] at hc
    subst hc
    exact ⟨b.push i, by simp, rfl, by simp [Block.push]⟩
  · rw [List.getElem?_eq_none (by simp; omega)] at hc
    cases hc

theorem length_le (h : Prefixed bs cs) : bs.length ≤ cs.length := by
  refine Nat.le_of_not_lt fun hlt => ?_
  obtain ⟨c, hc, -⟩ := h cs.length _ (List.getElem?_eq_getElem (by omega))
  simp at hc

theorem prefix_ids (h : Prefixed bs cs) : bs.map (·.id) <+: cs.map (·.id) := by
  rw [List.prefix_iff_getElem?]
  intro n hn
  have hn : n < bs.length := by simpa using hn
  obtain ⟨c, hc, hid, -⟩ := h n _ (List.getElem?_eq_getElem hn)
  simp [hc, hid]

end Prefixed

theorem mem_successors_modifyBlock {l target : LabelId} {i : Instr} {bs : List Block}
    (h : target ∈ (modifyBlock l (·.push i) bs).flatMap (·.successors)) :
    target ∈ bs.flatMap (·.successors) ∨ target ∈ i.successors := by
  induction bs with
  | nil => exact .inl h
  | cons b bs ih =>
    by_cases hb : b.id = l
    · simp only [modifyBlock, hb, if_true, List.flatMap_cons, Block.push, List.mem_append] at h ⊢
      tauto
    · simp only [modifyBlock, hb, if_false, List.flatMap_cons, List.mem_append] at h ⊢
      tauto

namespace Emitter

/-- A function is being built, and all is well so far. -/
structure Drafting (s : Emitter) : Prop where
  head : s.current.isSome
  /-- Instructions go to the last block. -/
  last : ∃ pre b, s.blocks = pre ++ [b] ∧ s.builder.current = some b.id
  nodup : s.defined.Nodup
  tidy : ∀ b ∈ s.blocks, b.Tidy
  /-- Control has left every block but the last. -/
  closed : ∀ b ∈ s.blocks.dropLast, b.hasTerminator = true

/-- The labels that control may go to from the blocks so far. -/
def targets (s : Emitter) : List LabelId := s.blocks.flatMap (·.successors)

theorem mem_targets_push {s : Emitter} {i : Instr} {l : LabelId} (h : l ∈ (s.push i).targets) :
    l ∈ s.targets ∨ l ∈ i.successors := by
  rw [targets, blocks_push] at h
  exact mem_successors_modifyBlock h

namespace Drafting

variable {s s' : Emitter}

theorem function_isSome (h : s.Drafting) : s.builder.function.isSome := by
  obtain ⟨pre, b, hb, -⟩ := h.last
  cases hf : s.builder.function with
  | none => simp [blocks, hf] at hb
  | some f => rfl

theorem not_mem_pre (h : s.Drafting) {pre : List Block} {b : Block} (hb : s.blocks = pre ++ [b]) :
    b.id ∉ pre.map (·.id) := by
  have hnd := h.nodup
  simp only [defined, hb, List.map_append, List.map_cons, List.map_nil] at hnd
  intro hmem
  exact (List.nodup_append.1 hnd).2.2 _ hmem _ (by simp) rfl

theorem currentBlock? (h : s.Drafting) {pre : List Block} {b : Block}
    (hb : s.blocks = pre ++ [b]) (hc : s.builder.current = some b.id) :
    s.builder.currentBlock? = some b := by
  obtain ⟨f, hf⟩ := Option.isSome_iff_exists.1 h.function_isSome
  have hfb : f.blocks = pre ++ [b] := by simpa [blocks, hf] using hb
  simp [Builder.currentBlock?, hf, hc, Function.block?, hfb, find?_last rfl (h.not_mem_pre hb)]

/-- The last block and whether it is open. -/
theorem exists_last (h : s.Drafting) :
    ∃ pre b, s.blocks = pre ++ [b] ∧ s.builder.current = some b.id ∧
      s.builder.currentBlock? = some b := by
  obtain ⟨pre, b, hb, hc⟩ := h.last
  exact ⟨pre, b, hb, hc, h.currentBlock? hb hc⟩

theorem acceptsInstr_eq (h : s.Drafting) {pre : List Block} {b : Block}
    (hb : s.blocks = pre ++ [b]) (hc : s.builder.current = some b.id) :
    s.acceptsInstr = !b.hasTerminator := by
  simp [Emitter.acceptsInstr, Builder.isTerminated, h.currentBlock? hb hc, hc]

theorem open_iff (h : s.Drafting) : s.Open ↔ s.acceptsInstr = true := by
  refine ⟨Open.acceptsInstr, fun ha => ?_⟩
  obtain ⟨pre, b, hb, hc, hcur⟩ := h.exists_last
  rw [h.acceptsInstr_eq hb hc] at ha
  exact ⟨b, hcur, by simpa using ha⟩

theorem blocks_push (h : s.Drafting) {pre : List Block} {b : Block} (hb : s.blocks = pre ++ [b])
    (hc : s.builder.current = some b.id) (i : Instr) :
    (s.push i).blocks = pre ++ [b.push i] := by
  rw [Emitter.blocks_push, hc, hb]
  exact modifyBlock_last rfl (h.not_mem_pre hb)

theorem push (h : s.Drafting) (hopen : s.Open) (i : Instr) : (s.push i).Drafting := by
  obtain ⟨pre, b, hb, hc, hcur⟩ := h.exists_last
  have hp := h.blocks_push hb hc i
  have hterm : b.hasTerminator = false := by
    obtain ⟨b', hb', ht⟩ := hopen
    rw [hcur] at hb'; cases hb'; exact ht
  refine ⟨h.head, ⟨pre, b.push i, hp, hc⟩, ?_, ?_, ?_⟩
  · simpa [defined, hp, hb, Block.push] using h.nodup
  · intro x hx
    rw [hp] at hx
    rcases List.mem_append.1 hx with hx | hx
    · exact h.tidy x (by simp [hb, hx])
    · rw [List.mem_singleton.1 hx]
      exact (h.tidy b (by simp [hb])).push hterm i
  · simpa [hp, hb] using h.closed

theorem startBlock (h : s.Drafting) (hclosed : s.acceptsInstr = false) {l : LabelId}
    (hl : l ∉ s.defined) : (s.startBlock l).Drafting := by
  obtain ⟨pre, b, hb, hc, hcur⟩ := h.exists_last
  have hs := blocks_startBlock (l := l) h.function_isSome
  have hterm : b.hasTerminator = true := by
    rw [h.acceptsInstr_eq hb hc] at hclosed
    simpa using hclosed
  refine ⟨h.head, ⟨s.blocks, _, hs, rfl⟩, ?_, ?_, ?_⟩
  · simp only [defined, hs, List.map_append, List.map_cons, List.map_nil]
    exact List.nodup_append.2 ⟨h.nodup, by simp, by
      intro x hx y hy; rw [List.mem_singleton.1 hy]; rintro rfl; exact hl hx⟩
  · intro x hx
    rw [hs] at hx
    rcases List.mem_append.1 hx with hx | hx
    · exact h.tidy x hx
    · rw [List.mem_singleton.1 hx]; exact Block.Tidy.empty l
  · intro x hx
    rw [hs, List.dropLast_concat, hb] at hx
    rcases List.mem_append.1 hx with hx | hx
    · exact h.closed x (by simpa [hb] using hx)
    · rw [List.mem_singleton.1 hx]; exact hterm

theorem open_startBlock (hs : s.Drafting) (hclosed : s.acceptsInstr = false) {l : LabelId}
    (hl : l ∉ s.defined) : (s.startBlock l).Open := by
  have hd := hs.startBlock hclosed hl
  have hb := blocks_startBlock (l := l) hs.function_isSome
  rw [hd.open_iff, hd.acceptsInstr_eq hb rfl]
  rfl

theorem congr (h : s.Drafting) (hb : s'.builder = s.builder) (hc : s'.current = s.current) :
    s'.Drafting := by
  have hblocks : s'.blocks = s.blocks := by simp only [blocks, hb]
  refine ⟨hc ▸ h.head, ?_, ?_, ?_, ?_⟩
  · rw [hblocks, hb]; exact h.last
  · rw [defined, hblocks]; exact h.nodup
  · rw [hblocks]; exact h.tidy
  · rw [hblocks]; exact h.closed

theorem step (h : s.Drafting) (hs : Step s s') : s'.Drafting := by
  cases hs with
  | label => exact ⟨h.head, h.last, h.nodup, h.tidy, h.closed⟩
  | temp => exact ⟨h.head, h.last, h.nodup, h.tidy, h.closed⟩
  | block l _ hclosed hl => exact h.startBlock hclosed hl
  | instr i hopen => exact h.push hopen i
  | note _ hb hc _ _ => exact h.congr hb hc

theorem steps (h : s.Drafting) (hs : Steps s s') : s'.Drafting := by
  induction hs with
  | refl => exact h
  | tail _ hstep ih => exact ih.step hstep

theorem prefixed_step (h : s.Drafting) (hs : Step s s') : Prefixed s.blocks s'.blocks := by
  cases hs with
  | label => exact .refl _
  | temp => exact .refl _
  | block l hf _ _ => rw [blocks_startBlock hf]; exact .append _ _
  | instr i _ =>
    obtain ⟨pre, b, hb, hc, -⟩ := h.exists_last
    rw [h.blocks_push hb hc, hb]
    exact .push_last pre b i
  | note _ hb _ _ _ => rw [show s'.blocks = s.blocks by simp only [blocks, hb]]; exact .refl _

/-- Blocks and instructions stay where they are. -/
theorem prefixed (h : s.Drafting) (hs : Steps s s') : Prefixed s.blocks s'.blocks := by
  induction hs with
  | refl => exact .refl _
  | tail hs hstep ih => exact ih.trans ((h.steps hs).prefixed_step hstep)

theorem defined_subset (h : s.Drafting) (hs : Steps s s') : s.defined ⊆ s'.defined :=
  ((h.prefixed hs).prefix_ids).subset

/-- A later block has another label. -/
theorem current_ne (h : s.Drafting) (hs : Steps s s') (hlen : s.blocks.length < s'.blocks.length)
    {l l' : LabelId} (hl : s.builder.current = some l) (hl' : s'.builder.current = some l') :
    l ≠ l' := by
  rintro rfl
  obtain ⟨pre, b, hb, hc⟩ := h.last
  obtain ⟨pre', b', hb', hc'⟩ := (h.steps hs).last
  obtain ⟨d, hd, hid, -⟩ := h.prefixed hs pre.length b (by simp [hb])
  have hsame : d.id = b'.id :=
    hid.trans (Option.some.inj ((hc.symm.trans hl).trans (hl'.symm.trans hc')))
  have hlt : pre.length < pre'.length := by simpa [hb, hb'] using hlen
  have hmem : d ∈ pre' := by
    rw [hb', List.getElem?_append_left hlt] at hd
    exact List.mem_of_getElem? hd
  exact (h.steps hs).not_mem_pre hb' (hsame ▸ List.mem_map_of_mem hmem)

end Drafting

end Emitter

end TypedCore
