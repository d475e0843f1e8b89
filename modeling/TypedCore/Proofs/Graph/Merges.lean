import TypedCore.Proofs.Emitter.OpenBlocks
import TypedCore.Proofs.Graph.Targets

/-!
# Merged values match the ways into their block

A merge has one value for each block that control may come from. While code is generated this is an
invariant, `s.Merged J`: the merges so far match the edges so far, and none of them is in a block with
a label of `J`, the labels that control may still be sent to. `Merges J x`: `x` keeps that, and every
edge it adds leads to a label of `J` or to one that `x` takes itself. So the edges into the block of a
merge are those that were there when it was emitted.
-/

namespace TypedCore

open Ir Lowering Emit

/-! ### Merges of a block -/

def Ir.Instr.isPhi : Instr → Bool
  | .phi .. => true
  | _ => false

/-- The merges of a block stand before all else, and each has one value for every label that
satisfies `P`. -/
structure Ir.Block.PhisFrom (b : Block) (P : LabelId → Prop) : Prop where
  first : ∀ pre i post, b.instrs = pre ++ i :: post → i.isPhi = true → ∀ j ∈ pre, j.isPhi = true
  nodup : ∀ r incoming ty, .phi r incoming ty ∈ b.instrs → (incoming.map (·.2)).Nodup
  labels : ∀ r incoming ty, .phi r incoming ty ∈ b.instrs → ∀ l, l ∈ incoming.map (·.2) ↔ P l

namespace Ir.Block.PhisFrom

variable {b : Block} {P Q : LabelId → Prop}

theorem of_no_phi (h : ∀ i ∈ b.instrs, i.isPhi = false) : b.PhisFrom P := by
  have hno : ∀ i ∈ b.instrs, i.isPhi ≠ true := fun i hi => by simp [h i hi]
  refine ⟨fun pre i post hb hi => ?_, fun r incoming ty hi => ?_, fun r incoming ty hi => ?_⟩
  · exact absurd hi (hno i (by simp [hb]))
  · exact absurd rfl (hno _ hi)
  · exact absurd rfl (hno _ hi)

/-- Only a block with a merge depends on the labels. -/
theorem congr {c : Block} (h : b.PhisFrom P) (hc : c.instrs = b.instrs)
    (hPQ : ∀ i ∈ b.instrs, i.isPhi = true → ∀ l, P l ↔ Q l) : c.PhisFrom Q := by
  refine ⟨?_, ?_, ?_⟩ <;> rw [hc]
  · exact h.first
  · exact h.nodup
  · intro r incoming ty hi l
    exact (h.labels r incoming ty hi l).trans (hPQ _ hi rfl l)

theorem push (h : b.PhisFrom P) {i : Instr} (hi : i.isPhi = false) : (b.push i).PhisFrom P := by
  have hmem : ∀ j, j.isPhi = true → j ∈ (b.push i).instrs → j ∈ b.instrs := by
    intro j hj hmem
    rcases List.mem_append.1 hmem with hmem | hmem
    · exact hmem
    · rw [List.mem_singleton.1 hmem, hi] at hj
      cases hj
  refine ⟨fun pre j post hb hj => ?_, fun r incoming ty hj => ?_, fun r incoming ty hj => ?_⟩
  · -- the merge is not the new instruction, so the rest of the old block follows it
    replace hb : b.instrs ++ [i] = pre ++ j :: post := hb
    rcases List.eq_nil_or_concat post with rfl | ⟨post, last, rfl⟩
    · have hij := (List.append_inj' hb rfl).2
      cases hij
      rw [hi] at hj
      cases hj
    · rw [List.concat_eq_append, ← List.cons_append, ← List.append_assoc] at hb
      exact h.first pre j post (List.append_inj' hb rfl).1 hj
  · exact h.nodup r incoming ty (hmem _ rfl hj)
  · exact h.labels r incoming ty (hmem _ rfl hj)

/-- A merge at the start of a block. -/
theorem push_phi {r : TempId} {incoming : List (Value × LabelId)} {ty : Ty} (hb : b.instrs = [])
    (hnodup : (incoming.map (·.2)).Nodup) (hlabels : ∀ l, l ∈ incoming.map (·.2) ↔ P l) :
    (b.push (.phi r incoming ty)).PhisFrom P := by
  have hpush : (b.push (.phi r incoming ty)).instrs = [.phi r incoming ty] := by simp [Block.push, hb]
  refine ⟨?_, ?_, ?_⟩ <;> rw [hpush]
  · intro pre i post heq _ j hj
    have hlen := congrArg List.length heq
    simp only [List.length_append, List.length_cons, List.length_nil] at hlen
    rw [List.eq_nil_of_length_eq_zero (by omega : pre.length = 0)] at hj
    cases hj
  · intro r' incoming' ty' hi
    cases List.mem_singleton.1 hi
    exact hnodup
  · intro r' incoming' ty' hi
    cases List.mem_singleton.1 hi
    exact hlabels

end Ir.Block.PhisFrom

theorem Ir.Instr.isPhi_of_isPlain {i : Instr} (h : i.isPlain = true) : i.isPhi = false := by
  cases i <;> simp_all [Instr.isPlain, Instr.isPhi]

namespace Emitter

/-! ### Edges -/

/-- Control may go from the block `l` to the label `m`. -/
def Leads (s : Emitter) (l m : LabelId) : Prop := ∃ b ∈ s.blocks, b.id = l ∧ m ∈ b.successors

variable {s s' : Emitter} {J : List LabelId}

namespace Drafting

theorem leads_push (hs : s.Drafting) (i : Instr) {l m : LabelId} :
    (s.push i).Leads l m ↔ s.Leads l m ∨ (s.builder.current = some l ∧ m ∈ i.successors) := by
  obtain ⟨pre, b, hb, hc, -⟩ := hs.exists_last
  simp only [Leads, hs.blocks_push hb hc, hb, hc, List.mem_append, List.mem_singleton, Block.push,
    Option.some.injEq]
  constructor
  · rintro ⟨x, hx | rfl, hid, hm⟩
    · exact .inl ⟨x, .inl hx, hid, hm⟩
    · rcases List.mem_append.1 hm with hm | hm
      · exact .inl ⟨b, .inr rfl, hid, hm⟩
      · exact .inr ⟨hid, hm⟩
  · rintro (⟨x, hx | rfl, hid, hm⟩ | ⟨hid, hm⟩)
    · exact ⟨x, .inl hx, hid, hm⟩
    · exact ⟨_, .inr rfl, hid, List.mem_append_left _ hm⟩
    · exact ⟨_, .inr rfl, hid, List.mem_append_right _ hm⟩

theorem leads_startBlock (hs : s.Drafting) {l m n : LabelId} :
    (s.startBlock n).Leads l m ↔ s.Leads l m := by
  simp [Leads, blocks_startBlock hs.function_isSome, or_and_right, exists_or]

/-- Edges stay. -/
theorem leads_steps (hs : s.Drafting) (h : Steps s s') {l m : LabelId} (hl : s.Leads l m) :
    s'.Leads l m := by
  induction h with
  | refl => exact hl
  | @tail s₁ _ hsteps hstep ih =>
    have hs₁ := hs.steps hsteps
    cases hstep with
    | label => exact ih
    | temp => exact ih
    | block l _ _ _ => exact hs₁.leads_startBlock.2 ih
    | instr i _ => exact (hs₁.leads_push i).2 (.inl ih)
    | note _ hb _ _ _ => simpa only [Leads, blocks, hb] using ih

/-- The blocks after an instruction is added are those before, but for the last one. -/
theorem forall_push (hs : s.Drafting) {i : Instr} {pre : List Block} {b : Block} {P : Block → Prop}
    (hb : s.blocks = pre ++ [b]) (hc : s.builder.current = some b.id) (hP : ∀ c ∈ s.blocks, P c)
    (hnew : P (b.push i)) : ∀ c ∈ (s.push i).blocks, P c := by
  intro c hmem
  rw [hs.blocks_push hb hc] at hmem
  rcases List.mem_append.1 hmem with hmem | hmem
  · exact hP c (by simp [hb, hmem])
  · exact List.mem_singleton.1 hmem ▸ hnew

end Drafting

/-! ### The invariant -/

/-- The merges so far match the edges so far, and control is not sent to their blocks again, but at
most to the labels in `J` and to new ones. -/
structure Merged (s : Emitter) (J : List LabelId) : Prop extends s.Drafting where
  defined_lt : ∀ l ∈ s.defined, l < s.labels
  leads_lt : ∀ l m, s.Leads l m → m < s.labels
  ahead : ∀ l ∈ J, l < s.labels
  matched : ∀ b ∈ s.blocks, b.PhisFrom (s.Leads · b.id)
  free : ∀ b ∈ s.blocks, b.id ∈ J → ∀ i ∈ b.instrs, i.isPhi = false

namespace Merged

theorem mono {K : List LabelId} (h : s.Merged K) (hJ : J ⊆ K) : s.Merged J :=
  ⟨h.toDrafting, h.defined_lt, h.leads_lt, fun l hl => h.ahead l (hJ hl), h.matched,
    fun b hb hl => h.free b hb (hJ hl)⟩

theorem congr (h : s.Merged J) (hb : s'.builder = s.builder) (hc : s'.current = s.current) :
    s'.Merged J := by
  have hblocks : s'.blocks = s.blocks := by simp only [blocks, hb]
  have hlabels : s'.labels = s.labels := by simp only [labels, hb]
  have hleads : ∀ l m, s'.Leads l m ↔ s.Leads l m := fun l m => by simp only [Leads, hblocks]
  refine ⟨h.toDrafting.congr hb hc, ?_, ?_, ?_, ?_, ?_⟩
  · simpa only [defined, hblocks, hlabels] using h.defined_lt
  · simpa only [hleads, hlabels] using h.leads_lt
  · simpa only [hlabels] using h.ahead
  · simpa only [hblocks, hleads] using h.matched
  · simpa only [hblocks] using h.free

theorem takeTemp (h : s.Merged J) : s.takeTemp.Merged J :=
  ⟨h.toDrafting.step (.temp s), h.defined_lt, h.leads_lt, h.ahead, h.matched, h.free⟩

/-- Control may be sent to a new label. -/
theorem takeLabel (h : s.Merged J) : s.takeLabel.Merged (s.labels :: J) := by
  refine ⟨h.toDrafting.step (.label s), ?_, ?_, ?_, h.matched, ?_⟩
  · exact fun l hl => Nat.lt_succ_of_lt (h.defined_lt l hl)
  · exact fun l m hm => Nat.lt_succ_of_lt (h.leads_lt l m hm)
  · intro l hl
    rcases List.mem_cons.1 hl with rfl | hl
    · exact Nat.lt_succ_self _
    · exact Nat.lt_succ_of_lt (h.ahead l hl)
  · intro b hb hl
    rcases List.mem_cons.1 hl with hl | hl
    · exact absurd (hl ▸ h.defined_lt b.id (List.mem_map_of_mem hb)) (Nat.lt_irrefl _)
    · exact h.free b hb hl

theorem startBlock (h : s.Merged J) (hclosed : s.acceptsInstr = false) {l : LabelId}
    (hl : l ∉ s.defined) (hlt : l < s.labels) : (s.startBlock l).Merged J := by
  have hs := blocks_startBlock (l := l) h.function_isSome
  have hcases : ∀ {P : Block → Prop}, (∀ b ∈ s.blocks, P b) → P ⟨l, [], [], []⟩ →
      ∀ b ∈ (s.startBlock l).blocks, P b := by
    intro P hP hnew b hb
    rw [hs] at hb
    rcases List.mem_append.1 hb with hb | hb
    · exact hP b hb
    · exact List.mem_singleton.1 hb ▸ hnew
  refine ⟨h.toDrafting.startBlock hclosed hl, ?_, ?_, h.ahead, ?_, ?_⟩
  · simp only [defined, hs, List.map_append, List.mem_append, List.map_cons, List.map_nil,
      List.mem_singleton]
    rintro l' (hl' | rfl)
    · exact h.defined_lt l' hl'
    · exact hlt
  · exact fun l m hm => h.leads_lt l m (h.leads_startBlock.1 hm)
  · refine hcases (fun b hb => ?_) (.of_no_phi (by simp))
    exact (h.matched b hb).congr rfl fun _ _ _ _ => h.leads_startBlock.symm
  · exact hcases h.free (by simp)

/-- An instruction that is no merge goes only to labels of `J`. -/
theorem push (h : s.Merged J) (hopen : s.Open) {i : Instr} (hi : i.isPhi = false)
    (hJ : ∀ m ∈ i.successors, m ∈ J) : (s.push i).Merged J := by
  obtain ⟨pre, b, hb, hc, -⟩ := h.exists_last
  have hmem : b ∈ s.blocks := by simp [hb]
  -- no block with a merge gets a new edge
  have hleads : ∀ c ∈ s.blocks, ∀ j ∈ c.instrs, j.isPhi = true →
      ∀ l, s.Leads l c.id ↔ (s.push i).Leads l c.id := by
    intro c hc j hj hphi l
    rw [h.leads_push]
    refine ⟨.inl, ?_⟩
    rintro (hl | ⟨-, hm⟩)
    · exact hl
    · rw [h.free c hc (hJ _ hm) j hj] at hphi
      cases hphi
  refine ⟨h.toDrafting.push hopen i, ?_, ?_, h.ahead, ?_, ?_⟩
  · rw [defined_push]
    exact h.defined_lt
  · intro l m hm
    rcases (h.leads_push i).1 hm with hm | ⟨-, hm⟩
    · exact h.leads_lt l m hm
    · exact h.ahead m (hJ m hm)
  · refine h.forall_push hb hc (fun c hc => ?_) ?_
    · exact (h.matched c hc).congr rfl (hleads c hc)
    · exact ((h.matched b hmem).congr rfl (hleads b hmem)).push hi
  · refine h.forall_push hb hc h.free fun hid j hj => ?_
    rcases List.mem_append.1 hj with hj | hj
    · exact h.free b hmem hid j hj
    · rw [List.mem_singleton.1 hj]
      exact hi

/-- A merge of the ways into a new block. -/
theorem push_phi (h : s.Merged J) (hopen : s.Open) {pre : List Block} {b : Block} {r : TempId}
    {incoming : List (Value × LabelId)} {ty : Ty} (hb : s.blocks = pre ++ [b])
    (hc : s.builder.current = some b.id) (hempty : b.instrs = []) (hJ : b.id ∉ J)
    (hnodup : (incoming.map (·.2)).Nodup) (hlabels : ∀ l, l ∈ incoming.map (·.2) ↔ s.Leads l b.id) :
    (s.push (.phi r incoming ty)).Merged J := by
  have hleads : ∀ l m, (s.push (.phi r incoming ty)).Leads l m ↔ s.Leads l m := fun l m => by
    rw [h.leads_push]
    simp [Instr.successors]
  refine ⟨h.toDrafting.push hopen _, ?_, ?_, h.ahead, ?_, ?_⟩
  · rw [defined_push]
    exact h.defined_lt
  · exact fun l m hm => h.leads_lt l m ((hleads l m).1 hm)
  · simp only [hleads]
    exact h.forall_push hb hc h.matched (.push_phi hempty hnodup hlabels)
  · exact h.forall_push hb hc h.free fun hid => absurd hid hJ

end Merged

/-- From `s` to `s'` edges are added only to labels of `J` and to new ones. -/
structure Adds (J : List LabelId) (s s' : Emitter) : Prop where
  labels_le : s.labels ≤ s'.labels
  leads : ∀ l m, s'.Leads l m → s.Leads l m ∨ m ∈ J ∨ s.labels ≤ m

namespace Adds

theorem of_leads (hlabels : s.labels ≤ s'.labels) (h : ∀ l m, s'.Leads l m → s.Leads l m) :
    Adds J s s' :=
  ⟨hlabels, fun l m hm => .inl (h l m hm)⟩

theorem refl (J : List LabelId) (s : Emitter) : Adds J s s := .of_leads (Nat.le_refl _) fun _ _ => id

theorem trans {s'' : Emitter} (h : Adds J s s') (h' : Adds J s' s'') : Adds J s s'' := by
  refine ⟨Nat.le_trans h.labels_le h'.labels_le, fun l m hm => ?_⟩
  rcases h'.leads l m hm with hm | hm | hm
  · exact h.leads l m hm
  · exact .inr (.inl hm)
  · exact .inr (.inr (Nat.le_trans h.labels_le hm))

theorem mono {K : List LabelId} (h : Adds J s s') (hJ : J ⊆ K) : Adds K s s' :=
  ⟨h.labels_le, fun l m hm => (h.leads l m hm).imp_right (Or.imp_left (hJ ·))⟩

/-- A label that is taken first is a new one. -/
theorem of_takeLabel (h : Adds (s.labels :: J) s.takeLabel s') : Adds J s s' := by
  refine ⟨Nat.le_trans (Nat.le_succ _) h.labels_le, fun l m hm => ?_⟩
  rcases h.leads l m hm with hm | hm | hm
  · exact .inl hm
  · rcases List.mem_cons.1 hm with rfl | hm
    · exact .inr (.inr (Nat.le_refl _))
    · exact .inr (.inl hm)
  · exact .inr (.inr (Nat.le_trans (Nat.le_succ _) hm))

end Adds

/-- The blocks that control comes to `done` from are `ls`. -/
def Joins (s : Emitter) (done : LabelId) (ls : List LabelId) : Prop := ∀ l, s.Leads l done ↔ l ∈ ls

theorem Joins.keep {done : LabelId} {ls : List LabelId} (h : s.Joins done ls) (hs : s.Drafting)
    (hsteps : Steps s s') (hadds : Adds J s s') (hJ : done ∉ J) (hlt : done < s.labels) :
    s'.Joins done ls := by
  intro l
  rw [← h l]
  refine ⟨fun hl => ?_, hs.leads_steps hsteps⟩
  rcases hadds.leads l done hl with hl | hl | hl
  · exact hl
  · exact absurd hl hJ
  · exact absurd hlt (Nat.not_lt.2 hl)

end Emitter

open Emitter

variable {α β : Type}

/-- The code of `x` keeps merges right while control may be sent to `J`. -/
def Merges (J : List LabelId) (x : EmitM α) : Prop :=
  ∀ ⦃s a s'⦄, s.Merged J → Ends x s (.ok a) s' → s'.Merged J ∧ Adds J s s'

namespace Merges

variable {J : List LabelId}

theorem pure (a : α) : Merges J (pure a) := by
  intro s _ s' hs h
  obtain ⟨-, rfl⟩ := Ends.pure_iff.1 h
  exact ⟨hs, .refl J _⟩

theorem throw (f : Fault) : Merges J (throw f : EmitM α) := by
  intro s _ s' _ h
  cases (Ends.throw_iff.1 h).1

theorem lift (y : Except Fault α) : Merges J (liftM y : EmitM α) := by
  intro s _ s' hs h
  obtain ⟨-, rfl⟩ := Ends.lift_iff.1 h
  exact ⟨hs, .refl J _⟩

theorem bind {x : EmitM α} {f : α → EmitM β} (hx : Merges J x) (hf : ∀ a, Merges J (f a)) :
    Merges J (x >>= f) := by
  intro s b s' hs h
  obtain ⟨a, s₁, h₁, h₂⟩ := Ends.bind_ok_iff.1 h
  obtain ⟨hs₁, hadds⟩ := hx hs h₁
  obtain ⟨hs', hadds'⟩ := hf a hs₁ h₂
  exact ⟨hs', hadds.trans hadds'⟩

theorem get_bind {f : Emitter → EmitM β} (hf : ∀ s, Merges J (f s)) : Merges J (get >>= f) :=
  fun s _ _ hs h => hf s hs (Ends.get_bind_iff.1 h)

/-- Nothing leads to a label that has just been taken. -/
theorem createLabel_join {f : LabelId → EmitM β}
    (hf : ∀ ⦃done s b s'⦄, s.Merged (done :: J) → done ∉ J → s.Joins done [] →
      Ends (f done) s (.ok b) s' → s'.Merged J ∧ Adds (done :: J) s s') :
    Merges J (createLabel >>= f) := by
  intro s b s' hs h
  obtain ⟨done, s₁, h₁, h₂⟩ := Ends.bind_ok_iff.1 h
  obtain ⟨hdone, rfl⟩ := createLabel_iff.1 h₁
  cases hdone
  have hJ : s.labels ∉ J := fun hmem => Nat.lt_irrefl _ (hs.ahead _ hmem)
  have hjoins : s.takeLabel.Joins s.labels [] := fun l =>
    ⟨fun hl => absurd (hs.leads_lt l _ hl) (Nat.lt_irrefl _), by simp⟩
  obtain ⟨hs', hadds⟩ := hf hs.takeLabel hJ hjoins h₂
  exact ⟨hs', hadds.of_takeLabel⟩

/-- Control may be sent to a label once it is taken. -/
theorem createLabel_bind {f : LabelId → EmitM β} (hf : ∀ l, Merges (l :: J) (f l)) :
    Merges J (createLabel >>= f) :=
  createLabel_join fun _ _ _ _ hs _ _ h =>
    ⟨(hf _ hs h).1.mono (List.subset_cons_self _ _), (hf _ hs h).2⟩

theorem startBlock {s : Emitter} {l : LabelId} (hs : s.Merged J) (hclosed : s.acceptsInstr = false)
    (hl : l ∉ s.defined) (hlt : l < s.labels) :
    (s.startBlock l).Merged J ∧ Adds J s (s.startBlock l) :=
  ⟨hs.startBlock hclosed hl hlt, .of_leads (Nat.le_refl _) fun _ _ => hs.leads_startBlock.1⟩

theorem push {s : Emitter} {i : Instr} (hs : s.Merged J) (hopen : s.Open) (hi : i.isPhi = false)
    (hJ : ∀ m ∈ i.successors, m ∈ J) : (s.push i).Merged J ∧ Adds J s (s.push i) := by
  refine ⟨hs.push hopen hi hJ, Nat.le_refl _, fun l m hm => ?_⟩
  rcases (hs.leads_push i).1 hm with hm | ⟨-, hm⟩
  · exact .inl hm
  · exact .inr (.inl (hJ m hm))

theorem openBlock : Merges J openBlock := by
  intro s _ s' hs h
  obtain ⟨-, -, -, rfl⟩ | ⟨-, -, ha, -, hl, rfl⟩ | ⟨e, h, -⟩ := openBlock_ends h
  · exact ⟨hs, .refl J _⟩
  · obtain ⟨hs', hadds⟩ := startBlock hs.takeLabel ha hl (Nat.lt_succ_self _)
    exact ⟨hs'.mono (List.subset_cons_self _ _), hadds.of_takeLabel⟩
  · cases h

theorem emit {i : Instr} (hi : i.isPhi = false) (hJ : ∀ m ∈ i.successors, m ∈ J) :
    Merges J (build (.emit i)) := by
  intro s _ s' hs h
  obtain ⟨-, ho, rfl⟩ | ⟨e, h, -⟩ := build_emit h
  · exact push hs ho hi hJ
  · cases h

theorem emitTemp {i : TempId → Instr} (hi : ∀ r, (i r).isPlain = true) :
    Merges J (build (.emitTemp i)) := by
  intro s _ s' hs h
  obtain ⟨-, ho, rfl⟩ | ⟨e, h, -⟩ := build_emitTemp h
  · have htemp : Adds J s s.takeTemp := .of_leads (Nat.le_refl _) fun _ _ => id
    obtain ⟨hs', hadds⟩ := push hs.takeTemp ho (Instr.isPhi_of_isPlain (hi s.temps))
      (by simp [Instr.successors_of_isPlain (hi _)])
    exact ⟨hs', htemp.trans hadds⟩
  · cases h

theorem jump {target : LabelId} (h : target ∈ J) : Merges J (Emit.jump target) :=
  openBlock.bind fun _ => emit rfl (by simpa [Instr.successors] using h)

theorem condJump (v : Value) {onTrue onFalse : LabelId} (ht : onTrue ∈ J) (hf : onFalse ∈ J) :
    Merges J (Emit.condJump v onTrue onFalse) :=
  openBlock.bind fun _ => emit rfl (by simp [Instr.successors, ht, hf])

theorem defineLabel {l : LabelId} (hl : l ∈ J) : Merges J (defineLabel l) := by
  intro s _ s' hs h
  obtain ⟨-, ho, -, hd, rfl⟩ | ⟨-, ha, -, hd, rfl⟩ | ⟨e, h, -⟩ := defineLabel_ends h
  · obtain ⟨hs₁, hadds⟩ := push hs ho (i := .branch l) rfl (by simpa [Instr.successors] using hl)
    obtain ⟨hs₂, hadds'⟩ := startBlock hs₁ (ho.push_terminator rfl) hd (hs₁.ahead l hl)
    exact ⟨hs₂, hadds.trans hadds'⟩
  · exact startBlock hs ha hd (hs.ahead l hl)
  · cases h

theorem note {f : Emitter → Emitter} (hb : ∀ s, (f s).builder = s.builder)
    (hc : ∀ s, (f s).current = s.current) : Merges J (modify f) := by
  intro s _ s' hs h
  obtain ⟨-, rfl⟩ := Ends.modify_iff.1 h
  refine ⟨hs.congr (hb s) (hc s), .of_leads ?_ fun l m hm => ?_⟩
  · simp only [labels, hb, Nat.le_refl]
  · simpa only [Leads, blocks, hb] using hm

theorem recordType (ty : Ty) : Merges J (Emit.recordType ty) := note (fun _ => rfl) fun _ => rfl

theorem alloca (ty : Ty) : Merges J (build (.alloca ty)) := by
  rw [build_alloca_eq]
  exact (emitTemp fun _ => rfl).bind fun _ => pure _

end Merges

/-! ### Where two ways meet -/

/-- Code for one of two ways. -/
structure Arm (x : EmitM α) : Prop where
  grows : Grows x
  keepsOpen : KeepsOpen x
  merges : ∀ J, Merges J x

section

variable {J : List LabelId} {done onTrue onFalse : LabelId} {ls : List LabelId}
  {s s₀ s₁ s₂ s₃ s₄ s₅ s₆ : Emitter}

/-- Control comes to `done` from the block that the code of the way ends in, which is a new one. -/
theorem arm_joins {x : EmitM α} {a : α} {l origin : LabelId} (hx : Arm x) (hdone : done ∉ J)
    (hl : l ∈ J) (hs : s.Merged (done :: J)) (hjoins : s.Joins done ls)
    (h₁ : Ends (defineLabel l) s (.ok ()) s₁) (h₂ : Ends x s₁ (.ok a) s₂)
    (horigin : s₂.builder.current = some origin) (h₃ : Ends (jump done) s₂ (.ok ()) s₃) :
    s₃.Merged (done :: J) ∧ Adds (done :: J) s s₃ ∧ s₃.acceptsInstr = false ∧
      s₃.Joins done (ls ++ [origin]) ∧ s₃.builder.current = some origin ∧
      ∀ l', s.builder.current = some l' → l' ≠ origin := by
  have hsub : J ⊆ done :: J := List.subset_cons_self _ _
  have hstart := Grows.defineLabel l h₁
  obtain ⟨hs₁, hadds₁⟩ := Merges.defineLabel (hsub hl) hs h₁
  obtain ⟨hs₂, hadds₂⟩ := hx.merges _ hs₁ h₂
  obtain ⟨hs₃, hadds₃⟩ := Merges.jump (List.mem_cons_self ..) hs₂ h₃
  have hopen₂ : s₂.Open := hx.keepsOpen hs₁.toDrafting (defineLabel_open hs.toDrafting h₁) h₂
  have hpush := jump_of_open hopen₂ h₃
  -- up to the jump nothing new leads to the place where the ways meet
  have hnone : Adds J s s₂ :=
    (Merges.defineLabel hl (hs.mono hsub) h₁).2.trans (hx.merges J (hs₁.mono hsub) h₂).2
  have hjoins₂ : s₂.Joins done ls := hjoins.keep hs.toDrafting (hstart.trans (hx.grows h₂)) hnone hdone
    (hs.ahead done (List.mem_cons_self ..))
  refine ⟨hs₃, hadds₁.trans (hadds₂.trans hadds₃), ?_, ?_, ?_, ?_⟩
  · rw [hpush]
    exact hopen₂.push_terminator rfl
  · intro l'
    rw [hpush, hs₂.leads_push, hjoins₂ l', horigin]
    simp [Instr.successors, eq_comm]
  · rw [hpush]
    exact horigin
  · intro l' hl'
    refine hs.current_ne (hstart.trans (hx.grows h₂)) ?_ hl' horigin
    have hlen := (hs₁.prefixed (hx.grows h₂)).length_le
    have hnew := defineLabel_length hs.toDrafting h₁
    omega

/-- Control comes to `done` from the two blocks that the ways end in. -/
theorem arms_join {cond : EmitM Unit} {x y : EmitM α} {a b : α} {fromThen fromElse : LabelId}
    (hgrows : Grows cond) (hcond : ∀ K, onTrue ∈ K → onFalse ∈ K → Merges K cond) (hx : Arm x)
    (hy : Arm y) (ht : onTrue ∈ J) (hf : onFalse ∈ J) (hdone : done ∉ J) (hs : s.Merged (done :: J))
    (hjoins : s.Joins done []) (h₀ : Ends cond s (.ok ()) s₀)
    (h₁ : Ends (defineLabel onTrue) s₀ (.ok ()) s₁) (h₂ : Ends x s₁ (.ok a) s₂)
    (hthen : s₂.builder.current = some fromThen) (h₃ : Ends (jump done) s₂ (.ok ()) s₃)
    (h₄ : Ends (defineLabel onFalse) s₃ (.ok ()) s₄) (h₅ : Ends y s₄ (.ok b) s₅)
    (helse : s₅.builder.current = some fromElse) (h₆ : Ends (jump done) s₅ (.ok ()) s₆) :
    s₆.Merged (done :: J) ∧ Adds (done :: J) s s₆ ∧ s₆.acceptsInstr = false ∧
      s₆.Joins done [fromThen, fromElse] ∧ [fromThen, fromElse].Nodup := by
  have hsub : J ⊆ done :: J := List.subset_cons_self _ _
  obtain ⟨hs₀, hadds₀⟩ := hcond _ (hsub ht) (hsub hf) hs h₀
  have hjoins₀ : s₀.Joins done [] := hjoins.keep hs.toDrafting (hgrows h₀)
    (hcond J ht hf (hs.mono hsub) h₀).2 hdone (hs.ahead done (List.mem_cons_self ..))
  obtain ⟨hs₃, hadds₃, -, hjoins₃, hthen₃, -⟩ := arm_joins hx hdone ht hs₀ hjoins₀ h₁ h₂ hthen h₃
  obtain ⟨hs₆, hadds₆, hclosed, hjoins₆, -, hne⟩ :=
    arm_joins hy hdone hf hs₃ hjoins₃ h₄ h₅ helse h₆
  refine ⟨hs₆, hadds₀.trans (hadds₃.trans hadds₆), hclosed, hjoins₆, ?_⟩
  simpa using hne fromThen hthen₃

/-- The block where the ways meet starts with their merge. -/
theorem merge_joins {incoming : List (Value × LabelId)} {ty : Ty} {v : Value}
    (hs : s.Merged (done :: J)) (hdone : done ∉ J) (hclosed : s.acceptsInstr = false)
    (h₁ : Ends (defineLabel done) s (.ok ()) s₁) (h₂ : Ends (merge incoming ty) s₁ (.ok v) s₂)
    (hjoins : s.Joins done (incoming.map (·.2))) (hnodup : (incoming.map (·.2)).Nodup) :
    s₂.Merged J ∧ Adds J s s₂ := by
  obtain ⟨-, ho, -⟩ | ⟨-, -, -, hd, rfl⟩ | ⟨e, h, -⟩ := defineLabel_ends h₁
  · rw [ho.acceptsInstr] at hclosed
    cases hclosed
  · have hopen := hs.open_startBlock hclosed hd
    have hlt := hs.ahead done (List.mem_cons_self ..)
    have hs₁ : (s.startBlock done).Merged J :=
      (hs.startBlock hclosed hd hlt).mono (List.subset_cons_self _ _)
    obtain ⟨_, _, h₃, h₂⟩ := Ends.bind_ok_iff.1 h₂
    cases openBlock_of_open hopen h₃
    obtain ⟨_, _, h₂, h₄⟩ := Ends.bind_ok_iff.1 h₂
    obtain ⟨-, rfl⟩ := Ends.pure_iff.1 h₄
    obtain ⟨-, -, rfl⟩ | ⟨e, h, -⟩ := build_emitTemp h₂
    · refine ⟨hs₁.takeTemp.push_phi hopen (blocks_startBlock hs.function_isSome) rfl rfl hdone hnodup
        fun l => ?_, .of_leads (Nat.le_refl _) fun l m hm => ?_⟩
      · rw [← hjoins l]
        exact hs.leads_startBlock.symm
      · rcases (hs₁.takeTemp.leads_push _).1 hm with hm | ⟨-, hm⟩
        · exact hs.leads_startBlock.1 hm
        · cases hm
    · cases h
  · cases h

end

/-- Structured code keeps merges right while control may be sent to the labels of its exit. -/
theorem Emits.merges {k : Exit} {x : EmitM α} (h : Emits k x) :
    ∀ J, k.owed [] ⊆ J → Merges J x := by
  induction h with
  | pure a => exact fun J _ => .pure a
  | throw k f => exact fun J _ => .throw f
  | lift y => exact fun J _ => .lift y
  | bind _ _ ihx ihf => exact fun J hJ => (ihx J (List.nil_subset _)).bind fun a => ihf a J hJ
  | instr i hi =>
    refine fun J _ => Merges.openBlock.bind fun _ => .emit (Instr.isPhi_of_isPlain hi) ?_
    simp [Instr.successors_of_isPlain hi]
  | temp i hi => exact fun J _ => Merges.openBlock.bind fun _ => .emitTemp hi
  | slot ty =>
    exact fun J _ => Merges.openBlock.bind fun _ => (Merges.recordType ty).bind fun _ => .alloca ty
  | symbol id name storage =>
    intro J _ s v s' hs h
    obtain ⟨rfl, -⟩ := symbolAddress_ends h
    exact ⟨hs, .refl J _⟩
  | text text =>
    intro J _ s v s' hs h
    obtain ⟨g, n, rfl, -, -⟩ := stringLiteral_ends h
    exact ⟨hs.congr rfl rfl, .of_leads (Nat.le_refl _) fun _ _ => id⟩
  | materialize hb ih =>
    intro J _
    refine .createLabel_bind fun onTrue => .createLabel_bind fun onFalse => .createLabel_join ?_
    intro done s v s' hs hdone hjoins h
    obtain ⟨_, s₀, h₀, h⟩ := Ends.bind_ok_iff.1 h
    obtain ⟨_, s₁, h₁, h⟩ := Ends.bind_ok_iff.1 h
    obtain ⟨_, s₂, h₂, h⟩ := Ends.bind_ok_iff.1 h
    obtain ⟨_, s₃, h₃, h⟩ := Ends.bind_ok_iff.1 h
    obtain ⟨_, s₄, h₄, h⟩ := Ends.bind_ok_iff.1 h
    obtain ⟨_, s₅, h₅, h₆⟩ := Ends.bind_ok_iff.1 h
    -- the ways have no code but the jumps
    have hpure : ∀ s, Ends (Pure.pure () : EmitM Unit) s (.ok ()) s := fun s =>
      Ends.pure_iff.2 ⟨rfl, rfl⟩
    obtain ⟨hs₄, hadds, hclosed, hjoins₄, hnodup⟩ := arms_join (hb onTrue onFalse).grows
      (fun K ht hf => ih onTrue onFalse K (by simp [Exit.owed, ht, hf]))
      ⟨.pure (), .pure (), fun _ => .pure ()⟩ ⟨.pure (), .pure (), fun _ => .pure ()⟩ (by simp)
      (by simp) hdone hs hjoins h₀ h₁ (hpure s₁) (defineLabel_current h₁) h₂ h₃ (hpure s₃)
      (defineLabel_current h₃) h₄
    obtain ⟨hs', hadds'⟩ := merge_joins hs₄ hdone hclosed h₅ h₆ hjoins₄ hnodup
    exact ⟨hs', hadds.trans (hadds'.mono (List.subset_cons_self _ _))⟩
  | choice hc ha hb ihc iha ihb =>
    intro J _
    refine .createLabel_bind fun onTrue => .createLabel_bind fun onFalse => .createLabel_join ?_
    intro done s v s' hs hdone hjoins h
    obtain ⟨_, s₀, h₀, h⟩ := Ends.bind_ok_iff.1 h
    obtain ⟨_, s₁, h₁, h⟩ := Ends.bind_ok_iff.1 h
    obtain ⟨_, s₂, h₂, h⟩ := Ends.bind_ok_iff.1 h
    obtain ⟨fromThen, _, hthen, h⟩ := Ends.bind_ok_iff.1 h
    obtain ⟨hsame, hthen⟩ := currentLabel_ends hthen
    rw [hsame] at h
    obtain ⟨_, s₃, h₃, h⟩ := Ends.bind_ok_iff.1 h
    obtain ⟨_, s₄, h₄, h⟩ := Ends.bind_ok_iff.1 h
    obtain ⟨_, s₅, h₅, h⟩ := Ends.bind_ok_iff.1 h
    obtain ⟨fromElse, _, helse, h⟩ := Ends.bind_ok_iff.1 h
    obtain ⟨hsame, helse⟩ := currentLabel_ends helse
    rw [hsame] at h
    obtain ⟨_, s₆, h₆, h⟩ := Ends.bind_ok_iff.1 h
    obtain ⟨_, s₇, h₇, h⟩ := Ends.bind_ok_iff.1 h
    obtain ⟨hs₆, hadds, hclosed, hjoins₆, hnodup⟩ := arms_join (hc onTrue onFalse).grows
      (fun K ht hf => ihc onTrue onFalse K (by simp [Exit.owed, ht, hf]))
      ⟨ha.grows, ha.keepsOpen rfl, fun K => iha K (List.nil_subset _)⟩
      ⟨hb.grows, hb.keepsOpen rfl, fun K => ihb K (List.nil_subset _)⟩ (by simp) (by simp) hdone hs
      hjoins h₀ h₁ h₂ hthen h₃ h₄ h₅ helse h₆
    split at h
    · -- a choice without a value merges nothing
      obtain ⟨-, rfl⟩ := Ends.pure_iff.1 h
      obtain ⟨hs₇, hadds'⟩ := Merges.defineLabel (List.mem_cons_self ..) hs₆ h₇
      exact ⟨hs₇.mono (List.subset_cons_self _ _), hadds.trans hadds'⟩
    · obtain ⟨ir, _, h₈, h₉⟩ := Ends.bind_ok_iff.1 h
      obtain ⟨-, rfl⟩ := Ends.lift_iff.1 h₈
      obtain ⟨hs', hadds'⟩ := merge_joins hs₆ hdone hclosed h₇ h₉ hjoins₆ hnodup
      exact ⟨hs', hadds.trans (hadds'.mono (List.subset_cons_self _ _))⟩
  | @jump target onTrue onFalse h =>
    refine fun J hJ => .jump (hJ ?_)
    rcases h with rfl | rfl <;> simp [Exit.owed]
  | condJump v onTrue onFalse =>
    exact fun J hJ => .condJump v (hJ (by simp [Exit.owed])) (hJ (by simp [Exit.owed]))
  | @swap _ onTrue onFalse _ _ ih =>
    refine fun J hJ => ih J (List.Subset.trans ?_ hJ)
    simp [Exit.owed]
  | both onTrue onFalse _ _ ihl ihr =>
    intro J hJ
    simp only [Exit.owed, List.cons_subset] at ihl ihr hJ
    refine .createLabel_bind fun check => (ihl check onFalse _ ?_).bind fun _ =>
      (Merges.defineLabel (List.mem_cons_self ..)).bind fun _ => ihr onTrue onFalse _ ?_
    · simp [hJ.2.1]
    · simp [hJ.1, hJ.2.1]
  | either onTrue onFalse _ _ ihl ihr =>
    intro J hJ
    simp only [Exit.owed, List.cons_subset] at ihl ihr hJ
    refine .createLabel_bind fun check => (ihl onTrue check _ ?_).bind fun _ =>
      (Merges.defineLabel (List.mem_cons_self ..)).bind fun _ => ihr onTrue onFalse _ ?_
    · simp [hJ.1]
    · simp [hJ.1, hJ.2.1]

end TypedCore
