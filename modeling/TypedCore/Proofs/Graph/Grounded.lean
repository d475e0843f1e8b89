import TypedCore.Proofs.Graph.Dominance

/-!
# Values at hand

The invariant behind SSA form, `s.Grounded J`: the instructions so far define the temporaries in the order of their
numbers, need only those with smaller numbers, and what an instruction needs is defined on all ways to it. `Held J v s`:
code may use the value `v` from here on, up to the next block of a label in `J`. `Develops K J s x Q`: started in `s`,
code `x` keeps the invariant and ends as `Q` says; apart from labels of `K` it starts blocks at new labels only, so if
`K` is empty, all values that are held before it are held after it (`Held.later`).
-/

namespace TypedCore

open Ir Lowering Emit

namespace Emitter

variable {s s' s₁ : Emitter} {J K : List LabelId} {l u : LabelId} {t : TempId}

/-! ### Temporaries -/

/-- The number of parameters of the function under construction. -/
def arity (s : Emitter) : Nat := (s.builder.function.map (·.params.length)).getD 0

/-- The slots of the variables so far. -/
def variableSlots (s : Emitter) : List TempId := s.locals.flatMap (·.2.temps)

/-- Block `l` defines the temporary `t`. -/
def Defines (s : Emitter) (l : LabelId) (t : TempId) : Prop := ∃ b ∈ s.blocks, b.id = l ∧ t ∈ resultsOf b.instrs

/-- A parameter, or the slot of a variable. -/
def Given (s : Emitter) (t : TempId) : Prop := t < s.arity ∨ t ∈ s.variableSlots

/-- The temporary is defined, and control has come through its definition. -/
def Has (s : Emitter) (J : List LabelId) (t : TempId) : Prop := s.Given t ∨ ∃ l, s.Defines l t ∧ s.Governs J l

/-- The temporary is defined on all ways to block `u`. -/
def Feeds (s : Emitter) (J : List LabelId) (t : TempId) (u : LabelId) : Prop :=
  s.Given t ∨ ∃ l, s.Defines l t ∧ s.Encloses J l u

theorem Drafting.instrsOf_push (hs : s.Drafting) (i : Instr) :
    instrsOf (s.push i).blocks = instrsOf s.blocks ++ [i] := by
  obtain ⟨pre, b, hb, hc, -⟩ := hs.exists_last
  simp [instrsOf, hs.blocks_push hb hc, hb, Block.push]

theorem Drafting.instrsOf_startBlock (hs : s.Drafting) (l : LabelId) :
    instrsOf (s.startBlock l).blocks = instrsOf s.blocks := by
  simp [instrsOf, blocks_startBlock hs.function_isSome]

@[simp] theorem arity_push (s : Emitter) (i : Instr) : (s.push i).arity = s.arity := by
  cases h : s.builder.function <;> simp [arity, push, h]

@[simp] theorem arity_startBlock (s : Emitter) (l : LabelId) : (s.startBlock l).arity = s.arity := by
  cases h : s.builder.function <;> simp [arity, startBlock, h]

theorem Drafting.arity_steps (hs : s.Drafting) (h : Steps s s') : s'.arity = s.arity := by
  obtain ⟨f, hf⟩ := Option.isSome_iff_exists.1 hs.function_isSome
  simp [arity, h.function hf, hf]

theorem Drafting.defines_steps (hs : s.Drafting) (h : Steps s s') (ht : s.Defines l t) : s'.Defines l t := by
  obtain ⟨b, hb, rfl, ht⟩ := ht
  obtain ⟨n, hn⟩ := List.mem_iff_getElem?.1 hb
  obtain ⟨c, hc, hid, hpre⟩ := hs.prefixed h n b hn
  obtain ⟨i, hi, hr⟩ := mem_resultsOf.1 ht
  exact ⟨c, List.mem_of_getElem? hc, hid, mem_resultsOf.2 ⟨i, hpre.subset hi, hr⟩⟩

theorem Defines.mem_results (h : s.Defines l t) : t ∈ resultsOf (instrsOf s.blocks) := by
  obtain ⟨b, hb, -, ht⟩ := h
  obtain ⟨i, hi, hr⟩ := mem_resultsOf.1 ht
  exact mem_resultsOf.2 ⟨i, List.mem_flatMap.2 ⟨b, hb, hi⟩, hr⟩

theorem Given.later (h : s.Given t) (hs : s.Drafting) (hsteps : Steps s s') (hlocals : s.locals ⊆ s'.locals) :
    s'.Given t := by
  refine h.imp (fun h => hs.arity_steps hsteps ▸ h) fun h => ?_
  obtain ⟨p, hp, ht⟩ := List.mem_flatMap.1 h
  exact List.mem_flatMap.2 ⟨p, hlocals hp, ht⟩

namespace Feeds

theorem mono (h : s.Feeds K t u) (hJ : J ⊆ K) : s.Feeds J t u := by
  rcases h with h | ⟨l, hl, h⟩
  · exact .inl h
  · exact .inr ⟨l, hl, h.mono hJ⟩

theorem keep (h : s.Feeds J t u) (hs : s.Drafting) (hsteps : Steps s s') (hadds : Adds J s s')
    (hlocals : s.locals ⊆ s'.locals) : s'.Feeds J t u := by
  rcases h with h | ⟨l, hl, h⟩
  · exact .inl (h.later hs hsteps hlocals)
  · exact .inr ⟨l, hs.defines_steps hsteps hl, h.keep hs hsteps hadds⟩

theorem takeLabel (h : s.Feeds J t u) : s.takeLabel.Feeds (s.labels :: J) t u := by
  rcases h with h | ⟨l, hl, h⟩
  · exact .inl h
  · exact .inr ⟨l, hl, h.takeLabel⟩

theorem takeTemp (h : s.Feeds J t u) (hs : s.Drafting) : s.takeTemp.Feeds J t u :=
  h.keep hs (Step.temp s).steps (.of_leads (Nat.le_refl _) fun _ _ => id) (List.Subset.refl _)

end Feeds

theorem Has.feeds (h : s.Has J t) (hs : s.Labelled J) (hu : s.builder.current = some u) : s.Feeds J t u := by
  rcases h with h | ⟨l, hl, h⟩
  · exact .inl h
  · exact .inr ⟨l, hl, h.encloses hs hu⟩

theorem Has.mono (h : s.Has K t) (hJ : J ⊆ K) : s.Has J t := by
  rcases h with h | ⟨l, hl, h⟩
  · exact .inl h
  · exact .inr ⟨l, hl, h.mono hJ⟩

/-! ### Labels -/

namespace Labelled

theorem mono (h : s.Labelled K) (hJ : J ⊆ K) : s.Labelled J :=
  ⟨h.toDrafting, h.defined_lt, h.leads_lt, fun l hl => h.ahead l (hJ hl)⟩

theorem takeLabel (h : s.Labelled J) : s.takeLabel.Labelled (s.labels :: J) := by
  refine ⟨h.toDrafting.step (.label s), ?_, ?_, fun l hl => ?_⟩
  · exact fun l hl => Nat.lt_succ_of_lt (h.defined_lt l hl)
  · exact fun l m hm => Nat.lt_succ_of_lt (h.leads_lt l m hm)
  · rcases List.mem_cons.1 hl with rfl | hl
    · exact Nat.lt_succ_self _
    · exact Nat.lt_succ_of_lt (h.ahead l hl)

theorem startBlock (h : s.Labelled J) (hclosed : s.acceptsInstr = false) (hl : l ∉ s.defined) (hlt : l < s.labels) :
    (s.startBlock l).Labelled J := by
  refine ⟨h.toDrafting.startBlock hclosed hl, ?_, fun a b hab => h.leads_lt a b (h.leads_startBlock.1 hab), h.ahead⟩
  simp only [defined, blocks_startBlock h.function_isSome, List.map_append, List.mem_append, List.map_cons,
    List.map_nil, List.mem_singleton]
  rintro l' (hl' | rfl)
  · exact h.defined_lt l' hl'
  · exact hlt

theorem push (h : s.Labelled J) (ho : s.Open) {i : Instr} (hJ : ∀ m ∈ i.successors, m ∈ J) :
    (s.push i).Labelled J := by
  refine ⟨h.toDrafting.push ho i, by rw [defined_push]; exact h.defined_lt, fun a b hab => ?_, h.ahead⟩
  rcases (h.leads_push i).1 hab with hab | ⟨-, hb⟩
  · exact h.leads_lt a b hab
  · exact h.ahead b (hJ b hb)

theorem adds_push (h : s.Labelled J) {i : Instr} (hJ : ∀ m ∈ i.successors, m ∈ J) : Adds J s (s.push i) := by
  refine ⟨Nat.le_refl _, fun a b hab => ?_⟩
  rcases (h.leads_push i).1 hab with hab | ⟨-, hb⟩
  · exact .inl hab
  · exact .inr (.inl (hJ b hb))

end Labelled

/-! ### Uses -/

/-- What an instruction needs is defined on all ways to it. -/
structure Placed (s : Emitter) (J : List LabelId) : Prop extends s.Labelled J where
  slot : ∀ p ∈ s.locals, ∃ t slot ty, p.2 = .temp t ∧ .alloca t slot ty ∈ instrsOf s.blocks
  used : ∀ b ∈ s.blocks, ∀ i ∈ b.instrs, ∀ u ∈ i.uses b.id, s.Feeds J u.1 u.2

namespace Placed

theorem mono (h : s.Placed K) (hJ : J ⊆ K) : s.Placed J :=
  ⟨h.toLabelled.mono hJ, h.slot, fun b hb i hi u hu => (h.used b hb i hi u hu).mono hJ⟩

theorem takeLabel (h : s.Placed J) : s.takeLabel.Placed (s.labels :: J) :=
  ⟨h.toLabelled.takeLabel, h.slot, fun b hb i hi u hu => (h.used b hb i hi u hu).takeLabel⟩

theorem takeTemp (h : s.Placed J) : s.takeTemp.Placed J :=
  ⟨⟨h.toDrafting.step (.temp s), h.defined_lt, h.leads_lt, h.ahead⟩, h.slot,
    fun b hb i hi u hu => (h.used b hb i hi u hu).takeTemp h.toDrafting⟩

theorem startBlock (h : s.Placed J) (hclosed : s.acceptsInstr = false) (hl : l ∉ s.defined) (hlt : l < s.labels) :
    (s.startBlock l).Placed J := by
  refine ⟨h.toLabelled.startBlock hclosed hl hlt, by rw [h.instrsOf_startBlock]; exact h.slot, fun b hb i hi u hu => ?_⟩
  have hstep : Steps s (s.startBlock l) := (Step.block s l h.function_isSome hclosed hl).steps
  have hadds : Adds J s (s.startBlock l) := .of_leads (Nat.le_refl _) fun _ _ => h.leads_startBlock.1
  rw [blocks_startBlock h.function_isSome] at hb
  rcases List.mem_append.1 hb with hb | hb
  · exact (h.used b hb i hi u hu).keep h.toDrafting hstep hadds (List.Subset.refl _)
  · rw [List.mem_singleton.1 hb] at hi
    cases hi

theorem push (h : s.Placed J) (ho : s.Open) {i : Instr} (hJ : ∀ m ∈ i.successors, m ∈ J)
    (huses : ∀ l, s.builder.current = some l → ∀ u ∈ i.uses l, s.Feeds J u.1 u.2) : (s.push i).Placed J := by
  obtain ⟨pre, b, hb, hc, -⟩ := h.exists_last
  have hkeep {t : TempId} {u : LabelId} (hf : s.Feeds J t u) : (s.push i).Feeds J t u :=
    hf.keep h.toDrafting (Step.instr s i ho).steps (h.adds_push hJ) (List.Subset.refl _)
  refine ⟨h.toLabelled.push ho hJ, fun p hp => ?_, ?_⟩
  · obtain ⟨t, slot, ty, hp, hmem⟩ := h.slot p hp
    exact ⟨t, slot, ty, hp, by rw [h.instrsOf_push]; exact List.mem_append_left _ hmem⟩
  · refine h.forall_push hb hc (fun c hc j hj u hu => hkeep (h.used c hc j hj u hu)) fun j hj u hu => hkeep ?_
    rcases List.mem_append.1 hj with hj | hj
    · exact h.used b (by simp [hb]) j hj u hu
    · rw [List.mem_singleton.1 hj] at hu
      exact huses b.id hc u hu

/-- What is defined has a number. -/
theorem known (h : s.Placed J) (hf : s.Feeds J t u) : t < s.arity ∨ t ∈ resultsOf (instrsOf s.blocks) := by
  rcases hf with (ht | ht) | ⟨l, hl, -⟩
  · exact .inl ht
  · obtain ⟨p, hp, ht⟩ := List.mem_flatMap.1 ht
    obtain ⟨t', slot, ty, hp, hmem⟩ := h.slot p hp
    rw [hp, Value.temps, List.mem_singleton] at ht
    exact .inr (mem_resultsOf.2 ⟨_, hmem, ht ▸ rfl⟩)
  · exact .inr hl.mem_results

end Placed

/-! ### Numbers -/

/-- The temporaries are numbered in the order of their definitions, after the parameters, and defined before they are
used. -/
structure Numbered (s : Emitter) : Prop where
  arity_le : s.arity ≤ s.temps
  results : resultsOf (instrsOf s.blocks) = List.range' s.arity (s.temps - s.arity)
  ordered : ∀ pre i post, instrsOf s.blocks = pre ++ i :: post → ∀ t ∈ i.temps, t < s.arity ∨ t ∈ resultsOf pre

namespace Numbered

theorem startBlock (h : s.Numbered) (hs : s.Drafting) (l : LabelId) : (s.startBlock l).Numbered := by
  refine ⟨?_, ?_, ?_⟩
  · simpa using h.arity_le
  · simpa [hs.instrsOf_startBlock] using h.results
  · simpa [hs.instrsOf_startBlock] using h.ordered

/-- Also the instruction that is added uses what is defined before it. -/
theorem ordered_push (h : s.Numbered) (hs : s.Drafting) {i : Instr}
    (hi : ∀ t ∈ i.temps, t < s.arity ∨ t ∈ resultsOf (instrsOf s.blocks)) (pre : List Instr) (j : Instr)
    (post : List Instr) (heq : instrsOf (s.push i).blocks = pre ++ j :: post) :
    ∀ t ∈ j.temps, t < s.arity ∨ t ∈ resultsOf pre := by
  rw [hs.instrsOf_push] at heq
  rcases List.eq_nil_or_concat post with rfl | ⟨post, last, rfl⟩
  · obtain ⟨rfl, hij⟩ := List.append_inj' heq rfl
    cases hij
    exact hi
  · rw [List.concat_eq_append, ← List.cons_append, ← List.append_assoc] at heq
    exact h.ordered pre j post (List.append_inj' heq rfl).1

theorem push (h : s.Numbered) (hs : s.Drafting) {i : Instr}
    (hi : ∀ t ∈ i.temps, t < s.arity ∨ t ∈ resultsOf (instrsOf s.blocks)) (hr : i.result? = none) :
    (s.push i).Numbered := by
  refine ⟨by simpa using h.arity_le, ?_, by rw [arity_push]; exact h.ordered_push hs hi⟩
  rw [hs.instrsOf_push, arity_push, temps_push, ← h.results]
  simp [resultsOf, hr]

theorem define (h : s.Numbered) (hs : s.Drafting) {i : Instr}
    (hi : ∀ t ∈ i.temps, t < s.arity ∨ t ∈ resultsOf (instrsOf s.blocks)) (hr : i.result? = some s.temps) :
    (s.takeTemp.push i).Numbered := by
  have hle := h.arity_le
  have harity : (s.takeTemp.push i).arity = s.arity := arity_push ..
  refine ⟨?_, ?_, by rw [harity]; exact h.ordered_push hs hi⟩
  · rw [harity, temps_push, temps_takeTemp]
    omega
  · have hcode : instrsOf (s.takeTemp.push i).blocks = instrsOf s.blocks ++ [i] := hs.instrsOf_push i
    have hresults := h.results
    rw [resultsOf] at hresults
    rw [hcode, harity, temps_push, temps_takeTemp, Nat.succ_sub hle, List.range'_concat, resultsOf,
      List.filterMap_append, hresults]
    simp [hr, Nat.add_sub_cancel' hle]

end Numbered

/-! ### The invariant -/

structure Grounded (s : Emitter) (J : List LabelId) : Prop extends s.Placed J, s.Numbered

namespace Grounded

theorem mono (h : s.Grounded K) (hJ : J ⊆ K) : s.Grounded J := ⟨h.toPlaced.mono hJ, h.toNumbered⟩

theorem takeLabel (h : s.Grounded J) : s.takeLabel.Grounded (s.labels :: J) :=
  ⟨h.toPlaced.takeLabel, h.arity_le, h.results, h.ordered⟩

theorem startBlock (h : s.Grounded J) (hclosed : s.acceptsInstr = false) (hl : l ∉ s.defined) (hlt : l < s.labels) :
    (s.startBlock l).Grounded J :=
  ⟨h.toPlaced.startBlock hclosed hl hlt, h.toNumbered.startBlock h.toDrafting l⟩

end Grounded

/-- From `s` to `s'` the function grows, jumps go to labels of `J` and blocks are started at labels of `K`, apart from
new ones. -/
structure Onward (K J : List LabelId) (s s' : Emitter) : Prop where
  before : s.Grounded J
  after : s'.Grounded J
  steps : Steps s s'
  adds : Adds J s s'
  fresh : ∀ l ∈ s'.defined, l ∈ s.defined ∨ l ∈ K ∨ s.labels ≤ l
  locals : s.locals ⊆ s'.locals

namespace Onward

theorem refl (h : s.Grounded J) : Onward K J s s :=
  ⟨h, h, .refl, .refl J s, fun _ => .inl, List.Subset.refl _⟩

theorem trans (h : Onward K J s s₁) (h' : Onward K J s₁ s') : Onward K J s s' := by
  refine ⟨h.before, h'.after, h.steps.trans h'.steps, h.adds.trans h'.adds, fun l hl => ?_,
    List.Subset.trans h.locals h'.locals⟩
  rcases h'.fresh l hl with hl | hl | hl
  · exact h.fresh l hl
  · exact .inr (.inl hl)
  · exact .inr (.inr (Nat.le_trans h.adds.labels_le hl))

theorem weaken (h : Onward [] J s s') (K : List LabelId) : Onward K J s s' :=
  ⟨h.before, h.after, h.steps, h.adds, fun l hl => (h.fresh l hl).imp_right fun h => .inr (by simpa using h), h.locals⟩

/-- A label that is taken first is a new one. -/
theorem of_takeLabel (hs : s.Grounded J) (h : Onward (s.labels :: K) (s.labels :: J) s.takeLabel s') :
    Onward K J s s' := by
  refine ⟨hs, h.after.mono (List.subset_cons_self _ _), .head (.label s) h.steps, h.adds.of_takeLabel, fun l hl => ?_,
    h.locals⟩
  rcases h.fresh l hl with hl | hl | hl
  · exact .inl hl
  · rcases List.mem_cons.1 hl with rfl | hl
    · exact .inr (.inr (Nat.le_refl _))
    · exact .inr (.inl hl)
  · exact .inr (.inr (Nat.le_of_succ_le hl))

theorem startBlock (h : s.Grounded J) (hclosed : s.acceptsInstr = false) (hl : l ∉ s.defined) (hlt : l < s.labels)
    (hK : l ∈ K) : Onward K J s (s.startBlock l) := by
  refine ⟨h, h.startBlock hclosed hl hlt, (Step.block s l h.function_isSome hclosed hl).steps,
    .of_leads (Nat.le_refl _) fun _ _ => h.leads_startBlock.1, fun l' hl' => ?_, List.Subset.refl _⟩
  simp only [defined, blocks_startBlock h.function_isSome, List.map_append, List.mem_append, List.map_cons,
    List.map_nil, List.mem_singleton] at hl'
  rcases hl' with hl' | rfl
  · exact .inl hl'
  · exact .inr (.inl hK)

theorem known {i : Instr} (h : s.Grounded J)
    (huses : ∀ l, s.builder.current = some l → ∀ u ∈ i.uses l, s.Feeds J u.1 u.2) :
    ∀ t ∈ i.temps, t < s.arity ∨ t ∈ resultsOf (instrsOf s.blocks) := by
  intro t ht
  obtain ⟨pre, b, hb, hc⟩ := h.last
  obtain ⟨u, hu, rfl⟩ := Instr.exists_use ht b.id
  exact h.toPlaced.known (huses b.id hc u hu)

theorem push {i : Instr} (h : s.Grounded J) (ho : s.Open) (hJ : ∀ m ∈ i.successors, m ∈ J)
    (huses : ∀ l, s.builder.current = some l → ∀ u ∈ i.uses l, s.Feeds J u.1 u.2) (hr : i.result? = none) :
    Onward [] J s (s.push i) :=
  ⟨h, ⟨h.toPlaced.push ho hJ huses, h.toNumbered.push h.toDrafting (known h huses) hr⟩, (Step.instr s i ho).steps,
    h.adds_push hJ, fun _ hl => .inl (s.defined_push i ▸ hl), List.Subset.refl _⟩

theorem define {i : Instr} (h : s.Grounded J) (ho : s.Open) (hJ : ∀ m ∈ i.successors, m ∈ J)
    (huses : ∀ l, s.builder.current = some l → ∀ u ∈ i.uses l, s.Feeds J u.1 u.2) (hr : i.result? = some s.temps) :
    Onward [] J s (s.takeTemp.push i) := by
  have ho' : s.takeTemp.Open := ho
  have htemp : s.takeTemp.Placed J := h.toPlaced.takeTemp
  have hadds : Adds J s s.takeTemp := .of_leads (Nat.le_refl _) fun _ _ => id
  have hplaced : (s.takeTemp.push i).Placed J :=
    htemp.push ho' hJ fun l hl u hu => (huses l hl u hu).takeTemp h.toDrafting
  refine ⟨h, ⟨hplaced, h.toNumbered.define h.toDrafting (known h huses) hr⟩,
    .tail (.single (.temp s)) (.instr s.takeTemp i ho'), hadds.trans (htemp.adds_push hJ), fun l hl => .inl ?_,
    List.Subset.refl _⟩
  rw [defined_push] at hl
  exact hl

/-- Only what stands around the function changes. -/
theorem note (h : s.Grounded J) (hb : s'.builder = s.builder) (hc : s'.current = s.current)
    (hf : s'.module.functions = s.module.functions) (hg : s.module.globals <+: s'.module.globals)
    (hlocals : s.locals ⊆ s'.locals)
    (hslot : ∀ p ∈ s'.locals, p ∈ s.locals ∨ ∃ t slot ty, p.2 = .temp t ∧ .alloca t slot ty ∈ instrsOf s.blocks) :
    Onward K J s s' := by
  have hblocks : s'.blocks = s.blocks := by simp only [blocks, hb]
  have hdefined : s'.defined = s.defined := by simp only [defined, hblocks]
  have hlabels : s'.labels = s.labels := by simp only [labels, hb]
  have htemps : s'.temps = s.temps := by simp only [temps, hb]
  have harity : s'.arity = s.arity := by simp only [arity, hb]
  have hleads : ∀ a b, s'.Leads a b ↔ s.Leads a b := fun a b => by simp only [Leads, hblocks]
  have hsteps : Steps s s' := (Step.note s s' hb hc hf hg).steps
  have hadds : Adds J s s' := .of_leads (Nat.le_of_eq hlabels.symm) fun a b => (hleads a b).1
  have hlabelled : s'.Labelled J := by
    refine ⟨h.toDrafting.congr hb hc, ?_, ?_, ?_⟩
    · rw [hdefined, hlabels]
      exact h.defined_lt
    · simpa only [hleads, hlabels] using h.leads_lt
    · rw [hlabels]
      exact h.ahead
  refine ⟨h, ⟨⟨hlabelled, fun p hp => ?_, fun b hb i hi u hu => ?_⟩, ?_, ?_, ?_⟩, hsteps, hadds, ?_, hlocals⟩
  · rw [hblocks]
    exact (hslot p hp).elim (h.slot p) id
  · exact (h.used b (hblocks ▸ hb) i hi u hu).keep h.toDrafting hsteps hadds hlocals
  · rw [harity, htemps]
    exact h.arity_le
  · rw [hblocks, harity, htemps]
    exact h.results
  · rw [hblocks, harity]
    exact h.ordered
  · rw [hdefined]
    exact fun _ => .inl

end Onward

/-! ### Values -/

theorem Has.later (h : s.Has J t) (hs : Onward [] J s s') : s'.Has J t := by
  have hd := hs.before.toDrafting
  rcases h with h | ⟨l, hl, h⟩
  · exact .inl (h.later hd hs.steps hs.locals)
  · refine .inr ⟨l, hd.defines_steps hs.steps hl, ?_⟩
    exact h.later hs.before.toLabelled hs.after.toLabelled hs.steps hs.adds.labels_le
      fun l hl => by simpa using hs.fresh l hl

theorem Feeds.onward (h : s.Feeds J t u) (hs : Onward K J s s') : s'.Feeds J t u :=
  h.keep hs.before.toDrafting hs.steps hs.adds hs.locals

/-- The value may be used from here on. -/
def Held (J : List LabelId) (v : Value) (s : Emitter) : Prop := ∀ t ∈ v.temps, s.Has J t

theorem Held.later {v : Value} (h : Held J v s) (hs : Onward [] J s s') : Held J v s' := fun t ht => (h t ht).later hs

theorem Held.mono {v : Value} (h : Held K v s) (hJ : J ⊆ K) : Held J v s := fun t ht => (h t ht).mono hJ

theorem held_of_temps_nil {v : Value} (h : v.temps = []) : Held J v s := by
  intro t ht
  rw [h] at ht
  cases ht

/-- The block that code goes to defines the temporary. -/
theorem held_new (hs : s.Labelled J) (hl : s.builder.current = some l) (ht : s.Defines l t) : Held J (.temp t) s := by
  intro t' ht'
  rw [Value.temps, List.mem_singleton] at ht'
  exact ht' ▸ .inr ⟨l, ht, .current hs hl⟩

/-- Held operands are defined on all ways to the current block. -/
theorem feeds_of_held {i : Instr} (hs : s.Labelled J) (hi : i.isPhi = false) (hops : ∀ v ∈ i.operands, Held J v s) :
    ∀ l, s.builder.current = some l → ∀ u ∈ i.uses l, s.Feeds J u.1 u.2 := by
  intro l hl u hu
  rw [Instr.uses_of_not_phi hi] at hu
  obtain ⟨t, ht, rfl⟩ := List.mem_map.1 hu
  obtain ⟨v, hv, ht⟩ := List.mem_flatMap.1 ht
  exact (hops v hv t ht).feeds hs hl

/-- An instruction that defines a temporary makes it available. -/
theorem emitTemp_onward {i : TempId → Instr} {r : TempId} (hs : s.Grounded J)
    (h : Ends (build (.emitTemp i)) s (.ok r) s') (hr : ∀ r, (i r).result? = some r)
    (hJ : ∀ r, (i r).successors = [])
    (huses : ∀ r l, s.builder.current = some l → ∀ u ∈ (i r).uses l, s.Feeds J u.1 u.2) :
    Onward [] J s s' ∧ Held J (.temp r) s' ∧ i r ∈ instrsOf s'.blocks := by
  obtain ⟨hr', ho, rfl⟩ | ⟨e, h, -⟩ := build_emitTemp h
  · cases hr'
    obtain ⟨pre, b, hb, hc, -⟩ := hs.exists_last
    have honward := Onward.define hs ho (by simp [hJ]) (huses s.temps) (hr s.temps)
    have hblocks := (hs.toDrafting.step (.temp s)).blocks_push hb hc (i s.temps)
    have hmem : i s.temps ∈ (b.push (i s.temps)).instrs := by simp [Block.push]
    have hlast : b.push (i s.temps) ∈ (s.takeTemp.push (i s.temps)).blocks := by simp [hblocks]
    refine ⟨honward, held_new honward.after.toLabelled hc ⟨_, hlast, rfl, ?_⟩, List.mem_flatMap.2 ⟨_, hlast, hmem⟩⟩
    exact mem_resultsOf.2 ⟨_, hmem, hr _⟩
  · cases h

end Emitter

open Emitter

variable {α β : Type} {K J : List LabelId} {s : Emitter} {Q : α → Emitter → Prop} {R : β → Emitter → Prop}

/-- Started in `s`, code `x` keeps the invariant and ends as `Q` says. -/
def Develops (K J : List LabelId) (s : Emitter) (x : EmitM α) (Q : α → Emitter → Prop) : Prop :=
  s.Grounded J → ∀ ⦃a s'⦄, Ends x s (.ok a) s' → Onward K J s s' ∧ Q a s'

/-- The same for code whose result does not matter. -/
abbrev Advances (K J : List LabelId) (s : Emitter) (x : EmitM α) : Prop := Develops K J s x fun _ _ => True

namespace Develops

theorem pure {a : α} (h : Q a s) : Develops K J s (pure a) Q := by
  intro hs _ s' hx
  obtain ⟨ha, rfl⟩ := Ends.pure_iff.1 hx
  cases ha
  exact ⟨.refl hs, h⟩

theorem throw (f : Fault) : Develops K J s (throw f : EmitM α) Q := by
  intro _ _ s' hx
  cases (Ends.throw_iff.1 hx).1

theorem lift {y : Except Fault α} (h : ∀ a, y = .ok a → Q a s) : Develops K J s (liftM y) Q := by
  intro hs a s' hx
  obtain ⟨ha, rfl⟩ := Ends.lift_iff.1 hx
  exact ⟨.refl hs, h a ha.symm⟩

theorem bind {x : EmitM α} {f : α → EmitM β} (hx : Develops K J s x Q)
    (hf : ∀ a s₁, Onward K J s s₁ → Q a s₁ → Develops K J s₁ (f a) R) : Develops K J s (x >>= f) R := by
  intro hs b s' h
  obtain ⟨a, s₁, h₁, h₂⟩ := Ends.bind_ok_iff.1 h
  obtain ⟨honward, ha⟩ := hx hs h₁
  obtain ⟨honward', hb⟩ := hf a s₁ honward ha honward.after h₂
  exact ⟨honward.trans honward', hb⟩

theorem lift_bind {y : Except Fault α} {f : α → EmitM β} (hf : ∀ a, Develops K J s (f a) R) :
    Develops K J s (liftM y >>= f) R := by
  intro hs b s' h
  obtain ⟨a, s₁, h₁, h₂⟩ := Ends.bind_ok_iff.1 h
  obtain ⟨-, rfl⟩ := Ends.lift_iff.1 h₁
  exact hf a hs h₂

theorem get_bind {f : Emitter → EmitM β} (hf : Develops K J s (f s) R) : Develops K J s (get >>= f) R :=
  fun hs _ _ h => hf hs (Ends.get_bind_iff.1 h)

theorem weaken {x : EmitM α} (h : Develops [] J s x Q) : Develops K J s x Q :=
  fun hs _ _ hx => ⟨(h hs hx).1.weaken K, (h hs hx).2⟩

/-- Code that goes on with a value, whose result does not matter. -/
theorem done {x : EmitM α} (h : Develops K J s x Q) : Advances K J s (do let _ ← x) :=
  h.bind fun _ _ _ _ => .pure trivial

/-- Control may be sent to a label, and its block started, once it is taken. -/
theorem createLabel_bind {f : LabelId → EmitM β} {R : LabelId → β → Emitter → Prop} {R' : β → Emitter → Prop}
    (hf : ∀ l s₁, Develops (l :: K) (l :: J) s₁ (f l) (R l)) (hR : ∀ l b s', R l b s' → R' b s') :
    Develops K J s (createLabel >>= f) R' := by
  intro hs b s' h
  obtain ⟨l, s₁, h₁, h₂⟩ := Ends.bind_ok_iff.1 h
  obtain ⟨hl, rfl⟩ := createLabel_iff.1 h₁
  cases hl
  obtain ⟨honward, hb⟩ := hf _ _ hs.takeLabel h₂
  exact ⟨.of_takeLabel hs honward, hR _ b s' hb⟩

theorem createLabel_value {f : LabelId → EmitM Value}
    (hf : ∀ l s₁, Develops (l :: K) (l :: J) s₁ (f l) (Held (l :: J))) :
    Develops K J s (createLabel >>= f) (Held J) :=
  createLabel_bind hf fun _ _ _ h => h.mono (List.subset_cons_self _ _)

theorem createLabel_advance {f : LabelId → EmitM β} (hf : ∀ l s₁, Advances (l :: K) (l :: J) s₁ (f l)) :
    Advances K J s (createLabel >>= f) := createLabel_bind hf fun _ _ _ => id

theorem openBlock : Advances [] J s openBlock := by
  intro hs _ s' h
  obtain ⟨-, -, -, rfl⟩ | ⟨-, -, ha, -, hl, rfl⟩ | ⟨e, h, -⟩ := openBlock_ends h
  · exact ⟨.refl hs, trivial⟩
  · exact ⟨.of_takeLabel hs (.startBlock hs.takeLabel ha hl (Nat.lt_succ_self _) (List.mem_cons_self ..)), trivial⟩
  · cases h

theorem openBlock_bind {f : Unit → EmitM β} (hf : ∀ s₁, Onward [] J s s₁ → Develops [] J s₁ (f ()) R) :
    Develops [] J s (Emit.openBlock >>= f) R := openBlock.bind fun _ s₁ h₁ _ => hf s₁ h₁

theorem defineLabel {l : LabelId} (hK : l ∈ K) (hJ : l ∈ J) : Advances K J s (defineLabel l) := by
  intro hs _ s' h
  obtain ⟨-, ho, -, hl, rfl⟩ | ⟨-, ha, -, hl, rfl⟩ | ⟨e, h, -⟩ := defineLabel_ends h
  · have hpush : Onward [] J s (s.push (.branch l)) :=
      .push hs ho (by simpa [Instr.successors] using hJ) (by simp [Instr.uses, Instr.temps, Instr.operands]) rfl
    refine ⟨(hpush.weaken K).trans (.startBlock hpush.after (ho.push_terminator rfl) hl ?_ hK), trivial⟩
    exact hs.ahead l hJ
  · exact ⟨.startBlock hs ha hl (hs.ahead l hJ) hK, trivial⟩
  · cases h

/-! ### Instructions -/

theorem emit {i : Instr} (hi : i.isPhi = false) (hr : i.result? = none) (hJ : ∀ m ∈ i.successors, m ∈ J)
    (hops : ∀ v ∈ i.operands, Held J v s) : Advances [] J s (build (.emit i)) := by
  intro hs _ s' h
  obtain ⟨-, ho, rfl⟩ | ⟨e, h, -⟩ := build_emit h
  · exact ⟨.push hs ho hJ (feeds_of_held hs.toLabelled hi hops) hr, trivial⟩
  · cases h

theorem emitTemp {i : TempId → Instr} (hi : ∀ r, (i r).isPlain = true) (hr : ∀ r, (i r).result? = some r)
    (hops : ∀ r, ∀ v ∈ (i r).operands, Held J v s) :
    Develops [] J s (build (.emitTemp i)) fun r => Held J (.temp r) := by
  intro hs r s' h
  have hJ (r : TempId) : (i r).successors = [] := Instr.successors_of_isPlain (hi r)
  have huses (r : TempId) := feeds_of_held hs.toLabelled (Instr.isPhi_of_isPlain (hi r)) (hops r)
  obtain ⟨honward, hheld, -⟩ := emitTemp_onward hs h hr hJ huses
  exact ⟨honward, hheld⟩

/-- An instruction in the current block, or in a new one. -/
theorem instr {i : Instr} (hi : i.isPhi = false) (hr : i.result? = none) (hJ : ∀ m ∈ i.successors, m ∈ J)
    (hops : ∀ v ∈ i.operands, Held J v s) : Advances [] J s (Emit.openBlock >>= fun _ => build (.emit i)) :=
  openBlock_bind fun _ h₁ => emit hi hr hJ fun v hv => (hops v hv).later h₁

theorem temp_bind {i : TempId → Instr} {f : TempId → EmitM β} (hi : ∀ r, (i r).isPlain = true)
    (hr : ∀ r, (i r).result? = some r) (hops : ∀ r, ∀ v ∈ (i r).operands, Held J v s)
    (hf : ∀ r s₁, Onward [] J s s₁ → Held J (.temp r) s₁ → Develops [] J s₁ (f r) R) :
    Develops [] J s (Emit.openBlock >>= fun _ => build (.emitTemp i) >>= f) R := by
  rw [← bind_assoc]
  refine Develops.bind (openBlock_bind fun _ h₁ => ?_) hf
  exact emitTemp hi hr fun r v hv => (hops r v hv).later h₁

theorem jump {target : LabelId} (h : target ∈ J) : Advances [] J s (Emit.jump target) :=
  instr rfl rfl (by simpa [Instr.successors] using h) (by simp [Instr.operands])

theorem condJump {v : Value} {onTrue onFalse : LabelId} (hv : Held J v s) (ht : onTrue ∈ J) (hf : onFalse ∈ J) :
    Advances [] J s (Emit.condJump v onTrue onFalse) :=
  instr rfl rfl (by simp [Instr.successors, ht, hf]) (by simpa [Instr.operands] using hv)

theorem ret {v : Option Value} (hv : ∀ a ∈ v, Held J a s) : Advances [] J s (Emit.ret v) :=
  instr rfl rfl (by simp [Instr.successors]) (by simpa [Instr.operands] using hv)

theorem store {value address : Value} (hv : Held J value s) (ha : Held J address s) (ty : Ty) :
    Advances [] J s (Emit.store value address ty) :=
  instr rfl rfl (by simp [Instr.successors]) (by simp [Instr.operands, hv, ha])

theorem load {address : Value} (h : Held J address s) (ty : Ty) : Develops [] J s (Emit.load address ty) (Held J) :=
  temp_bind (fun _ => rfl) (fun _ => rfl) (by simpa [Instr.operands] using h) fun _ _ _ hr => .pure hr

theorem arith {a b : Value} (op : BinOp) (ha : Held J a s) (hb : Held J b s) (ty : Ty) :
    Develops [] J s (Emit.arith op a b ty) (Held J) :=
  temp_bind (fun _ => rfl) (fun _ => rfl) (by simp [Instr.operands, ha, hb]) fun _ _ _ hr => .pure hr

theorem compare {a b : Value} (op : BinOp) (ha : Held J a s) (hb : Held J b s) :
    Develops [] J s (Emit.compare op a b) (Held J) :=
  temp_bind (fun _ => rfl) (fun _ => rfl) (by simp [Instr.operands, ha, hb]) fun _ _ _ hr => .pure hr

theorem unary {a : Value} (op : UnOp) (h : Held J a s) (ty : Ty) : Develops [] J s (Emit.unary op a ty) (Held J) :=
  temp_bind (fun _ => rfl) (fun _ => rfl) (by simpa [Instr.operands] using h) fun _ _ _ hr => .pure hr

theorem offset {base : Value} {indices : List Value} (hb : Held J base s) (hi : ∀ v ∈ indices, Held J v s) (ty : Ty) :
    Develops [] J s (Emit.openBlock >>= fun _ => build (.offset base indices ty)) (Held J) := by
  simp only [build_offset_eq]
  exact temp_bind (fun _ => rfl) (fun _ => rfl) (by simpa [Instr.operands] using And.intro hb hi)
    fun _ _ _ hr => .pure hr

theorem call {callee : Value} {args : List Value} (hc : Held J callee s) (ha : ∀ v ∈ args, Held J v s) (ty : Ty) :
    Develops [] J s (Emit.call callee args ty) fun r s' => Held J (r.getD .undef) s' := by
  have hops (r : Option TempId) : ∀ v ∈ (Instr.call r callee args ty).operands, Held J v s := by
    simpa [Instr.operands] using And.intro hc ha
  unfold Emit.call BuilderM.call
  split
  · simp only [build_bind, bind_assoc]
    rw [← bind_assoc]
    exact (instr rfl rfl (by simp [Instr.successors]) (hops none)).bind fun _ _ _ _ => .pure (held_of_temps_nil rfl)
  · simp only [build_map, bind_assoc, pure_bind]
    exact temp_bind (fun _ => rfl) (fun _ => rfl) (fun r => hops (some r)) fun _ _ _ hr => .pure hr

theorem recordType (ty : Ty) : Advances K J s (Emit.recordType ty) := by
  intro hs _ s' h
  obtain ⟨-, rfl⟩ := Ends.modify_iff.1 h
  exact ⟨.note hs rfl rfl rfl List.prefix_rfl (List.Subset.refl _) fun _ => .inl, trivial⟩

theorem temporary (ty : Ty) : Develops [] J s (Emit.temporary ty) (Held J) := by
  refine openBlock_bind fun _ _ => (recordType ty).bind fun _ _ _ _ => ?_
  rw [build_alloca_eq]
  exact (emitTemp (fun _ => rfl) (fun _ => rfl) (by simp [Instr.operands])).bind fun _ _ _ hr => .pure hr

theorem localVariable (symbol : SymbolId) (name : String) (ty : Ty) :
    Develops [] J s (Emit.localVariable symbol name ty) (Held J) := by
  refine openBlock_bind fun _ _ => (recordType ty).bind fun _ _ _ _ => ?_
  refine (emit rfl rfl (by simp [Instr.successors]) (by simp [Instr.operands])).bind fun _ s₁ _ _ hs₁ v s₅ h => ?_
  rw [build_alloca_eq, bind_assoc] at h
  obtain ⟨r, s₂, h₂, h⟩ := Ends.bind_ok_iff.1 h
  rw [pure_bind] at h
  obtain ⟨_, s₃, h₃, h₄⟩ := Ends.bind_ok_iff.1 h
  obtain ⟨-, rfl⟩ := Ends.modify_iff.1 h₃
  obtain ⟨hv, rfl⟩ := Ends.pure_iff.1 h₄
  cases hv
  obtain ⟨honward, hheld, hmem⟩ := emitTemp_onward hs₁ h₂ (fun _ => rfl) (fun _ => rfl)
    (by simp [Instr.uses, Instr.temps, Instr.operands])
  -- the slot is noted for the variable
  have hnote : Onward [] J s₂ { s₂ with locals := (symbol, .temp r) :: s₂.locals } := by
    refine .note honward.after rfl rfl rfl List.prefix_rfl (List.subset_cons_self _ _) fun p hp => ?_
    rcases List.mem_cons.1 hp with rfl | hp
    · exact .inr ⟨r, ty, .ptr ty, rfl, hmem⟩
    · exact .inl hp
  exact ⟨honward.trans hnote, hheld.later hnote⟩

/-- A merge of values that are defined where control comes from. -/
theorem merge {incoming : List (Value × LabelId)} (ty : Ty)
    (h : ∀ p ∈ incoming, ∀ t ∈ p.1.temps, s.Feeds J t p.2) : Develops [] J s (Emit.merge incoming ty) (Held J) := by
  refine openBlock_bind fun s₁ h₁ hs₁ v s₃ hends => ?_
  obtain ⟨r, s₂, h₂, h₃⟩ := Ends.bind_ok_iff.1 hends
  obtain ⟨hv, rfl⟩ := Ends.pure_iff.1 h₃
  cases hv
  have huses : ∀ r l, s₁.builder.current = some l → ∀ u ∈ (Instr.phi r incoming ty).uses l, s₁.Feeds J u.1 u.2 := by
    intro r l _ u hu
    obtain ⟨p, hp, hu⟩ := List.mem_flatMap.1 hu
    obtain ⟨t, ht, rfl⟩ := List.mem_map.1 hu
    exact (h p hp t ht).onward h₁
  obtain ⟨honward, hheld, -⟩ := emitTemp_onward hs₁ h₂ (fun _ => rfl) (fun _ => rfl) huses
  exact ⟨honward, hheld⟩

theorem currentLabel_bind {f : LabelId → EmitM β}
    (hf : ∀ l, s.builder.current = some l → Develops K J s (f l) R) : Develops K J s (currentLabel >>= f) R := by
  intro hs b s' h
  obtain ⟨l, s₁, h₁, h₂⟩ := Ends.bind_ok_iff.1 h
  obtain ⟨rfl, hl⟩ := currentLabel_ends h₁
  exact hf l hl hs h₂

end Develops

end TypedCore
