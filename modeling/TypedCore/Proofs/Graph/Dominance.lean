import TypedCore.Proofs.Graph.Merges

/-!
# Definitions come before uses on all ways

A function is in SSA form if every temporary has one definition and control gets to a use only through it. While code
is generated, labels are numbered as they are taken, so the blocks that follow a definition are an interval of labels:
`s.Bars l m n` says that control enters the labels from `m` up to `n` only from the block `l`. If `l` defines a
temporary, it is thus defined in all of them. `s.Governs J l`: this is so where code goes to now, and stays so as long
as no block of a label of `J` is started. `s.Encloses J l u`: control gets to block `u` only through `l`, and this is
not undone by jumps to labels of `J` and to new ones.
-/

namespace TypedCore

open Ir

/-! ### Uses and definitions -/

namespace Ir

mutual

/-- The temporaries in a value. -/
def Value.temps : Value → List TempId
  | .temp t => [t]
  | .aggregate items => Value.allTemps items
  | _ => []

def Value.allTemps : List Value → List TempId
  | [] => []
  | v :: rest => v.temps ++ Value.allTemps rest

end

namespace Instr

def operands : Instr → List Value
  | binary _ _ lhs rhs _ => [lhs, rhs]
  | unary _ _ operand _ => [operand]
  | load _ ptr _ => [ptr]
  | store value ptr _ => [value, ptr]
  | offset _ ptr indices _ => ptr :: indices
  | alloca .. => []
  | call _ callee args _ => callee :: args
  | ret value => value.toList
  | branch _ => []
  | branchIf condition _ _ => [condition]
  | phi _ incoming _ => incoming.map (·.1)
  | comment _ => []

/-- The temporaries that an instruction needs. -/
def temps (i : Instr) : List TempId := i.operands.flatMap (·.temps)

/-- The temporaries that an instruction of block `l` needs, with the blocks where it needs them: a merge takes each
value at the end of the block that it comes from. -/
def uses (l : LabelId) (i : Instr) : List (TempId × LabelId) :=
  match i with
  | phi _ incoming _ => incoming.flatMap fun p => p.1.temps.map (·, p.2)
  | i => i.temps.map (·, l)

theorem uses_of_not_phi {i : Instr} (h : i.isPhi = false) (l : LabelId) : i.uses l = i.temps.map (·, l) := by
  cases i with
  | phi => cases h
  | _ => rfl

theorem exists_use {i : Instr} {t : TempId} (ht : t ∈ i.temps) (l : LabelId) : ∃ u ∈ i.uses l, u.1 = t := by
  cases hi : i.isPhi with
  | false =>
    rw [uses_of_not_phi hi]
    exact ⟨(t, l), List.mem_map.2 ⟨t, ht, rfl⟩, rfl⟩
  | true =>
    cases i with
    | phi r incoming ty =>
      simp only [temps, operands, List.flatMap_map, List.mem_flatMap] at ht
      obtain ⟨p, hp, ht⟩ := ht
      exact ⟨(t, p.2), List.mem_flatMap.2 ⟨p, hp, List.mem_map.2 ⟨t, ht, rfl⟩⟩, rfl⟩
    | _ => cases hi

end Instr

def instrsOf (bs : List Block) : List Instr := bs.flatMap (·.instrs)

def resultsOf (is : List Instr) : List TempId := is.filterMap (·.result?)

theorem resultsOf_append (is js : List Instr) : resultsOf (is ++ js) = resultsOf is ++ resultsOf js :=
  List.filterMap_append

theorem mem_resultsOf {is : List Instr} {t : TempId} : t ∈ resultsOf is ↔ ∃ i ∈ is, i.result? = some t :=
  List.mem_filterMap

/-! ### Dominance -/

namespace Function

/-- A way from the entry through the blocks, the last one first. -/
inductive Walk (f : Function) : List LabelId → Prop
  | entry {b : Block} (h : f.entry? = some b) : Walk f [b.id]
  | step {l m : LabelId} {ls : List LabelId} (h : Walk f (l :: ls)) (he : (l, m) ∈ f.edges) : Walk f (m :: l :: ls)

/-- Control gets to `l` only through `d`. -/
def Dominates (f : Function) (d l : LabelId) : Prop := ∀ ls, f.Walk (l :: ls) → d ∈ l :: ls

/-- When control is in block `l` behind the instructions `pre`, it has come through a definition of `t`. -/
def Supplies (f : Function) (t : TempId) (l : LabelId) (pre : List Instr) : Prop :=
  t ∈ f.params.map (·.1) ∨ t ∈ resultsOf pre ∨
    ∃ c ∈ f.blocks, c.id ≠ l ∧ t ∈ resultsOf c.instrs ∧ f.Dominates c.id l

/-- Every temporary has one definition, which comes before all its uses. The slots of variables are known to do so in
the order of the blocks only. -/
structure InSsaForm (f : Function) (slots : List TempId) : Prop where
  allocated : ∀ t ∈ slots, ∃ slot ty, .alloca t slot ty ∈ instrsOf f.blocks
  params : f.params.map (·.1) = List.range f.params.length
  results_nodup : (resultsOf (instrsOf f.blocks)).Nodup
  results_new : ∀ t ∈ resultsOf (instrsOf f.blocks), t ∉ f.params.map (·.1)
  operands : ∀ b ∈ f.blocks, ∀ pre i post, b.instrs = pre ++ i :: post → i.isPhi = false →
    ∀ t ∈ i.temps, t ∈ slots ∨ f.Supplies t b.id pre
  merged : ∀ b ∈ f.blocks, ∀ r incoming ty, .phi r incoming ty ∈ b.instrs → ∀ p ∈ incoming, ∀ t ∈ p.1.temps,
    t ∈ slots ∨ ∃ c ∈ f.blocks, c.id = p.2 ∧ f.Supplies t c.id c.instrs
  ordered : ∀ pre i post, instrsOf f.blocks = pre ++ i :: post →
    ∀ t ∈ i.temps, t ∈ f.params.map (·.1) ∨ t ∈ resultsOf pre

end Function

end Ir

namespace Emitter

variable {s s' : Emitter} {J K : List LabelId} {l m n u : LabelId}

/-! ### What steps do to the graph -/

namespace Drafting

/-- New edges start in the current block and in new ones. -/
theorem sources_steps (hs : s.Drafting) (h : Steps s s') :
    (∀ a b, s'.Leads a b → s.Leads a b ∨ s.builder.current = some a ∨ a ∉ s.defined) ∧
      (s'.builder.current = s.builder.current ∨ ∀ l, s'.builder.current = some l → l ∉ s.defined) := by
  induction h with
  | refl => exact ⟨fun _ _ => .inl, .inl rfl⟩
  | @tail s₁ _ hsteps hstep ih =>
    have hs₁ := hs.steps hsteps
    obtain ⟨hleads, hcur⟩ := ih
    cases hstep with
    | label => exact ⟨hleads, hcur⟩
    | temp => exact ⟨hleads, hcur⟩
    | block l _ _ hl =>
      refine ⟨fun a b hab => hleads a b (hs₁.leads_startBlock.1 hab), .inr fun l' hl' => ?_⟩
      rw [← Option.some.inj hl']
      exact fun hmem => hl (hs.defined_subset hsteps hmem)
    | instr i _ =>
      refine ⟨fun a b hab => ?_, hcur⟩
      rcases (hs₁.leads_push i).1 hab with hab | ⟨ha, -⟩
      · exact hleads a b hab
      · rcases hcur with heq | hno
        · exact .inr (.inl (heq ▸ ha))
        · exact .inr (.inr (hno a ha))
    | note _ hb _ _ _ => simpa only [Leads, blocks, hb] using And.intro hleads hcur

/-- The entry stays. -/
theorem entry_steps (hs : s.Drafting) (h : Steps s s') : s'.defined.head? = s.defined.head? := by
  obtain ⟨rest, hrest⟩ := (hs.prefixed h).prefix_ids
  obtain ⟨pre, b, hb, -⟩ := hs.last
  rw [defined, ← hrest, defined]
  simp [hb, List.head?_append]

end Drafting

/-! ### Blocks that control enters in one place -/

/-- Control enters the labels from `m` up to `n` only from the block `l`. -/
structure Bars (s : Emitter) (l m n : LabelId) : Prop where
  entry : ∀ e, s.defined.head? = some e → e < m
  leads : ∀ a b, s.Leads a b → m ≤ b → b < n → a = l ∨ m ≤ a ∧ a < n

/-- Going back from one of the labels, one comes to `l` before the entry. -/
theorem Bars.dominates {f : Function} (h : s.Bars l m n) (hentry : f.entry?.map (·.id) = s.defined.head?)
    (hedges : ∀ a b, (a, b) ∈ f.edges → s.Leads a b) (hm : m ≤ u) (hn : u < n) : f.Dominates l u := by
  intro ls hw
  generalize hpath : u :: ls = path at hw
  induction hw generalizing u ls with
  | @entry b hb =>
    cases hpath
    have hlt := h.entry b.id (by rw [← hentry, hb]; rfl)
    exact absurd hm (Nat.not_le.2 hlt)
  | @step a b path _ he ih =>
    obtain ⟨rfl, rfl⟩ := List.cons.inj hpath
    rcases h.leads a u (hedges a u he) hm hn with rfl | ⟨hma, han⟩
    · exact List.mem_cons_of_mem _ (List.mem_cons_self ..)
    · exact List.mem_cons_of_mem _ (ih hma han _ rfl)

/-- Control gets to `u` only through `l`, also after jumps to labels of `J` and to new ones. -/
def Encloses (s : Emitter) (J : List LabelId) (l u : LabelId) : Prop :=
  u = l ∨ ∃ m n, s.Bars l m n ∧ m ≤ u ∧ u < n ∧ n ≤ s.labels ∧ ∀ j ∈ J, j < m ∨ n ≤ j

namespace Encloses

theorem mono (h : s.Encloses K l u) (hJ : J ⊆ K) : s.Encloses J l u := by
  rcases h with rfl | ⟨m, n, hbars, hm, hn, hle, hK⟩
  · exact .inl rfl
  · exact .inr ⟨m, n, hbars, hm, hn, hle, fun j hj => hK j (hJ hj)⟩

theorem keep (h : s.Encloses J l u) (hs : s.Drafting) (hsteps : Steps s s') (hadds : Adds J s s') :
    s'.Encloses J l u := by
  rcases h with rfl | ⟨m, n, hbars, hm, hn, hle, hJ⟩
  · exact .inl rfl
  refine .inr ⟨m, n, ⟨?_, fun a b hab hmb hbn => ?_⟩, hm, hn, Nat.le_trans hle hadds.labels_le, hJ⟩
  · rw [hs.entry_steps hsteps]
    exact hbars.entry
  · rcases hadds.leads a b hab with hab | hb | hb
    · exact hbars.leads a b hab hmb hbn
    · rcases hJ b hb with hb | hb
      · exact absurd hmb (Nat.not_le.2 hb)
      · exact absurd hbn (Nat.not_lt.2 hb)
    · exact absurd (Nat.lt_of_lt_of_le hbn hle) (Nat.not_lt.2 hb)

/-- A label that is taken after that is a new one. -/
theorem takeLabel (h : s.Encloses J l u) : s.takeLabel.Encloses (s.labels :: J) l u := by
  rcases h with rfl | ⟨m, n, hbars, hm, hn, hle, hJ⟩
  · exact .inl rfl
  refine .inr ⟨m, n, ⟨hbars.entry, hbars.leads⟩, hm, hn, Nat.le_succ_of_le hle, fun j hj => ?_⟩
  rcases List.mem_cons.1 hj with rfl | hj
  · exact .inr hle
  · exact hJ j hj

theorem dominates {f : Function} (h : s.Encloses J l u) (hentry : f.entry?.map (·.id) = s.defined.head?)
    (hedges : ∀ a b, (a, b) ∈ f.edges → s.Leads a b) : f.Dominates l u := by
  rcases h with rfl | ⟨m, n, hbars, hm, hn, -⟩
  · exact fun _ _ => List.mem_cons_self ..
  · exact hbars.dominates hentry hedges hm hn

end Encloses

/-- Control comes to the current block, and to the new ones after it, only through `l`. -/
def Governs (s : Emitter) (J : List LabelId) (l : LabelId) : Prop :=
  ∃ m ≤ s.labels, s.Bars l m s.labels ∧ (∀ j ∈ J, j < m) ∧ ∀ u, s.builder.current = some u → u = l ∨ m ≤ u

/-- The labels in use have been taken. -/
structure Labelled (s : Emitter) (J : List LabelId) : Prop extends s.Drafting where
  defined_lt : ∀ l ∈ s.defined, l < s.labels
  leads_lt : ∀ l m, s.Leads l m → m < s.labels
  ahead : ∀ l ∈ J, l < s.labels

theorem Leads.defined {a b : LabelId} (h : s.Leads a b) : a ∈ s.defined := by
  obtain ⟨c, hc, rfl, -⟩ := h
  exact List.mem_map_of_mem hc

theorem Drafting.current_defined (h : s.Drafting) (hu : s.builder.current = some u) : u ∈ s.defined := by
  obtain ⟨pre, b, hb, hc⟩ := h.last
  rw [hu] at hc
  cases hc
  simp [defined, hb]

namespace Governs

/-- The current block itself. -/
theorem current (hs : s.Labelled J) (hl : s.builder.current = some l) : s.Governs J l := by
  refine ⟨s.labels, Nat.le_refl _, ⟨fun e he => ?_, fun a b _ hb hb' => ?_⟩, hs.ahead, fun u hu => .inl ?_⟩
  · exact hs.defined_lt e (List.mem_of_mem_head? he)
  · exact absurd hb' (Nat.not_lt.2 hb)
  · exact Option.some.inj (hu.symm.trans hl)

theorem mono (h : s.Governs K l) (hJ : J ⊆ K) : s.Governs J l := by
  obtain ⟨m, hle, hbars, hK, hcur⟩ := h
  exact ⟨m, hle, hbars, fun j hj => hK j (hJ hj), hcur⟩

theorem encloses (h : s.Governs J l) (hs : s.Labelled J) (hu : s.builder.current = some u) : s.Encloses J l u := by
  obtain ⟨m, hle, hbars, hJ, hcur⟩ := h
  rcases hcur u hu with rfl | hm
  · exact .inl rfl
  · have hlt := hs.defined_lt u (hs.current_defined hu)
    exact .inr ⟨m, s.labels, hbars, hm, hlt, Nat.le_refl _, fun j hj => .inl (hJ j hj)⟩

/-- Code that starts blocks at new labels only does not leave the blocks behind `l`. -/
theorem later (h : s.Governs J l) (hs : s.Labelled J) (hs' : s'.Labelled J) (hsteps : Steps s s')
    (hle : s.labels ≤ s'.labels) (hnew : ∀ l ∈ s'.defined, l ∈ s.defined ∨ s.labels ≤ l) : s'.Governs J l := by
  obtain ⟨m, hm, hbars, hJ, hcur⟩ := h
  obtain ⟨hsources, hcurrent⟩ := hs.toDrafting.sources_steps hsteps
  have hfresh {a : LabelId} (ha : a ∈ s'.defined) (hno : a ∉ s.defined) : m ≤ a :=
    Nat.le_trans hm ((hnew a ha).resolve_left hno)
  refine ⟨m, Nat.le_trans hm hle, ⟨?_, fun a b hab hmb _ => ?_⟩, hJ, fun u hu => ?_⟩
  · rw [hs.toDrafting.entry_steps hsteps]
    exact hbars.entry
  · have ha' := hs'.defined_lt a hab.defined
    rcases hsources a b hab with hab | ha | ha
    · exact (hbars.leads a b hab hmb (hs.leads_lt a b hab)).imp_right fun h => ⟨h.1, ha'⟩
    · exact (hcur a ha).imp_right fun h => ⟨h, ha'⟩
    · exact .inr ⟨hfresh hab.defined ha, ha'⟩
  · rcases hcurrent with heq | hno
    · exact hcur u (heq ▸ hu)
    · exact .inr (hfresh (hs'.toDrafting.current_defined hu) (hno u hu))

end Governs

end Emitter

end TypedCore
