import TypedCore.Proofs.Graph.Targets

/-!
# Finished functions are well-formed graphs

The blocks of a finished function have distinct labels, each ends in its only terminator, all targets
are blocks of the function, and the edges noted in the blocks, forward and backward, are those of the
terminators.
-/

namespace TypedCore

open Ir Lowering Emit Emitter

/-! ### Predecessors -/

/-- The sources of the edges to `id`, each once, in the order of the edges. -/
def arrivals (id : LabelId) (ps : List LabelId) (edges : List (LabelId × LabelId)) : List LabelId :=
  edges.foldl (fun ps e => if e.2 = id then (if ps.contains e.1 then ps else ps ++ [e.1]) else ps) ps

theorem mem_arrivals (id l : LabelId) (ps : List LabelId) (edges : List (LabelId × LabelId)) :
    l ∈ arrivals id ps edges ↔ l ∈ ps ∨ (l, id) ∈ edges := by
  induction edges generalizing ps with
  | nil => simp [arrivals]
  | cons e edges ih =>
    obtain ⟨a, b⟩ := e
    rw [arrivals, List.foldl_cons, ← arrivals, ih]
    by_cases hb : b = id
    · by_cases ha : a ∈ ps
      · simp only [hb, if_true, List.contains_eq_mem, ha, decide_true, List.mem_cons, Prod.mk.injEq,
          and_true]
        refine ⟨Or.imp_right .inr, ?_⟩
        rintro (h | rfl | h)
        exacts [.inl h, .inl ha, .inr h]
      · simp [hb, ha, or_assoc]
    · simp [hb, Ne.symm hb]

theorem arrivals_nodup (id : LabelId) {ps : List LabelId} (edges : List (LabelId × LabelId))
    (h : ps.Nodup) : (arrivals id ps edges).Nodup := by
  induction edges generalizing ps with
  | nil => exact h
  | cons e edges ih =>
    rw [arrivals, List.foldl_cons, ← arrivals]
    refine ih ?_
    split
    · split
      · exact h
      · rename_i hmem
        exact List.nodup_append.2 ⟨h, by simp, by
          intro x hx y hy; rw [List.mem_singleton.1 hy]; rintro rfl; simp [hx] at hmem⟩
    · exact h

theorem modifyBlock_eq_map {l : LabelId} {g : Block → Block} {bs : List Block}
    (h : (bs.map (·.id)).Nodup) :
    modifyBlock l g bs = bs.map fun b => if b.id = l then g b else b := by
  induction bs with
  | nil => rfl
  | cons b bs ih =>
    obtain ⟨hb, hbs⟩ := List.nodup_cons.1 h
    by_cases hl : b.id = l
    · subst hl
      have hother : ∀ c ∈ bs, (if c.id = b.id then g c else c) = c := by
        intro c hc
        exact if_neg fun hid => hb (List.mem_map.2 ⟨c, hc, hid⟩)
      simp [modifyBlock, List.map_congr_left hother]
    · simp [modifyBlock, hl, ih hbs]

/-- The blocks of a function with the predecessors `ps`. -/
def withPredecessors (ps : LabelId → List LabelId) (bs : List Block) : List Block :=
  bs.map fun b => { b with predecessors := ps b.id }

theorem map_id_withPredecessors (ps : LabelId → List LabelId) (bs : List Block) :
    (withPredecessors ps bs).map (·.id) = bs.map (·.id) := by simp [withPredecessors]

theorem foldl_withPredecessors {bs : List Block} (h : (bs.map (·.id)).Nodup)
    (edges : List (LabelId × LabelId)) (ps : LabelId → List LabelId) :
    edges.foldl (fun blocks edge => modifyBlock edge.2 (fun b =>
        if b.predecessors.contains edge.1 then b
        else { b with predecessors := b.predecessors ++ [edge.1] }) blocks) (withPredecessors ps bs) =
      withPredecessors (fun id => arrivals id (ps id) edges) bs := by
  induction edges generalizing ps with
  | nil => rfl
  | cons e edges ih =>
    rw [List.foldl_cons, modifyBlock_eq_map (by rw [map_id_withPredecessors]; exact h)]
    refine Eq.trans ?_ (ih fun id => if e.2 = id then
      (if (ps id).contains e.1 then ps id else ps id ++ [e.1]) else ps id)
    congr 1
    simp only [withPredecessors, List.map_map]
    refine List.map_congr_left fun b _ => ?_
    simp only [Function.comp_apply, eq_comm]
    by_cases hb : b.id = e.2
    · simp only [hb, if_true]
      split <;> rfl
    · simp [hb]

theorem linkPredecessors_blocks {f : Function} (h : (f.blocks.map (·.id)).Nodup) :
    f.linkPredecessors.blocks = withPredecessors (fun id => arrivals id [] f.edges) f.blocks :=
  foldl_withPredecessors h f.edges fun _ => []

/-! ### Well-formed functions -/

/-- A block that control enters at its start and leaves only at its end. -/
structure Ir.Block.Ended (b : Block) : Prop where
  terminated : ∃ init term, b.instrs = init ++ [term] ∧ term.isTerminator = true ∧
    (∀ i ∈ init, i.isTerminator = false) ∧ b.successors = term.successors

structure Ir.Function.WellFormed (f : Function) : Prop where
  entry : f.blocks ≠ []
  distinct : (f.blocks.map (·.id)).Nodup
  ended : ∀ b ∈ f.blocks, b.Ended
  targets : ∀ b ∈ f.blocks, ∀ l ∈ b.successors, l ∈ f.blocks.map (·.id)
  predecessors_nodup : ∀ b ∈ f.blocks, b.predecessors.Nodup
  mem_predecessors : ∀ b ∈ f.blocks, ∀ l,
    l ∈ b.predecessors ↔ ∃ c ∈ f.blocks, c.id = l ∧ b.id ∈ c.successors

theorem Ir.Block.Tidy.ended {b : Block} (h : b.Tidy) (hb : b.hasTerminator = true) : b.Ended := by
  rcases List.eq_nil_or_concat b.instrs with hn | ⟨init, term, hn⟩
  · simp [Block.hasTerminator, Block.terminator?, hn] at hb
  · rw [List.concat_eq_append] at hn
    have hterm : term.isTerminator = true := by
      simpa [Block.hasTerminator, Block.terminator?, hn] using hb
    have hinit : ∀ i ∈ init, i.isTerminator = false := by simpa [hn] using h.inner
    exact ⟨init, term, hn, hterm, hinit, h.successors_eq hn⟩

/-- Noting the predecessors changes nothing else in the blocks. -/
theorem forall_linkPredecessors {f : Function} (hd : (f.blocks.map (·.id)).Nodup) {P : Block → Prop}
    (hP : ∀ b ps, P { b with predecessors := ps } ↔ P b) :
    (∀ b ∈ f.linkPredecessors.blocks, P b) ↔ ∀ b ∈ f.blocks, P b := by
  rw [linkPredecessors_blocks hd, withPredecessors, List.forall_mem_map]
  exact forall₂_congr fun b _ => hP b _

theorem map_id_linkPredecessors {f : Function} (hd : (f.blocks.map (·.id)).Nodup) :
    f.linkPredecessors.blocks.map (·.id) = f.blocks.map (·.id) := by
  rw [linkPredecessors_blocks hd, map_id_withPredecessors]

theorem linkPredecessors_ended {f : Function} (hd : (f.blocks.map (·.id)).Nodup) :
    (∀ b ∈ f.linkPredecessors.blocks, b.Ended) ↔ ∀ b ∈ f.blocks, b.Ended :=
  forall_linkPredecessors hd fun _ _ => ⟨fun h => ⟨h.terminated⟩, fun h => ⟨h.terminated⟩⟩

theorem linkPredecessors_targets {f : Function} (hd : (f.blocks.map (·.id)).Nodup) :
    (∀ b ∈ f.linkPredecessors.blocks, ∀ l ∈ b.successors, l ∈ f.linkPredecessors.blocks.map (·.id)) ↔
      ∀ b ∈ f.blocks, ∀ l ∈ b.successors, l ∈ f.blocks.map (·.id) := by
  rw [map_id_linkPredecessors hd]
  exact forall_linkPredecessors hd fun _ _ => Iff.rfl

/-- Each block is given the blocks that lead to it, each once. -/
theorem linkPredecessors_predecessors {f : Function} (hd : (f.blocks.map (·.id)).Nodup) :
    ∀ b ∈ f.linkPredecessors.blocks, b.predecessors.Nodup ∧
      ∀ l, l ∈ b.predecessors ↔ ∃ c ∈ f.linkPredecessors.blocks, c.id = l ∧ b.id ∈ c.successors := by
  have hb := linkPredecessors_blocks hd
  intro b h
  rw [hb] at h
  obtain ⟨c, -, rfl⟩ := List.mem_map.1 h
  refine ⟨arrivals_nodup c.id f.edges List.nodup_nil, fun l => ?_⟩
  show l ∈ arrivals c.id [] f.edges ↔ _
  simp only [mem_arrivals, List.not_mem_nil, false_or, Function.edges, List.mem_flatMap,
    List.mem_map, Prod.mk.injEq, hb, withPredecessors, exists_exists_and_eq_and]
  constructor
  · rintro ⟨a, ha, _, hs, rfl, rfl⟩
    exact ⟨a, ha, rfl, hs⟩
  · rintro ⟨a, ha, rfl, hs⟩
    exact ⟨a, ha, _, hs, rfl, rfl⟩

/-- Noting the predecessors completes a function whose blocks are closed and whose targets exist. -/
theorem linkPredecessors_wellFormed {f : Function} (hn : f.blocks ≠ []) (hd : (f.blocks.map (·.id)).Nodup)
    (he : ∀ b ∈ f.blocks, b.Ended)
    (ht : ∀ b ∈ f.blocks, ∀ l ∈ b.successors, l ∈ f.blocks.map (·.id)) :
    f.linkPredecessors.WellFormed := by
  refine ⟨?_, (map_id_linkPredecessors hd).symm ▸ hd, (linkPredecessors_ended hd).2 he,
    (linkPredecessors_targets hd).2 ht, fun b h => (linkPredecessors_predecessors hd b h).1,
    fun b h => (linkPredecessors_predecessors hd b h).2⟩
  rw [linkPredecessors_blocks hd]
  simpa [withPredecessors] using hn

/-! ### Whole functions -/

variable {s s' : Emitter}

theorem enter_owes (s : Emitter) (name : String) (ret : Ty) (params : List Parameter)
    (variadic : Bool) : (s.enter name ret params variadic).Owes [] :=
  ⟨s.enter_drafting name ret params variadic, fun l hl => by simp [targets] at hl⟩

theorem spill_settles (params : List Parameter) (index : Nat) : Settles [] (spill index params) [] := by
  induction params generalizing index with
  | nil => exact .pure _
  | cons p params ih =>
    exact (localVariable_settles p.symbol p.name p.ty).bind fun slot =>
      (Settles.emit (.store (.temp index) slot p.ty)).bind fun _ => ih (index + 1)

theorem body_settles (sts : List (TypeTable × Stmt)) : Settles [] (body sts) [] := by
  induction sts with
  | nil => exact .pure _
  | cons p sts ih => exact (statement_settles p.1 p.2 []).bind fun _ => ih

namespace Emitter

theorem Drafting.ended_of_closed (hs : s.Drafting) (ha : s.acceptsInstr = false) : ∀ b ∈ s.blocks, b.Ended := by
  obtain ⟨pre, b, hb, hc, -⟩ := hs.exists_last
  have hpre : ∀ x ∈ pre, x.hasTerminator = true := by simpa [hb] using hs.closed
  rw [hs.acceptsInstr_eq hb hc] at ha
  refine fun x hx => (hs.tidy x hx).ended ?_
  rw [hb] at hx
  rcases List.mem_append.1 hx with hx | hx
  · exact hpre x hx
  · rw [List.mem_singleton.1 hx]; simpa using ha

/-- The blocks that are left when a function is closed have labels of their own, and control has left each
of them. -/
theorem Finishes.ended {bs : List Block} (h : s.Finishes bs) (hs : s.Drafting) :
    bs ≠ [] ∧ (bs.map (·.id)).Nodup ∧ ∀ b ∈ bs, b.Ended := by
  have hne {s : Emitter} (hs : s.Drafting) : s.blocks ≠ [] := by
    obtain ⟨pre, b, hb, -⟩ := hs.exists_last
    simp [hb]
  cases h with
  | closed ha => exact ⟨hne hs, hs.nodup, hs.ended_of_closed ha⟩
  | returned ho _ =>
    have hs' := hs.push ho (.ret none)
    exact ⟨hne hs', hs'.nodup, hs'.ended_of_closed (ho.push_terminator rfl)⟩
  | dropped ho hb hpre =>
    have hnd := hs.nodup
    rw [defined, hb, List.map_append] at hnd
    have hterm : ∀ x ∈ bs, x.hasTerminator = true := by simpa [hb] using hs.closed
    exact ⟨hpre, (List.nodup_append.1 hnd).1, fun x hx => (hs.tidy x (by simp [hb, hx])).ended (hterm x hx)⟩

/-- They lead to each other if every jump so far goes to a block. -/
theorem Finishes.targets_iff {bs : List Block} (h : s.Finishes bs) (hs : s.Drafting) :
    (∀ b ∈ bs, ∀ l ∈ b.successors, l ∈ bs.map (·.id)) ↔ ∀ l ∈ s.targets, l ∈ s.defined := by
  cases h with
  | closed _ => exact List.forall_mem_flatMap.symm
  | returned ho _ =>
    obtain ⟨pre, b, hb, hc, -⟩ := hs.exists_last
    have hdefined : (s.push (.ret none)).blocks.map (·.id) = s.defined := by
      simp [defined, hs.blocks_push hb hc, hb, Block.push]
    have htargets : (s.push (.ret none)).blocks.flatMap (·.successors) = s.targets := by
      simp [targets, hs.blocks_push hb hc, hb, Block.push, Instr.successors]
    rw [hdefined, ← htargets]
    exact List.forall_mem_flatMap.symm
  | @dropped _ b ho hb _ hempty htarget =>
    have hsucc : b.successors = [] := by simp [(hs.tidy b (by simp [hb])).successors, hempty]
    have htargets : s.targets = bs.flatMap (·.successors) := by simp [targets, hb, hsucc]
    have hdefined : s.defined = bs.map (·.id) ++ [b.id] := by simp [defined, hb]
    rw [htargets] at htarget ⊢
    rw [hdefined, List.forall_mem_flatMap]
    refine forall₄_congr fun x hx l hl => ?_
    -- nothing leads to the block that is dropped
    have hlb : l ≠ b.id := fun h => htarget (h ▸ List.mem_flatMap.2 ⟨x, hx, hl⟩)
    simp [hlb]

theorem Finishes.wellFormed {bs : List Block} {f : Function} (h : s.Finishes bs) (hs : s.Owes [])
    (hf : f.blocks = bs) : f.linkPredecessors.WellFormed := by
  subst hf
  obtain ⟨hne, hnd, hended⟩ := h.ended hs.toDrafting
  refine linkPredecessors_wellFormed hne hnd hended ((h.targets_iff hs.toDrafting).2 fun l hl => ?_)
  simpa using hs.owed l hl

end Emitter

/-- A function that is begun, given any statements and closed is well-formed. -/
theorem finished_function_wellFormed {t : TypeTable} {name : String} {ty : TypeId}
    {params : List (SymbolId × String)} {sts : List (TypeTable × Stmt)} {s s' : Emitter}
    (h : Ends (function t name ty params sts) s (.ok ()) s') :
    ∃ f, s'.module.functions = s.module.functions ++ [f] ∧ f.name = name ∧ f.WellFormed := by
  obtain ⟨_, _, variadic, ir, ps, s₁, s₂, bs, -, -, -, hspill, hbody, hfin, hmod, -⟩ := function_ok h
  have howes : s₂.Owes [] :=
    body_settles sts (spill_settles ps 0 (enter_owes s name ir ps variadic) hspill) hbody
  exact ⟨_, hmod, rfl, hfin.wellFormed howes rfl⟩

/-! ### A function with a loop -/

namespace Procedure

/-- The types bool and `void (bool)`. -/
def types : TypeM (TypeId × TypeId) := do
  let bool ← TypeM.bool
  return (bool, ← TypeM.function (← TypeM.void) [bool] false)

def table : TypeTable := (types default).2

def bool : TypeId := (types default).1.1

def ty : TypeId := (types default).1.2

def parameter : Expr := .identifier "p" 0 .automatic none ⟨bool, default⟩

/-- A loop with a declaration and a return in it, and a statement that is not reached. -/
def statements : List Stmt :=
  [.loop (.unary .logicalNot parameter ⟨bool, default⟩)
    [.decl { symbol := 1, name := "q", ty := bool, storage := .automatic, init := some parameter },
      .ifElse parameter [.ret none, .expr parameter] []]]

def emitted : Emitter :=
  ((function table "g" ty [(0, "p")] (statements.map (table, ·))).run.run (Emitter.new "m")).2

theorem emits : Ends (function table "g" ty [(0, "p")] (statements.map (table, ·))) (Emitter.new "m")
    (.ok ()) emitted := by
  obtain ⟨_, h⟩ := Ends.of_isOk (s := Emitter.new "m")
    (x := function table "g" ty [(0, "p")] (statements.map (table, ·))) (by decide +kernel)
  exact h

end Procedure

theorem procedure_wellFormed :
    Ends (function Procedure.table "g" Procedure.ty [(0, "p")]
      (Procedure.statements.map (Procedure.table, ·))) (Emitter.new "m") (.ok ()) Procedure.emitted ∧
    ∃ f, Procedure.emitted.module.functions = [f] ∧ f.name = "g" ∧ f.WellFormed :=
  ⟨Procedure.emits, finished_function_wellFormed Procedure.emits⟩

end TypedCore
