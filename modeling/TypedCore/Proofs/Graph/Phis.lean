import TypedCore.Proofs.Graph.Merges
import TypedCore.Proofs.Graph.WellFormed

/-!
# Merges of finished functions

Statements keep merges right, as expressions do. Their labels are their own: no merge stands in a block
that a statement jumps to. So in a finished function the labels of a merge are the predecessors of its
block.
-/

namespace TypedCore

open Ir Lowering Emit Emitter

/-! ### Statements -/

namespace Lowering

variable {J : List LabelId}

theorem branchOn_merges (t : TypeTable) (cond : Expr) {onTrue onFalse : LabelId} (ht : onTrue ∈ J)
    (hf : onFalse ∈ J) : Merges J (branchOn t cond onTrue onFalse) :=
  ((lower_structured t cond).branch onTrue onFalse).merges J (by simp [Exit.owed, ht, hf])

theorem localVariable_merges (symbol : SymbolId) (name : String) (ty : Ty) :
    Merges J (localVariable symbol name ty) :=
  Merges.openBlock.bind fun _ => (Merges.recordType ty).bind fun _ =>
    (Merges.emit (i := .comment _) rfl (by simp [Instr.successors])).bind fun _ =>
    (Merges.alloca ty).bind fun slot =>
      (Merges.note (f := fun e => { e with locals := (symbol, slot) :: e.locals })
        (fun _ => rfl) fun _ => rfl).bind fun _ => .pure _

theorem declareGlobal_merges (name : String) (ty : Ty) (init : Option Value) :
    Merges J (declareGlobal name ty init) := by
  refine (Merges.recordType ty).bind fun _ => ?_
  exact (Merges.note
    (f := fun e => { e with module := e.module.addGlobal ⟨name, ty, false, init, .external⟩ })
    (fun _ => rfl) fun _ => rfl).bind fun _ => .pure _

theorem Straight.merges {α : Type} {x : EmitM α} (h : Straight x) : Merges J x := by
  induction h with
  | code h => exact h.merges J (List.nil_subset _)
  | bind _ _ ihx ihf => exact ihx.bind ihf
  | slot symbol name ty => exact localVariable_merges symbol name ty
  | global name ty init => exact declareGlobal_merges name ty init
  | ret v => exact Merges.openBlock.bind fun _ => .emit (i := .ret v) rfl (by simp [Instr.successors])

theorem jumpIfOpen_merges {l : LabelId} (hl : l ∈ J) : Merges J (jumpIfOpen l) := by
  refine .get_bind fun s => ?_
  split
  · exact .jump hl
  · exact .pure _

mutual

/-- A statement keeps merges right, whatever else control may still be sent to. -/
theorem statement_merges (t : TypeTable) : ∀ (st : Stmt) (J : List LabelId), Merges J (statement t st)
  | .expr e, J => ((lower_structured t e).value.merges J (List.nil_subset _)).bind fun _ => .pure _
  | .ret value, _ => (returnStatement_straight t value).merges
  | .decl d, _ => (declaration_straight t d).merges
  | .ifThen cond body, _ =>
    .createLabel_bind fun _ => .createLabel_bind fun _ =>
      (branchOn_merges t cond (by simp) (by simp)).bind fun _ =>
      (Merges.defineLabel (by simp)).bind fun _ => (statements_merges t body _).bind fun _ =>
      .defineLabel (by simp)
  | .ifElse cond thenBody elseBody, _ =>
    .createLabel_bind fun _ => .createLabel_bind fun _ => .createLabel_bind fun _ =>
      (branchOn_merges t cond (by simp) (by simp)).bind fun _ =>
      (Merges.defineLabel (by simp)).bind fun _ => (statements_merges t thenBody _).bind fun _ =>
      (jumpIfOpen_merges (by simp)).bind fun _ => (Merges.defineLabel (by simp)).bind fun _ =>
      (statements_merges t elseBody _).bind fun _ => .defineLabel (by simp)
  | .loop cond body, _ =>
    .createLabel_bind fun _ => .createLabel_bind fun _ => .createLabel_bind fun _ =>
      (Merges.defineLabel (by simp)).bind fun _ =>
      (branchOn_merges t cond (by simp) (by simp)).bind fun _ =>
      (Merges.defineLabel (by simp)).bind fun _ => (statements_merges t body _).bind fun _ =>
      (jumpIfOpen_merges (by simp)).bind fun _ => .defineLabel (by simp)
  | .block body, J => statements_merges t body J

theorem statements_merges (t : TypeTable) : ∀ (body : List Stmt) (J : List LabelId),
    Merges J (statements t body)
  | [], _ => .pure _
  | st :: rest, J => (statement_merges t st J).bind fun _ => statements_merges t rest J

end

end Lowering

/-! ### Whole functions -/

variable {s s' : Emitter}

theorem enter_merged (s : Emitter) (name : String) (ret : Ty) (params : List Parameter)
    (variadic : Bool) : (s.enter name ret params variadic).Merged [] := by
  refine ⟨s.enter_drafting name ret params variadic, ?_, ?_, ?_, ?_, ?_⟩
  · intro l hl
    rw [List.mem_singleton.1 hl]
    exact Nat.lt_succ_self _
  · rintro l m ⟨b, hb, -, hm⟩
    rw [blocks_enter, List.mem_singleton] at hb
    cases hb ▸ hm
  · simp
  · intro b hb
    rw [blocks_enter, List.mem_singleton] at hb
    exact .of_no_phi (by simp [hb])
  · simp

theorem spill_merges (params : List Parameter) (index : Nat) : Merges [] (spill index params) := by
  induction params generalizing index with
  | nil => exact .pure _
  | cons p params ih =>
    exact (localVariable_merges p.symbol p.name p.ty).bind fun slot =>
      (Merges.emit (i := .store (.temp index) slot p.ty) rfl (by simp [Instr.successors])).bind
        fun _ => ih (index + 1)

theorem body_merges (sts : List (TypeTable × Stmt)) : Merges [] (body sts) := by
  induction sts with
  | nil => exact .pure _
  | cons p sts ih => exact (statement_merges p.1 p.2 []).bind fun _ => ih

/-- Once predecessors are noted, merges that match the edges match the predecessors. -/
theorem linkPredecessors_phis {f : Function} (hd : (f.blocks.map (·.id)).Nodup)
    (h : ∀ b ∈ f.blocks, b.PhisFrom fun l => ∃ c ∈ f.blocks, c.id = l ∧ b.id ∈ c.successors) :
    ∀ b ∈ f.linkPredecessors.blocks, b.PhisFrom (· ∈ b.predecessors) := by
  intro b hb
  rw [linkPredecessors_blocks hd] at hb
  obtain ⟨c, hc, rfl⟩ := List.mem_map.1 hb
  refine (h c hc).congr rfl fun _ _ _ l => ?_
  simp only [mem_arrivals, List.not_mem_nil, false_or, Function.edges, List.mem_flatMap,
    List.mem_map, Prod.mk.injEq]
  constructor
  · rintro ⟨a, ha, rfl, hs⟩
    exact ⟨a, ha, _, hs, rfl, rfl⟩
  · rintro ⟨a, ha, _, hs, rfl, rfl⟩
    exact ⟨a, ha, rfl, hs⟩

/-- The merges that are left when a function is closed match the predecessors. -/
theorem Emitter.Finishes.phis {bs : List Block} {f : Function} (h : s.Finishes bs) (hs : s.Merged [])
    (hf : f.blocks = bs) : ∀ b ∈ f.linkPredecessors.blocks, b.PhisFrom (· ∈ b.predecessors) := by
  cases h with
  | closed _ =>
    refine linkPredecessors_phis ?_ ?_ <;> rw [hf]
    · exact hs.nodup
    · exact hs.matched
  | returned ho _ =>
    have hs' : (s.push (.ret none)).Merged [] := hs.push ho rfl (by simp [Instr.successors])
    refine linkPredecessors_phis ?_ ?_ <;> rw [hf]
    · exact hs'.nodup
    · exact hs'.matched
  | @dropped _ b ho hb hne hempty htarget =>
    subst hf
    have hnd := hs.nodup
    rw [defined, hb, List.map_append] at hnd
    refine linkPredecessors_phis (List.nodup_append.1 hnd).1 fun c hc => ?_
    -- no edge starts in the block that is dropped
    have hlast : b.successors = [] := by
      rw [(hs.tidy b (by simp [hb])).successors, hempty]
      rfl
    refine (hs.matched c (by simp [hb, hc])).congr rfl fun _ _ _ l => ?_
    simp [Leads, hb, or_and_right, exists_or, hlast]

/-- In a function that is begun, given any statements and closed, every merge stands before all other
instructions of its block and has exactly one value for each predecessor of the block. -/
theorem finished_function_phis_match {t : TypeTable} {name : String} {ty : TypeId}
    {params : List (SymbolId × String)} {sts : List (TypeTable × Stmt)} {s s' : Emitter}
    (h : Ends (function t name ty params sts) s (.ok ()) s') :
    ∃ f, s'.module.functions = s.module.functions ++ [f] ∧ f.name = name ∧
      ∀ b ∈ f.blocks, b.PhisFrom (· ∈ b.predecessors) := by
  obtain ⟨_, _, variadic, ir, ps, s₁, s₂, bs, -, -, -, hspill, hbody, hfin, hmod, -⟩ := function_ok h
  have hspilled := (spill_merges ps 0 (enter_merged s name ir ps variadic) hspill).1
  have hmerged := (body_merges sts hspilled hbody).1
  exact ⟨_, hmod, rfl, hfin.phis hmerged rfl⟩

/-! ### A function with merges -/

namespace Selection

open Procedure (table bool ty parameter)

/-- `p && p ? p && p : p ? p : p`, also where control does not come. -/
def selected : Expr :=
  let both : Expr := .binary .logicalAnd parameter parameter ⟨bool, default⟩
  .conditional both both (.conditional parameter parameter parameter ⟨bool, default⟩) ⟨bool, default⟩

def statements : List (TypeTable × Stmt) :=
  [(table, .loop selected [.expr selected]), (table, .ret none), (table, .expr selected)]

def emitted : Emitter := ((function table "g" ty [(0, "p")] statements).run.run (Emitter.new "m")).2

def merging (f : Function) : List Block := f.blocks.filter fun b => b.instrs.any (·.isPhi)

theorem emits : Ends (function table "g" ty [(0, "p")] statements) (Emitter.new "m") (.ok ()) emitted := by
  obtain ⟨_, h⟩ := Ends.of_isOk (s := Emitter.new "m")
    (x := function table "g" ty [(0, "p")] statements) (by decide +kernel)
  exact h

end Selection

theorem selection_phis_match :
    Ends (function Procedure.table "g" Procedure.ty [(0, "p")] Selection.statements) (Emitter.new "m")
      (.ok ()) Selection.emitted ∧
    (Selection.emitted.module.functions.map fun f => (Selection.merging f).length) = [9] ∧
    ∃ f, Selection.emitted.module.functions = [f] ∧ f.name = "g" ∧
      ∀ b ∈ f.blocks, b.PhisFrom (· ∈ b.predecessors) :=
  ⟨Selection.emits, by decide +kernel, finished_function_phis_match Selection.emits⟩

end TypedCore
