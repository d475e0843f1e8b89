import TypedCore.Proofs.Graph.Calls
import TypedCore.Proofs.Types.Layouts

/-!
# Falling off the end of a function

A function that returns a value must not leave its last block open. Whether control could get there is not asked: a
block that is open at the end is forgiven only if it is empty and no block branches to it. Then it is dropped, and the
function is closed without it. So a function is refused if control can get to its end, and if code can that control does
not get to. It is refused as well if nothing but a stray jump leads there: an `if` in which both branches have returned
leaves an empty block that nothing leads to, and another `if` around it jumps out of this block.
-/

namespace TypedCore

open Ir Lowering

/-! ### Ways through a function -/

namespace Ir

def Instr.isJump : Instr → Bool
  | .branch _ => true
  | _ => false

/-- The block does nothing: it is empty, or it holds a jump only. -/
def Block.isIdle (b : Block) : Bool := b.instrs.all (·.isJump)

namespace Function

variable {f : Function} {l m : LabelId} {b : Block}

/-- There is a way along the branches from one block to another. -/
def HasWay (f : Function) : LabelId → LabelId → Prop := Relation.ReflTransGen fun l m => (l, m) ∈ f.edges

/-- Control gets from the entry to the block. -/
def Entered (f : Function) (l : LabelId) : Prop := ∃ b, f.entry? = some b ∧ f.HasWay b.id l

/-- The entry leads to the block, or some code does, whether control gets to that or not. A jump alone is no code. -/
def Followed (f : Function) (l : LabelId) : Prop :=
  ∃ b ∈ f.blocks, (f.entry? = some b ∨ b.isIdle = false) ∧ f.HasWay b.id l

/-- A jump leads to the block that neither the entry nor any code leads to. -/
def Strayed (f : Function) (l : LabelId) : Prop :=
  ∃ b ∈ f.blocks, b.instrs ≠ [] ∧ ¬ f.Followed b.id ∧ f.HasWay b.id l

theorem mem_edges : (l, m) ∈ f.edges ↔ ∃ b ∈ f.blocks, b.id = l ∧ m ∈ b.successors := by
  simp [edges, List.mem_flatMap, and_comm]

theorem Entered.followed (h : f.Entered l) : f.Followed l := by
  obtain ⟨b, hb, hway⟩ := h
  exact ⟨b, List.mem_of_mem_head? hb, .inl hb, hway⟩

/-- If control gets to all code, the two are the same. -/
theorem Followed.entered (h : f.Followed l) (hcode : ∀ b ∈ f.blocks, b.isIdle = false → f.Entered b.id) :
    f.Entered l := by
  obtain ⟨b, hb, hstart, hway⟩ := h
  rcases hstart with hentry | hcoded
  · exact ⟨b, hentry, hway⟩
  · obtain ⟨e, he, hway'⟩ := hcode b hb hcoded
    exact ⟨e, he, hway'.trans hway⟩

theorem Followed.trans (h : f.Followed l) (hway : f.HasWay l m) : f.Followed m := by
  obtain ⟨b, hb, hstart, hway'⟩ := h
  exact ⟨b, hb, hstart, hway'.trans hway⟩

/-- What a block with an instruction leads to is followed, or the instruction is a stray jump. -/
theorem followed_or_strayed (hb : b ∈ f.blocks) (hne : b.instrs ≠ []) (hway : f.HasWay b.id l) :
    f.Followed l ∨ f.Strayed l := by
  by_cases hfollowed : f.Followed b.id
  · exact .inl (hfollowed.trans hway)
  · exact .inr ⟨b, hb, hne, hfollowed, hway⟩

/-- No way leads out of a set of blocks that is closed under branches. -/
theorem HasWay.mem_of_closed {S : List LabelId} (h : f.HasWay l m) (hedges : ∀ p ∈ f.edges, p.1 ∈ S → p.2 ∈ S)
    (hl : l ∈ S) : m ∈ S := by
  induction h with
  | refl => exact hl
  | tail _ hedge ih => exact hedges _ hedge ih

/-- The last block is kept if it is the entry, holds an instruction or is branched to. -/
theorem last_kept_iff {pre : List Block} (hb : f.blocks = pre ++ [b]) (hnodup : b.id ∉ pre.map (·.id))
    (htidy : ∀ c ∈ f.blocks, c.Tidy) :
    f.Followed b.id ∨ f.Strayed b.id ↔ pre = [] ∨ b.instrs ≠ [] ∨ b.id ∈ f.blocks.flatMap (·.successors) := by
  -- a way to the last block starts there, or ends with a branch to it
  have hcases (c : Block) (hc : c ∈ f.blocks) (hway : f.HasWay c.id b.id) :
      c = b ∨ b.id ∈ f.blocks.flatMap (·.successors) := by
    rcases hway.cases_tail with heq | ⟨l, -, hedge⟩
    · rw [hb, List.mem_append, List.mem_singleton] at hc
      exact .inl (hc.resolve_left fun hpre => hnodup (heq ▸ List.mem_map_of_mem hpre))
    · obtain ⟨d, hd, -, hsucc⟩ := mem_edges.1 hedge
      exact .inr (List.mem_flatMap.2 ⟨d, hd, hsucc⟩)
  have hlast : b ∈ f.blocks := by simp [hb]
  constructor
  · rintro (⟨c, hc, hstart, hway⟩ | ⟨c, hc, hne, -, hway⟩)
    · rcases hcases c hc hway with rfl | htarget
      · rcases hstart with hentry | hcoded
        · cases pre with
          | nil => exact .inl rfl
          | cons x pre =>
            rw [ entry?, hb] at hentry
            cases hentry
            exact absurd (by simp) hnodup
        · refine .inr (.inl fun hempty => ?_)
          simp [Block.isIdle, hempty] at hcoded
      · exact .inr (.inr htarget)
    · rcases hcases c hc hway with rfl | htarget
      · exact .inr (.inl hne)
      · exact .inr (.inr htarget)
  · rintro (rfl | hne | htarget)
    · exact .inl ⟨b, hlast, .inl (by simp [ entry?, hb]), .refl⟩
    · exact followed_or_strayed hlast hne .refl
    · obtain ⟨c, hc, hsucc⟩ := List.mem_flatMap.1 htarget
      refine followed_or_strayed hc (fun hempty => ?_) (.single (mem_edges.2 ⟨c, hc, rfl, hsucc⟩))
      rw [(htidy c hc).successors, hempty] at hsucc
      cases hsucc

end Function

end Ir

/-! ### The end of a function -/

namespace Emitter

variable {s s' : Emitter} {f : Function} {head : FunctionHead} {l : LabelId}

/-- The block `l` is open. -/
def OpenAt (s : Emitter) (l : LabelId) : Prop := s.isBlockOpen = true ∧ s.currentLabel? = some l

/-- The end of the function is refused for want of a return. -/
def LacksReturn (s : Emitter) (name : String) : Prop := ∃ s', Ends functionEnd s (.error (.missingReturn name)) s'

/-- The last block is kept if it is followed, or a stray jump leads to it. -/
theorem Drafting.discardIfUnreachable_iff (hs : s.Drafting) (hf : s.builder.function = some f)
    (hl : s.currentLabel? = some l) : s.builder.discardIfUnreachable.1 = false ↔ f.Followed l ∨ f.Strayed l := by
  obtain ⟨pre, b, hb, hc, hcur⟩ := hs.exists_last
  have hfb : f.blocks = pre ++ [b] := by simpa [blocks, hf] using hb
  obtain rfl : b.id = l := Option.some.inj (hc.symm.trans hl)
  have hblock : f.block? b.id = some b := by simpa [Builder.currentBlock?, hf, hc] using hcur
  have hnodup := hs.not_mem_pre hb
  have htidy : ∀ c ∈ f.blocks, c.Tidy := by simpa [blocks, hf] using hs.tidy
  have hentry : (f.entry?.any fun block => block.id == b.id) = true ↔ pre = [] := by
    rw [ Function.entry?, hfb]
    cases pre with
    | nil => simp
    | cons x pre => simpa using fun h : x.id = b.id => hnodup (by simp [h])
  have htarget : (f.blocks.any fun block => block.successors.contains b.id) = true ↔
      b.id ∈ f.blocks.flatMap (·.successors) := by
    simp [List.mem_flatMap]
  have hkept : ((f.entry?.any fun block => block.id == b.id) || !b.isEmpty ||
      f.blocks.any fun block => block.successors.contains b.id) = true ↔ f.Followed b.id ∨ f.Strayed b.id := by
    rw [Function.last_kept_iff hfb hnodup htidy, Bool.or_eq_true, Bool.or_eq_true, hentry, htarget, or_assoc]
    simp [Block.isEmpty]
  rw [← hkept]
  simp only [Builder.discardIfUnreachable, hf, hc, hblock, Option.any_some]
  split <;> simp_all

/-- A function that must not end here is given up, -/
theorem Drafting.endFunction_missing (hs : s.Drafting) (hf : s.builder.function = some f)
    (hhead : s.current = some head) (hret : head.ret ≠ .void) (hopen : s.OpenAt l)
    (hl : f.Followed l ∨ f.Strayed l) : s.LacksReturn head.name := by
  have hkept := (hs.discardIfUnreachable_iff hf hopen.2).2 hl
  obtain ⟨s₁, hdiscard⟩ : ∃ s₁, Ends Emit.discardIfUnreachable s (.ok false) s₁ :=
    ⟨_, Ends.modifyGet_iff.2 ⟨by rw [hkept], rfl⟩⟩
  obtain ⟨-, rfl⟩ | ⟨hfalse, -⟩ := Emit.discardIfUnreachable_ends hs hf hdiscard
  swap
  · cases hfalse
  refine ⟨Emit.leaveFunction s₁, Emit.requireFunction_bind_iff.2 (.inl ⟨head, hhead, ?_⟩)⟩
  rw [Ends.get_bind_iff, if_pos hopen.1]
  refine Ends.bind_iff.2 (.inl ⟨false, s₁, hdiscard, ?_⟩)
  simp only [Bool.not_false, if_true, ne_eq, hret, not_false_eq_true]
  rw [Ends.modify_bind_iff]
  exact Ends.bind_iff.2 (.inr ⟨_, rfl, Ends.throw_iff.2 ⟨rfl, rfl⟩⟩)

/-- and any other one is closed. -/
theorem Drafting.endFunction_closes (hs : s.Drafting) (hf : s.builder.function = some f)
    (h : ∀ l, s.OpenAt l → ¬ (f.Followed l ∨ f.Strayed l)) : ∃ s', Ends Emit.endFunction s (.ok ()) s' := by
  obtain ⟨r, s', hend⟩ := Ends.exists_of_run Emit.endFunction s
  obtain ⟨name, rfl, -⟩ | ⟨rfl, -⟩ := Emit.endFunction_ends hs hf hend
  swap
  · exact ⟨s', hend⟩
  obtain ⟨head, -, hend⟩ | ⟨hnone, -⟩ := Emit.requireFunction_bind_iff.1 hend
  swap
  · simpa [hnone] using hs.head
  rw [Ends.get_bind_iff] at hend
  split at hend
  · rename_i hopen
    obtain ⟨pre, b, hb, hc, -⟩ := hs.exists_last
    have hdropped : s.builder.discardIfUnreachable.1 = true := by
      simpa using mt (hs.discardIfUnreachable_iff hf hc).1 (h b.id ⟨hopen, hc⟩)
    obtain ⟨dropped, s₁, hdiscard, hend⟩ | ⟨_, -, hdiscard⟩ := Ends.bind_iff.1 hend
    swap
    · cases (Ends.modifyGet_iff.1 hdiscard).1
    obtain rfl : dropped = true := (Except.ok.inj (Ends.modifyGet_iff.1 hdiscard).1).trans hdropped
    obtain ⟨hfalse, -⟩ | ⟨-, _, _, -, -, -, -, hf₁, -⟩ := Emit.discardIfUnreachable_ends hs hf hdiscard
    · cases hfalse
    · cases (Emit.finish_ends hf₁ hend).1
  · cases (Emit.finish_ends hf hend).1

theorem Drafting.lacksReturn_iff (hs : s.Drafting) (hf : s.builder.function = some f)
    (hhead : s.current = some head) (hret : head.ret ≠ .void) :
    s.LacksReturn head.name ↔ ∃ l, s.OpenAt l ∧ (f.Followed l ∨ f.Strayed l) := by
  constructor
  · rintro ⟨s', hend⟩
    by_contra hcon
    obtain ⟨s₁, hok⟩ := hs.endFunction_closes hf fun l hopen hl => hcon ⟨l, hopen, hl⟩
    cases (hend.unique hok).1
  · rintro ⟨l, hopen, hl⟩
    exact hs.endFunction_missing hf hhead hret hopen hl

end Emitter

/-- A function that returns a value is given up at its end, for want of a return, if a block is open there to which the
entry leads, or any code, or else a stray jump; and otherwise it is closed and added to the module. So it is given up
whenever control can get to the end; and only in that case, if control can get to all code of the function and no stray
jump leads to the end. -/
theorem missingReturn_iff_followed {t : TypeTable} {name : String} {ty ret : TypeId} {tys : List TypeId}
    {variadic : Bool} {params : List (SymbolId × String)} {sts : List (TypeTable × Stmt)} {s s₁ s₂ : Emitter}
    (hty : t.shape ty = .function ret tys variadic) (hret : t.isVoid ret = false)
    (hbegin : Ends (functionBegin t name ty params) s (.ok ()) s₁) (hbody : Ends (body sts) s₁ (.ok ()) s₂) :
    ∃ f, s₂.builder.function = some f ∧
      (s₂.LacksReturn name ↔ ∃ l, s₂.OpenAt l ∧ (f.Followed l ∨ f.Strayed l)) ∧
      ((∃ l, s₂.OpenAt l ∧ f.Entered l) → s₂.LacksReturn name) ∧
      ((∀ b ∈ f.blocks, b.isIdle = false → f.Entered b.id) → (∀ l, s₂.OpenAt l → ¬ f.Strayed l) →
        (s₂.LacksReturn name ↔ ∃ l, s₂.OpenAt l ∧ f.Entered l)) ∧
      (¬ s₂.LacksReturn name →
        ∃ s₃ g, Ends functionEnd s₂ (.ok ()) s₃ ∧ s₃.module.functions = s.module.functions ++ [g] ∧ g.name = name) := by
  obtain ⟨ret', tys', variadic', ir, ps, hty', -, hir, -, hspill⟩ := functionBegin_ok hbegin
  cases hty.symm.trans hty'
  have hsteps : Emitter.Steps (s.enter name ir ps variadic) s₂ := (spill_grows ps 0 hspill).trans (body_grows sts hbody)
  have hs : s₂.Drafting := (Emitter.enter_drafting ..).steps hsteps
  have hhead : s₂.current = some ⟨name, ir⟩ := hsteps.functions.2
  have hne : ir ≠ .void := by
    rintro rfl
    rw [TypeTable.isVoid_of_layout hir] at hret
    cases hret
  obtain ⟨f, hf, hname⟩ : ∃ f, s₂.builder.function = some f ∧ f.name = name := ⟨_, hsteps.function rfl, rfl⟩
  have hlacks : s₂.LacksReturn name ↔ _ := hs.lacksReturn_iff hf hhead hne
  have hentered : (∃ l, s₂.OpenAt l ∧ f.Entered l) → s₂.LacksReturn name :=
    fun ⟨l, hopen, hl⟩ => hlacks.2 ⟨l, hopen, .inl hl.followed⟩
  refine ⟨f, hf, hlacks, hentered, fun hcode hstray => ⟨fun h => ?_, hentered⟩, fun hnot => ?_⟩
  · obtain ⟨l, hopen, hl⟩ := hlacks.1 h
    exact ⟨l, hopen, (hl.resolve_right (hstray l hopen)).entered hcode⟩
  · obtain ⟨s₃, hok⟩ := hs.endFunction_closes hf fun l hopen hl => hnot (hlacks.2 ⟨l, hopen, hl⟩)
    obtain ⟨bs, -, hmod⟩ := Emit.endFunction_ok hs hf hok
    refine ⟨s₃, Function.linkPredecessors { f with blocks := bs }, hok, ?_, hname⟩
    rw [hmod, Module.addFunction, hsteps.functions.1]
    rfl

namespace FallenOff

open Stray

def begun : Emitter := (Emitter.new "m").after (.start types "cond" ⟨2⟩ [])

theorem begins : Ends (functionBegin types "cond" ⟨2⟩ []) (Emitter.new "m") (.ok ()) begun :=
  Prod.ext (by decide +kernel) rfl

/-- The code of the statements, -/
def code (sts : List Stmt) : EmitM Unit := body (sts.map fun st => (types, st))

/-- and what it leaves. -/
def left (sts : List Stmt) : Emitter := ((code sts).run.run begun).2

/-- `while (cond()) if (cond()) return cond(); else cond();` -/
def looping : List Stmt := [.loop test [.ifElse test [.ret (some test)] [.expr test]]]

/-- `if (cond()) return cond(); else return cond();` -/
def choice : Stmt := .ifElse test [.ret (some test)] [.ret (some test)]

/-- `if (cond()) return cond(); else if (cond()) return cond(); else return cond();` -/
def chain : Stmt := .ifElse test [.ret (some test)] [choice]

end FallenOff

open Stray FallenOff in
theorem looping_lacks_return :
    (types.shape ⟨2⟩ = .function ⟨1⟩ [] false ∧ types.isVoid ⟨1⟩ = false ∧
      Ends (functionBegin types "cond" ⟨2⟩ []) (Emitter.new "m") (.ok ()) begun ∧
      Ends (code looping) begun (.ok ()) (left looping)) ∧
    (left looping).LacksReturn "cond" ∧
    ∃ f, (left looping).builder.function = some f ∧
      ∃ l, (left looping).OpenAt l ∧ (f.Followed l ∨ f.Strayed l) := by
  have hty : types.shape ⟨2⟩ = .function ⟨1⟩ [] false := by decide +kernel
  have hret : types.isVoid ⟨1⟩ = false := by decide +kernel
  have hbody : Ends (code looping) begun (.ok ()) (left looping) := Prod.ext (by decide +kernel) rfl
  have hlacks : (left looping).LacksReturn "cond" := ⟨_, Prod.ext (by decide +kernel) rfl⟩
  obtain ⟨f, hf, hiff, -⟩ := missingReturn_iff_followed hty hret begins hbody
  exact ⟨⟨hty, hret, begins, hbody⟩, hlacks, f, hf, hiff.1 hlacks⟩

open Stray FallenOff in
/-- If all branches of an `if` return, the end of the function is accepted. If one of them is another such `if`, it is
refused, although neither the entry nor any code leads to the block that is open there. -/
theorem chain_lacks_return :
    history.session.Reachable history.exprs ∧ test ∈ history.exprs ∧ types.isVoid ⟨1⟩ = false ∧
    types.shape ⟨2⟩ = .function ⟨1⟩ [] false ∧
    Ends (functionBegin types "cond" ⟨2⟩ []) (Emitter.new "m") (.ok ()) begun ∧
    (Ends (code [choice]) begun (.ok ()) (left [choice]) ∧ ∃ s', Ends functionEnd (left [choice]) (.ok ()) s') ∧
    Ends (code [chain]) begun (.ok ()) (left [chain]) ∧ (left [chain]).LacksReturn "cond" ∧
    ∃ f, (left [chain]).builder.function = some f ∧
      ∃ l, (left [chain]).OpenAt l ∧ ¬ f.Followed l ∧ ¬ f.Entered l := by
  have hchoice : Ends (code [choice]) begun (.ok ()) (left [choice]) := Prod.ext (by decide +kernel) rfl
  have haccepted : ∃ s', Ends functionEnd (left [choice]) (.ok ()) s' := by
    obtain ⟨⟨⟩, h⟩ := Ends.of_isOk (x := functionEnd) (s := left [choice]) (by decide +kernel)
    exact ⟨_, h⟩
  have hchain : Ends (code [chain]) begun (.ok ()) (left [chain]) := Prod.ext (by decide +kernel) rfl
  have hlacks : (left [chain]).LacksReturn "cond" := ⟨_, Prod.ext (by decide +kernel) rfl⟩
  -- the blocks that hold code, from which no branch leads elsewhere
  have hgraph : (left [chain]).builder.function.map (fun f =>
      decide ((∀ b ∈ f.blocks, b.isIdle = false → b.id ∈ [0, 1, 2, 4, 5]) ∧
        (∀ b ∈ f.entry?, b.id ∈ [0, 1, 2, 4, 5]) ∧
        ∀ p ∈ f.edges, p.1 ∈ [0, 1, 2, 4, 5] → p.2 ∈ [0, 1, 2, 4, 5])) = some true := by
    decide +kernel
  obtain ⟨f, hf, hdecided⟩ := Option.map_eq_some_iff.1 hgraph
  obtain ⟨hcoded, hentry, hedges⟩ := of_decide_eq_true hdecided
  have hnot : ¬ f.Followed 3 := by
    rintro ⟨b, hb, hstart, hway⟩
    have hmem : b.id ∈ [0, 1, 2, 4, 5] := hstart.elim (fun h => hentry b h) (hcoded b hb)
    have hend := hway.mem_of_closed hedges hmem
    simp at hend
  exact ⟨Session.History.run_reachable _, Session.History.expr_mem (by decide +kernel), by decide +kernel,
    by decide +kernel, begins, ⟨hchoice, haccepted⟩, hchain, hlacks, f, hf, 3, ⟨by decide +kernel, by decide +kernel⟩,
    hnot, fun h => hnot h.followed⟩

end TypedCore
