import TypedCore.Lowering.Stmt
import TypedCore.Proofs.Emitter.Drafting
import TypedCore.Proofs.Emitter.Structured

/-!
# Functions from their first step to their last

Statements only let a function grow, as expressions do. Declarations and returns are `Straight`: they run code of
expressions, make slots and globals, and return. `Emitter.enter` is the state in which a function has an empty
entry block, and `Emitter.Finishes` says which blocks are kept when it is closed: all of them, all but a last one
that nothing leads to, or all with a return added at the end.
-/

namespace TypedCore

open Ir Lowering

/-! ### Statements -/

namespace Lowering

open Emit

theorem jumpIfOpen_grows (l : LabelId) : Grows (jumpIfOpen l) := by
  refine .get_bind fun s => ?_
  split
  · exact .jump l
  · exact .pure _

theorem ret_grows (v : Option Value) : Grows (Emit.ret v) := .bind .openBlock fun _ => .emit _

theorem localVariable_grows (symbol : SymbolId) (name : String) (ty : Ty) :
    Grows (localVariable symbol name ty) := by
  refine .bind .openBlock fun _ => .bind (.recordType ty) fun _ => .bind (.emit _) fun _ =>
    .bind (.alloca ty) fun slot => .bind ?_ fun _ => .pure _
  intro s r s' h
  obtain ⟨-, rfl⟩ := Ends.modify_iff.1 h
  refine .single (.note s _ ?_ ?_ ?_ ?_)
  exacts [rfl, rfl, rfl, List.prefix_rfl]

theorem declareGlobal_grows (name : String) (ty : Ty) (init : Option Value) :
    Grows (declareGlobal name ty init) := by
  refine .bind (.recordType ty) fun _ => .bind ?_ fun _ => .pure _
  intro s r s' h
  obtain ⟨-, rfl⟩ := Ends.modify_iff.1 h
  refine .single (.note s _ ?_ ?_ ?_ ?_)
  exacts [rfl, rfl, rfl, List.prefix_append _ _]

/-- The patterns that declarations and returns are made of: the code of expressions, slots of variables, globals, and
the return itself. -/
inductive Straight : {α : Type} → EmitM α → Prop
  | code {α : Type} {x : EmitM α} (h : Emits .falls x) : Straight x
  | bind {α β : Type} {x : EmitM α} {f : α → EmitM β} (hx : Straight x) (hf : ∀ a, Straight (f a)) : Straight (x >>= f)
  | slot (symbol : SymbolId) (name : String) (ty : Ty) : Straight (Emit.localVariable symbol name ty)
  | global (name : String) (ty : Ty) (init : Option Value) : Straight (Emit.declareGlobal name ty init)
  | ret (v : Option Value) : Straight (Emit.ret v)

theorem Straight.grows {α : Type} {x : EmitM α} (h : Straight x) : Grows x := by
  induction h with
  | code h => exact h.grows
  | bind _ _ ihx ihf => exact .bind ihx ihf
  | slot symbol name ty => exact localVariable_grows symbol name ty
  | global name ty init => exact declareGlobal_grows name ty init
  | ret v => exact ret_grows v

theorem localDeclaration_straight (t : TypeTable) (d : Declaration) : Straight (localDeclaration t d) := by
  refine .bind (.code (.layout t d.ty)) fun ir => .bind (.slot ..) fun address => .code ?_
  split
  · exact (lower_structured t _).init _ _
  · exact .pure _

theorem globalDeclaration_straight (t : TypeTable) (d : Declaration) : Straight (globalDeclaration t d) := by
  refine .bind (.code (.layout t d.ty)) fun ir => ?_
  have hend (init : Option Value) : Straight (do let _ ← declareGlobal d.name ir init) :=
    .bind (.global ..) fun _ => .code (.pure _)
  split
  · refine .bind (.code ?_) hend
    rw [map_eq_pure_bind]
    exact .bind (loadConstant_emits t _) fun _ => .pure _
  · exact .bind (.code (.pure _)) hend

theorem declaration_straight (t : TypeTable) (d : Declaration) : Straight (declaration t d) := by
  unfold declaration
  split
  · exact globalDeclaration_straight t d
  · exact localDeclaration_straight t d
  · exact .code (.pure _)

theorem returnStatement_straight (t : TypeTable) (value : Option Expr) : Straight (returnStatement t value) := by
  unfold returnStatement
  split
  · refine .bind (.code ?_) .ret
    rw [map_eq_pure_bind]
    exact .bind (lower_structured t _).value fun _ => .pure _
  · exact .bind (.code (.pure _)) .ret

theorem branchOn_grows (t : TypeTable) (cond : Expr) (onTrue onFalse : LabelId) :
    Grows (branchOn t cond onTrue onFalse) :=
  ((lower_structured t cond).branch onTrue onFalse).grows

mutual

theorem statement_grows (t : TypeTable) : ∀ st : Stmt, Grows (statement t st)
  | .expr e => .bind (lower_structured t e).value.grows fun _ => .pure _
  | .ret value => (returnStatement_straight t value).grows
  | .decl d => (declaration_straight t d).grows
  | .ifThen _ body =>
    .bind .createLabel fun _ => .bind .createLabel fun _ => .bind (branchOn_grows ..) fun _ =>
      .bind (.defineLabel _) fun _ => .bind (statements_grows t body) fun _ => .defineLabel _
  | .ifElse _ thenBody elseBody =>
    .bind .createLabel fun _ => .bind .createLabel fun _ => .bind .createLabel fun _ =>
      .bind (branchOn_grows ..) fun _ => .bind (.defineLabel _) fun _ =>
      .bind (statements_grows t thenBody) fun _ => .bind (jumpIfOpen_grows _) fun _ =>
      .bind (.defineLabel _) fun _ => .bind (statements_grows t elseBody) fun _ => .defineLabel _
  | .loop _ body =>
    .bind .createLabel fun _ => .bind .createLabel fun _ => .bind .createLabel fun _ =>
      .bind (.defineLabel _) fun _ => .bind (branchOn_grows ..) fun _ =>
      .bind (.defineLabel _) fun _ => .bind (statements_grows t body) fun _ =>
      .bind (jumpIfOpen_grows _) fun _ => .defineLabel _
  | .block body => statements_grows t body

theorem statements_grows (t : TypeTable) : ∀ body : List Stmt, Grows (statements t body)
  | [] => .pure _
  | st :: rest => .bind (statement_grows t st) fun _ => statements_grows t rest

end

end Lowering

/-! ### Whole functions -/

/-- The statements of a body, each generated with the types that are known when it is reached. -/
def Lowering.body (sts : List (TypeTable × Stmt)) : EmitM Unit :=
  sts.forM fun p => statement p.1 p.2

/-- A function from its first step to its last. -/
def Lowering.function (t : TypeTable) (name : String) (ty : TypeId)
    (params : List (SymbolId × String)) (sts : List (TypeTable × Stmt)) : EmitM Unit := do
  functionBegin t name ty params
  body sts
  functionEnd

namespace Lowering

open Emit

theorem spill_grows (params : List Parameter) (index : Nat) : Grows (spill index params) := by
  induction params generalizing index with
  | nil => exact .pure _
  | cons p params ih =>
    exact .bind (localVariable_grows _ _ _) fun _ => .bind (.emit _) fun _ => ih _

theorem body_grows (sts : List (TypeTable × Stmt)) : Grows (body sts) := by
  induction sts with
  | nil => exact .pure _
  | cons p sts ih => exact .bind (statement_grows p.1 p.2) fun _ => ih

end Lowering

/-- Number the parameters of a function from zero. -/
def numbered (params : List Parameter) : List (TempId × Ty) :=
  params.zipIdx.map fun p => (p.2, p.1.ty)

theorem foldl_addParameter (ps : List (Parameter × Nat)) {b : Builder} {f : Function}
    (hf : b.function = some f) :
    ps.foldl (fun b p => b.addParameter p.2 p.1.ty) b =
      { b with
        function := some { f with params := f.params ++ ps.map fun p => (p.2, p.1.ty) }
        temps := ps.foldl (fun n p => n.reserve p.2) b.temps } := by
  induction ps generalizing b f with
  | nil =>
    obtain ⟨fn, cur, temps, labels⟩ := b
    cases hf
    simp
  | cons p ps ih =>
    rw [List.foldl_cons, ih (f := { f with params := f.params ++ [(p.2, p.1.ty)] })]
    · simp [Builder.addParameter, hf]
    · simp [Builder.addParameter, hf]

theorem foldl_reserve (ps : List Parameter) (k : Nat) :
    (ps.zipIdx k).foldl (fun n p => n.reserve p.2) (⟨k⟩ : Supply) = ⟨k + ps.length⟩ := by
  induction ps generalizing k with
  | nil => rfl
  | cons p ps ih =>
    have hk : Supply.reserve ⟨k⟩ k = ⟨k + 1⟩ := by simp [Supply.reserve]
    rw [List.zipIdx_cons, List.foldl_cons, hk, ih, List.length_cons, Nat.add_right_comm,
      Nat.add_assoc]

namespace Emitter

/-- A function with an empty entry block is under construction. -/
def enter (s : Emitter) (name : String) (ret : Ty) (params : List Parameter) (variadic : Bool) :
    Emitter :=
  { s with
    builder :=
      { function := some
          { name, ret, variadic, params := numbered params, blocks := [⟨s.labels, [], [], []⟩] }
        current := some s.labels
        temps := ⟨params.length⟩
        labels := s.builder.labels.fresh.2 }
    current := some ⟨name, ret⟩
    locals := [] }

variable {s s' : Emitter}

@[simp] theorem blocks_enter (s : Emitter) (name : String) (ret : Ty) (params : List Parameter)
    (variadic : Bool) : (s.enter name ret params variadic).blocks = [⟨s.labels, [], [], []⟩] := rfl

theorem enter_drafting (s : Emitter) (name : String) (ret : Ty) (params : List Parameter)
    (variadic : Bool) : (s.enter name ret params variadic).Drafting := by
  refine ⟨rfl, ⟨[], _, rfl, rfl⟩, ?_, ?_, ?_⟩
  · simp [defined]
  · intro b hb
    rw [blocks_enter, List.mem_singleton] at hb
    exact hb ▸ Block.Tidy.empty _
  · simp

theorem enter_open (s : Emitter) (name : String) (ret : Ty) (params : List Parameter) (variadic : Bool) :
    (s.enter name ret params variadic).Open := by
  have hd := enter_drafting s name ret params variadic
  have hblocks : (s.enter name ret params variadic).blocks = [] ++ [⟨s.labels, [], [], []⟩] := rfl
  rw [hd.open_iff, hd.acceptsInstr_eq hblocks rfl]
  rfl

/-- The function that `enter` begins, once it has the blocks `bs`. -/
def finished (name : String) (ret : Ty) (params : List Parameter) (variadic : Bool)
    (bs : List Block) : Function :=
  Function.linkPredecessors { name, ret, variadic, params := numbered params, blocks := bs }

/-- The blocks of the function that is closed in state `s`. -/
inductive Finishes (s : Emitter) : List Block → Prop
  | closed (h : s.acceptsInstr = false) : Finishes s s.blocks
  /-- Nothing leads to an empty last block that is not the entry. -/
  | dropped {pre : List Block} {b : Block} (h : s.Open) (hb : s.blocks = pre ++ [b])
      (hpre : pre ≠ []) (hempty : b.instrs = []) (htarget : b.id ∉ s.targets) : Finishes s pre
  | returned (h : s.Open) (hret : ∀ head, s.current = some head → head.ret = .void) :
      Finishes s (s.push (.ret none)).blocks

end Emitter

namespace Emit

open Emitter

variable {s s' : Emitter}

theorem beginFunction_iff {name : String} {ret : Ty} {params : List Parameter} {variadic : Bool}
    {r : Except Fault Unit} (hs : s.current = none) :
    Ends (beginFunction name ret params variadic) s r s' ↔
      Ends (spill 0 params) (s.enter name ret params variadic) r s' := by
  unfold beginFunction
  rw [Ends.get_bind_iff, hs]
  dsimp only
  rw [Ends.modify_bind_iff]
  have hstart : Ends (build do Ir.BuilderM.startBlock (← .newLabel))
      { s with
        builder := s.builder.startFunction name ret variadic
        current := some ⟨name, ret⟩
        locals := [] } (.ok ())
      { s with
        builder := { function := some { name, ret, variadic, blocks := [⟨s.labels, [], [], []⟩] }
                     current := some s.labels, temps := {}, labels := s.builder.labels.fresh.2 }
        current := some ⟨name, ret⟩
        locals := [] } := rfl
  have henter : s.enter name ret params variadic =
      { s with
        builder := params.zipIdx.foldl (fun b p => b.addParameter p.2 p.1.ty)
          { function := some { name, ret, variadic, blocks := [⟨s.labels, [], [], []⟩] }
            current := some s.labels, temps := {}, labels := s.builder.labels.fresh.2 }
        current := some ⟨name, ret⟩
        locals := [] } := by
    have htemps := foldl_reserve params 0
    rw [Nat.zero_add] at htemps
    rw [foldl_addParameter _ rfl, htemps]
    simp [enter, numbered]
  rw [henter]
  constructor
  · intro h
    obtain ⟨_, s₁, h₁, h₂⟩ | ⟨e, rfl, h₁⟩ := Ends.bind_iff.1 h
    · obtain ⟨-, rfl⟩ := hstart.unique h₁
      exact h₂
    · cases (hstart.unique h₁).1
  · exact fun h => Ends.bind_iff.2 (.inl ⟨_, _, hstart, h⟩)

/-- A function is refused inside of another one; else its parameters are stored in the entry block. -/
theorem beginFunction_ends {name : String} {ret : Ty} {params : List Parameter} {variadic : Bool}
    {r : Except Fault Unit} (h : Ends (beginFunction name ret params variadic) s r s') :
    (∃ head, s.current = some head ∧ r = .error (.nestedFunction name head.name) ∧ s' = s) ∨
      (s.current = none ∧ Ends (spill 0 params) (s.enter name ret params variadic) r s') := by
  cases hs : s.current with
  | none => exact .inr ⟨rfl, (beginFunction_iff hs).1 h⟩
  | some head =>
    unfold beginFunction at h
    rw [Ends.get_bind_iff, hs] at h
    obtain ⟨rfl, rfl⟩ := Ends.throw_iff.1 h
    exact .inl ⟨head, rfl, rfl, rfl⟩

/-! ### The end of a function -/

theorem discardIfUnreachable_ends (hs : s.Drafting) {f : Function}
    (hf : s.builder.function = some f) {dropped : Bool}
    (h : Ends discardIfUnreachable s (.ok dropped) s') :
    (dropped = false ∧ s' = s) ∨
      (dropped = true ∧ ∃ pre b, s.blocks = pre ++ [b] ∧ pre ≠ [] ∧ b.instrs = [] ∧
        b.id ∉ s.targets ∧ s'.builder.function = some { f with blocks := pre } ∧
        s'.module = s.module ∧ s'.labels = s.labels) := by
  obtain ⟨hd, rfl⟩ := Ends.modifyGet_iff.1 h
  obtain ⟨pre, b, hb, hc, hcur⟩ := hs.exists_last
  have hfb : f.blocks = pre ++ [b] := by simpa [blocks, hf] using hb
  have hblock : f.block? b.id = some b := by simpa [Builder.currentBlock?, hf, hc] using hcur
  simp only [Builder.discardIfUnreachable, hf, hc, hblock] at hd ⊢
  split at hd
  · rename_i hkeep
    simp only [hkeep, if_true]
    exact .inl ⟨Except.ok.inj hd, trivial⟩
  · rename_i hkeep
    simp only [hkeep]
    simp only [Bool.or_eq_true, not_or, Bool.not_eq_true, Option.any_some, Bool.not_eq_false',
      List.any_eq_false, List.contains_eq_mem, decide_eq_false_iff_not] at hkeep
    obtain ⟨⟨hentry, hempty⟩, htarget⟩ := hkeep
    refine .inr ⟨Except.ok.inj hd, pre, b, hb, ?_, ?_, ?_, ?_, trivial, rfl⟩
    · rintro rfl
      simp [ Function.entry?, hfb] at hentry
    · simpa [Block.isEmpty] using hempty
    · simpa [targets, blocks, hf, List.mem_flatMap] using htarget
    · have hpre : ∀ x ∈ pre, x.id ≠ b.id := fun x hx heq =>
        hs.not_mem_pre hb (heq ▸ List.mem_map_of_mem hx)
      have : pre.filter (fun x => x.id != b.id) = pre :=
        List.filter_eq_self.2 fun x hx => by simpa using hpre x hx
      simp [hfb, this]

/-- What is left to do once the last block is settled. -/
theorem finish_ends {f : Function} {r : Except Fault Unit} (hf : s.builder.function = some f)
    (h : Ends (do
      match (← get).builder.finish.1 with
      | none => throw .noFunction
      | some f => modify fun e => leaveFunction { e with module := e.module.addFunction f } : EmitM Unit)
      s r s') :
    r = .ok () ∧ s' = leaveFunction { s with module := s.module.addFunction f.linkPredecessors } := by
  rw [Ends.get_bind_iff] at h
  simp only [Builder.finish, hf, Option.map_some] at h
  exact Ends.modify_iff.1 h

/-- A function without the return that it needs is given up. Any other one is added to the module with the blocks
that are left. -/
theorem endFunction_ends (hs : s.Drafting) {f : Function} (hf : s.builder.function = some f)
    {r : Except Fault Unit} (h : Ends endFunction s r s') :
    (∃ name, r = .error (.missingReturn name) ∧ s' = leaveFunction s) ∨
      (r = .ok () ∧ ∃ (bs : List Block) (s₁ : Emitter), s.Finishes bs ∧ s₁.labels = s.labels ∧
        s' = leaveFunction
          { s₁ with module := s.module.addFunction (Function.linkPredecessors { f with blocks := bs }) }) := by
  unfold endFunction at h
  obtain ⟨head, hc, h⟩ | ⟨hc, -⟩ := requireFunction_bind_iff.1 h
  swap
  · simpa [hc] using hs.head
  have hopen : s.isBlockOpen = s.acceptsInstr := by simp [isBlockOpen, state, hc]
  rw [Ends.get_bind_iff, hopen] at h
  split at h
  · rename_i ha
    have ho : s.Open := hs.open_iff.2 ha
    obtain ⟨dropped, s₁, h₁, h₂⟩ | ⟨_, -, h₁⟩ := Ends.bind_iff.1 h
    swap
    · cases (Ends.modifyGet_iff.1 h₁).1
    obtain ⟨rfl, rfl⟩ | ⟨rfl, pre, b, hb, hpre, hempty, htarget, hf₁, hm, hlabels⟩ :=
      discardIfUnreachable_ends hs hf h₁
    · by_cases hret : head.ret = .void
      · simp only [hret, Bool.not_false, if_true, ne_eq, not_true_eq_false, if_false] at h₂
        have hemit := build_emit_open ho (.ret none)
        obtain ⟨_, s₂, h₂, h₃⟩ | ⟨_, -, h₂⟩ := Ends.bind_iff.1 h₂
        · obtain ⟨-, rfl⟩ := hemit.unique h₂
          have hf₂ : (s₁.push (.ret none)).builder.function =
              some { f with blocks := (s₁.push (.ret none)).blocks } := by
            simp [Emitter.push, blocks, hf]
          obtain ⟨rfl, rfl⟩ := finish_ends hf₂ h₃
          refine .inr ⟨rfl, _, s₁.push (.ret none), .returned ho fun head' hc' => ?_, rfl, rfl⟩
          rw [hc] at hc'
          cases hc'
          exact hret
        · cases (hemit.unique h₂).1
      · simp only [hret, Bool.not_false, if_true, ne_eq, not_false_eq_true] at h₂
        rw [Ends.modify_bind_iff, Ends.bind_iff] at h₂
        obtain ⟨_, _, h₂, -⟩ | ⟨_, rfl, h₂⟩ := h₂
        · cases (Ends.throw_iff.1 h₂).1
        · obtain ⟨he, rfl⟩ := Ends.throw_iff.1 h₂
          cases he
          exact .inl ⟨_, rfl, rfl⟩
    · obtain ⟨rfl, rfl⟩ := finish_ends hf₁ h₂
      exact .inr ⟨rfl, pre, s₁, .dropped ho hb hpre hempty htarget, hlabels, by rw [hm]⟩
  · rename_i ha
    have hf' : s.builder.function = some { f with blocks := s.blocks } := by simp [blocks, hf]
    obtain ⟨rfl, rfl⟩ := finish_ends hf' h
    exact .inr ⟨rfl, s.blocks, s, .closed (by simpa using ha), rfl, rfl⟩

theorem endFunction_ok (hs : s.Drafting) {f : Function} (hf : s.builder.function = some f)
    (h : Ends endFunction s (.ok ()) s') :
    ∃ bs, s.Finishes bs ∧
      s'.module = s.module.addFunction (Function.linkPredecessors { f with blocks := bs }) := by
  obtain ⟨_, hr, -⟩ | ⟨-, bs, s₁, hfin, -, rfl⟩ := endFunction_ends hs hf h
  · cases hr
  · exact ⟨bs, hfin, rfl⟩

end Emit

namespace Lowering

/-- A function of this type, with parameters of these names, can be begun. -/
def Accepts (t : TypeTable) (ty : TypeId) (params : List (SymbolId × String)) : Prop :=
  ∃ ret tys variadic, t.shape ty = .function ret tys variadic ∧ tys.length = params.length ∧
    (t.layout ret).isOk = true ∧ (parameters t params tys).isOk = true

theorem parameters_blames (t : TypeTable) (params : List (SymbolId × String)) (tys : List TypeId) :
    BlamesType (parameters t params tys) := by
  fun_induction parameters t params tys with
  | case1 symbol name params ty tys ih => exact .bind (TypeTable.layout_blames ty) fun _ => .bind ih fun _ => .ok _
  | case2 => exact .ok _

variable {t : TypeTable} {name : String} {ty : TypeId} {params : List (SymbolId × String)} {s s' : Emitter}

/-- A function is refused for its type, or its result and its parameters have layouts. -/
theorem functionBegin_ends {r : Except Fault Unit} (h : Ends (functionBegin t name ty params) s r s') :
    (¬ Accepts t ty params ∧ (∃ f, r = .error f ∧ f.isOfType = true) ∧ s' = s) ∨
      ∃ ret tys variadic ir ps, t.shape ty = .function ret tys variadic ∧ tys.length = params.length ∧
        t.layout ret = .ok ir ∧ parameters t params tys = .ok ps ∧
        Ends (Emit.beginFunction name ir ps variadic) s r s' := by
  unfold functionBegin at h
  split at h
  · rename_i ret tys variadic hshape
    have haccepts : Accepts t ty params ↔
        tys.length = params.length ∧ (t.layout ret).isOk = true ∧ (parameters t params tys).isOk = true := by
      simp [Accepts, hshape]
    rw [haccepts]
    split at h
    · rename_i hlength
      obtain ⟨rfl, rfl⟩ := Ends.throw_iff.1 h
      exact .inl ⟨fun ha => hlength ha.1, ⟨_, rfl, rfl⟩, rfl⟩
    · rename_i hlength
      obtain ⟨ir, s₁, hlift, h₁⟩ | ⟨f, rfl, hlift⟩ := Ends.bind_iff.1 h
      · obtain ⟨hret, rfl⟩ := Ends.lift_iff.1 hlift
        obtain ⟨ps, s₂, hlift₂, h₂⟩ | ⟨f, rfl, hlift₂⟩ := Ends.bind_iff.1 h₁
        · obtain ⟨hparams, rfl⟩ := Ends.lift_iff.1 hlift₂
          exact .inr ⟨ret, tys, variadic, ir, ps, hshape, by simpa using hlength, hret.symm, hparams.symm, h₂⟩
        · obtain ⟨hparams, rfl⟩ := Ends.lift_iff.1 hlift₂
          refine .inl ⟨fun ha => ?_, ⟨f, rfl, parameters_blames t params tys f hparams.symm⟩, rfl⟩
          rw [← hparams] at ha
          cases ha.2.2
      · obtain ⟨hret, rfl⟩ := Ends.lift_iff.1 hlift
        refine .inl ⟨fun ha => ?_, ⟨f, rfl, TypeTable.layout_blames ret f hret.symm⟩, rfl⟩
        rw [← hret] at ha
        cases ha.2.1
  · rename_i hshape
    obtain ⟨rfl, rfl⟩ := Ends.throw_iff.1 h
    refine .inl ⟨?_, ⟨_, rfl, rfl⟩, rfl⟩
    rintro ⟨ret, tys, variadic, hs, -⟩
    exact hshape _ _ _ hs

/-- A function that is begun without error has the entry block, where its parameters are stored. -/
theorem functionBegin_ok (h : Ends (functionBegin t name ty params) s (.ok ()) s') :
    ∃ ret tys variadic ir ps, t.shape ty = .function ret tys variadic ∧ tys.length = params.length ∧
      t.layout ret = .ok ir ∧ parameters t params tys = .ok ps ∧
      Ends (Emit.spill 0 ps) (s.enter name ir ps variadic) (.ok ()) s' := by
  obtain ⟨-, ⟨f, hr, -⟩, -⟩ | ⟨ret, tys, variadic, ir, ps, hshape, hlength, hret, hparams, hbegin⟩ :=
    functionBegin_ends h
  · cases hr
  · obtain ⟨_, -, hr, -⟩ | ⟨-, hspill⟩ := Emit.beginFunction_ends hbegin
    · cases hr
    · exact ⟨ret, tys, variadic, ir, ps, hshape, hlength, hret, hparams, hspill⟩

/-- The parts of a function that is generated without error. -/
theorem function_ok {sts : List (TypeTable × Stmt)} (h : Ends (function t name ty params sts) s (.ok ()) s') :
    ∃ ret tys variadic ir ps s₁ s₂ bs, t.shape ty = .function ret tys variadic ∧
      t.layout ret = .ok ir ∧ parameters t params tys = .ok ps ∧
      Ends (Emit.spill 0 ps) (s.enter name ir ps variadic) (.ok ()) s₁ ∧
      Ends (body sts) s₁ (.ok ()) s₂ ∧ s₂.Finishes bs ∧
      s'.module.functions =
        s.module.functions ++ [Emitter.finished name ir ps variadic bs] ∧
      s'.module.globals = s₂.module.globals := by
  obtain ⟨_, s₁, hbegin, h⟩ := Ends.bind_ok_iff.1 h
  obtain ⟨_, s₂, hbody, hend⟩ := Ends.bind_ok_iff.1 h
  obtain ⟨ret, tys, variadic, ir, ps, hshape, -, hret, hps, hspill⟩ := functionBegin_ok hbegin
  have hsteps : Emitter.Steps (Emitter.enter _ name ir ps variadic) s₂ :=
    (spill_grows ps 0 hspill).trans (body_grows sts hbody)
  obtain ⟨bs, hfin, hmod⟩ := Emit.endFunction_ok ((Emitter.enter_drafting ..).steps hsteps)
    (hsteps.function rfl) hend
  refine ⟨ret, tys, variadic, ir, ps, s₁, s₂, bs, hshape, hret, hps, hspill, hbody, hfin, ?_, ?_⟩
  · rw [hmod, Module.addFunction, hsteps.functions.1]
    rfl
  · rw [hmod, Module.addFunction]

end Lowering

end TypedCore
