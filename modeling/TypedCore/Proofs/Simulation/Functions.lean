import TypedCore.Proofs.Graph.WellFormed
import TypedCore.Proofs.Simulation.Statements

/-!
# Functions do what their bodies say

A finished function, run from its entry, first puts its parameters into slots and then does what the
statements of its body do. It comes to a return if and only if the body ends, with the same calls and
the same storage. A last block that is dropped when the function is closed is one that control cannot
reach.
-/

namespace TypedCore

open Ir Machine Emit Emitter Lowering

variable {M : Machine} {T : M.Target}

/-! ### Parameters -/

theorem Sees.cons {σ : M.Stage} {L : List (SymbolId × Value)} {env : M.Env} (h : Sees σ L env)
    (symbol : SymbolId) {slot : Value} {w : M.Word} (hw : Denotes σ slot w) :
    Sees σ ((symbol, slot) :: L) fun x => if x = symbol then some w else env x := by
  intro x v hv
  by_cases hx : x = symbol
  · subst hx
    simp only [List.lookup_cons, beq_self_eq_true] at hv
    cases hv
    exact ⟨w, if_pos rfl, hw⟩
  · have hne : (x == symbol) = false := by simpa using hx
    simp only [List.lookup_cons, hne] at hv
    obtain ⟨w', hw', hd⟩ := h x v hv
    exact ⟨w', (if_neg hx).trans hw', hd⟩

/-- A variable gets a slot. -/
theorem localVariable_arrives {s s' : Emitter} {symbol : SymbolId} {name : String} {ty : Ty}
    {slot : Value} (hs : s.Drafting) (h : Ends (localVariable symbol name ty) s (.ok slot) s') :
    s'.locals = (symbol, slot) :: s.locals ∧ s'.Open ∧ ∀ c : M.Config, s'.Extends T → s.At T c →
      ∃ w c', RunM.alloca ty c.world = some (w, c'.world) ∧ Arrives T s s' c c' ∧
        Denotes (s'.stage c') slot w := by
  obtain ⟨_, s₁, h₁, h⟩ := Ends.bind_ok_iff.1 h
  obtain ⟨_, s₂, h₂, h⟩ := Ends.bind_ok_iff.1 h
  obtain ⟨_, s₃, h₃, h⟩ := Ends.bind_ok_iff.1 h
  obtain ⟨v, s₄, h₄, h⟩ := Ends.bind_ok_iff.1 h
  obtain ⟨_, s₅, h₅, h⟩ := Ends.bind_ok_iff.1 h
  obtain ⟨hv, rfl⟩ := Ends.pure_iff.1 h
  cases hv
  rw [build_alloca_eq] at h₄
  obtain ⟨r, _, hr, h⟩ := Ends.bind_ok_iff.1 h₄
  obtain ⟨hv, rfl⟩ := Ends.pure_iff.1 h
  cases hv
  obtain ⟨hcont₁, hopen₁, hopened⟩ := openBlock_enters (T := T) hs h₁
  have hs₁ := hs.steps hcont₁.steps
  obtain ⟨hcont₂, hnoted⟩ := recordType_arrives (T := T) h₂
  have hs₂ := hs₁.steps hcont₂.steps
  obtain ⟨hcont₃, hcomment⟩ := emit_arrives (T := T) hs₂ (hcont₂.opened hopen₁) rfl h₃
  have hs₃ := hs₂.steps hcont₃.steps
  have hopen₃ := (hcont₂.trans hcont₃).opened hopen₁
  obtain ⟨hcont₄, hslot⟩ := emitTemp_arrives (T := T) hs₃ hopen₃ (fun _ => rfl) hr
  have hlocals := (((hcont₁.trans hcont₂).trans hcont₃).trans hcont₄).locals
  obtain ⟨-, rfl⟩ := Ends.modify_iff.1 h₅
  refine ⟨congrArg _ hlocals, hcont₄.opened hopen₃, fun c hT hat => ?_⟩
  have hT₄ : s₄.Extends T := ⟨hT.blocks, hT.globals⟩
  have hT₃ := hT₄.of_steps hs₃ hcont₄.steps
  have harr₁ := hopened c ((hT₃.of_steps hs₂ hcont₃.steps).of_steps hs₁ hcont₂.steps) hat
  have harr₂ := harr₁.trans (hnoted c harr₁.there)
  obtain ⟨c₃, hω₃, harr₃⟩ := hcomment c c.world hT₃ harr₂.there rfl
  obtain ⟨c₄, hω₄, harr₄, hw⟩ := hslot c₃ _ _ hT₄ harr₃.there rfl
  refine ⟨_, c₄, ?_, ((harr₂.trans harr₃).trans harr₄).trans (.note rfl harr₄.there), hw⟩
  rw [hω₄, hω₃]
  rfl

/-- The parameters are put into slots. -/
theorem spill_arrives (params : List Parameter) {index n : Nat} {regs : M.Regs}
    (hn : index + params.length ≤ n) {s s' : Emitter} (hs : s.Drafting) (ho : s.Open)
    (h : Ends (spill index params) s (.ok ()) s') :
    s'.Open ∧ ∀ (c : M.Config) env, s'.Extends T → s.At T c → ⟨n, regs⟩ ≤ s.stage c →
      Sees (s.stage c) s.locals env →
      ∃ env' c', Eval.enter regs index env params c.world = some (env', c'.world) ∧
        Arrives T s s' c c' ∧ Sees (s'.stage c') s'.locals env' := by
  induction params generalizing index s with
  | nil =>
    obtain ⟨-, rfl⟩ := Ends.pure_iff.1 h
    exact ⟨ho, fun c env _ hat _ henv => ⟨env, c, rfl, ⟨.refl, hat, le_rfl⟩, henv⟩⟩
  | cons p params ih =>
    obtain ⟨slot, s₁, h₁, h⟩ := Ends.bind_ok_iff.1 h
    obtain ⟨_, s₂, h₂, h₃⟩ := Ends.bind_ok_iff.1 h
    have hsteps₁ := localVariable_grows p.symbol p.name p.ty h₁
    obtain ⟨hlocals, hopen₁, hslot⟩ := localVariable_arrives (T := T) hs h₁
    have hs₁ := hs.steps hsteps₁
    obtain ⟨hcont₂, hstore⟩ := emit_arrives (T := T) hs₁ hopen₁ rfl h₂
    have hs₂ := hs₁.steps hcont₂.steps
    simp only [List.length_cons] at hn
    obtain ⟨hopen, hrest⟩ := ih (by omega) hs₂ (hcont₂.opened hopen₁) h₃
    refine ⟨hopen, fun c env hT hat hc henv => ?_⟩
    have hT₂ := hT.of_steps hs₂ (spill_grows params (index + 1) h₃)
    obtain ⟨w, c₁, hω₁, harr₁, hw⟩ := hslot c (hT₂.of_steps hs₁ hcont₂.steps) hat
    have hlt : index < n := by omega
    have hregs : c₁.regs index = regs index := (hc.trans harr₁.stage).2 index hlt
    obtain ⟨c₂, hω₂, harr₂⟩ := hstore c₁ { c₁.world with
      memory := M.store c₁.world.memory (regs index) w p.ty } hT₂ harr₁.there (by
        simp only [Config.exec, word, hregs, hw.word_of_le le_rfl])
    have harr := harr₁.trans harr₂
    have henv₂ := ((henv.mono harr.stage).cons p.symbol (hw.mono harr₂.stage))
    rw [← hlocals, ← hcont₂.locals] at henv₂
    obtain ⟨env', c', henter, harr', henv'⟩ :=
      hrest c₂ _ hT harr.there (hc.trans harr.stage) henv₂
    refine ⟨env', c', ?_, harr.trans harr', henv'⟩
    rw [Eval.enter, RunM.bind_eq_some hω₁]
    exact (congrArg _ hω₂.symm).trans henter

/-! ### The end of a function -/

theorem fetch_withPredecessors (ps : LabelId → List LabelId) (bs : List Block) (c : M.Config) :
    fetch (withPredecessors ps bs) c = fetch bs c := by
  simp only [fetch, withPredecessors, List.find?_map, Option.bind_eq_bind, Option.bind_map]
  rfl

theorem Emitter.Drafting.label_of_step {s : Emitter} {c c' : M.Config} (hs : s.Drafting)
    (h : Machine.Step s.blocks c c') : c'.label = c.label ∨ c'.label ∈ s.targets := by
  obtain ⟨i, hi, hexec⟩ := h
  obtain ⟨b, hb, hi⟩ := Option.bind_eq_some_iff.1 hi
  refine (Config.label_of_exec hexec).imp_right fun hl => ?_
  have hmem := List.mem_of_find?_eq_some hb
  refine List.mem_flatMap.2 ⟨b, hmem, ?_⟩
  rw [(hs.tidy b hmem).successors]
  exact List.mem_flatMap.2 ⟨i, List.mem_of_getElem? hi, hl⟩

/-- How the blocks that are kept run: as all blocks do, with a return where the code ends. -/
theorem Emitter.Finishes.exists_target {s : Emitter} {bs : List Block} (h : s.Finishes bs)
    (hs : s.Drafting) {entry : Block} (hentry : s.blocks.head? = some entry)
    (htexts : ∀ name text, textGlobal name text ∈ s.module.globals → M.global name = M.text text) :
    ∃ T : M.Target, s.Extends T ∧ (bs.map (·.id)).Nodup ∧
      (∃ b, bs.head? = some b ∧ b.id = entry.id) ∧
      (∀ n (c c' : M.Config), c.label = entry.id → (Halts T.blocks n c c' ↔ Halts bs n c c')) ∧
      ∀ c c' : M.Config, c.label = entry.id → Runs T.blocks c c' → s.Open → s.At T c' →
        Returns T.blocks c' := by
  cases h with
  | closed ha =>
    refine ⟨⟨s.blocks, s.module.globals, hs.nodup, htexts⟩, ⟨.refl _, List.prefix_rfl⟩, hs.nodup,
      ⟨entry, hentry, rfl⟩, fun _ _ _ _ => .rfl, fun _ _ _ _ ho => ?_⟩
    rw [ho.acceptsInstr] at ha
    cases ha
  | returned ho hret =>
    have hstep : Step s (s.push (.ret none)) := .instr s _ ho
    have hs₁ := hs.step hstep
    have hpre := hs.prefixed_step hstep
    let T : M.Target := ⟨(s.push (.ret none)).blocks, s.module.globals, hs₁.nodup, htexts⟩
    have hT : (s.push (.ret none)).Extends T := ⟨.refl _, List.prefix_rfl⟩
    refine ⟨T, hT.of_steps hs hstep.steps, hs₁.nodup, ?_, fun _ _ _ _ => .rfl,
      fun _ _ _ _ ho hat => ⟨_, hs.fetch_push ho hT hat⟩⟩
    obtain ⟨b, hb, hid, -⟩ := hpre 0 entry (by rw [← List.head?_eq_getElem?, hentry])
    exact ⟨b, by rw [List.head?_eq_getElem?, hb], hid⟩
  | @dropped pre b ho hb hne hempty htarget =>
    have hhead : bs.head? = some entry := by
      rw [hb, List.head?_append_of_ne_nil _ hne] at hentry
      exact hentry
    have hlabel : entry.id ≠ b.id := fun heq =>
      hs.not_mem_pre hb (heq ▸ List.mem_map_of_mem (List.mem_of_mem_head? hhead))
    have hnodup := hs.nodup
    rw [defined, hb, List.map_append] at hnodup
    -- control never comes to the block that is dropped
    have hstep : ∀ c c' : M.Config, c.label ≠ b.id → Machine.Step s.blocks c c' → c'.label ≠ b.id := by
      intro c c' hc h heq
      obtain hl | hl := hs.label_of_step h
      · exact hc (hl ▸ heq)
      · exact htarget (heq ▸ hl)
    refine ⟨⟨s.blocks, s.module.globals, hs.nodup, htexts⟩, ⟨.refl _, List.prefix_rfl⟩,
      (List.nodup_append.1 hnodup).1, ⟨entry, hhead, rfl⟩, fun n c c' hc => ?_,
      fun c c' hc hruns ho hat => ?_⟩
    · refine Halts.congr (P := fun c => c.label ≠ b.id) (fun c hc => ?_) hstep (hc ▸ hlabel)
      have hnot : (b.id == c.label) = false := by simpa using Ne.symm hc
      simp [fetch, hb, List.find?_append, hnot]
    · have hc' : c'.label ≠ b.id := by
        clear hat
        induction hruns with
        | refl => exact hc ▸ hlabel
        | tail _ h ih => exact hstep _ _ ih h
      cases hat with
      | before hclosed _ _ _ => rw [ho.acceptsInstr] at hclosed; cases hclosed
      | inside _ hb' hl _ =>
        obtain ⟨-, hbb⟩ := List.append_inj' (hb.symm.trans hb') rfl
        cases hbb
        exact absurd hl hc'

/-! ### Whole functions -/

/-- A function, from the words of its parameters on: how its body may end. -/
def Eval.function (params : List Parameter) (sts : List (TypeTable × Stmt)) (regs : M.Regs)
    (ω ω' : M.World) : Prop :=
  ∃ env ω₁ flow, Eval.enter regs 0 (fun _ => none) params ω = some (env, ω₁) ∧
    Eval.body env sts ω₁ flow ω'

theorem finished_halts_iff {s s₁ s₂ : Emitter} {name : String} {ret : Ty} {ps : List Parameter}
    {variadic : Bool} {sts : List (TypeTable × Stmt)} {bs : List Block}
    (hspill : Ends (spill 0 ps) (s.enter name ret ps variadic) (.ok ()) s₁)
    (hbody : Ends (body sts) s₁ (.ok ()) s₂) (hfin : s₂.Finishes bs)
    (hsts : ∀ p ∈ sts, p.2.Plain (Condition p.1))
    (htexts : ∀ name text, textGlobal name text ∈ s₂.module.globals → M.global name = M.text text) :
    ∃ entry, Function.entry? (finished name ret ps variadic bs) = some entry ∧
      ∀ prev regs (ω ω' : M.World), (∃ n c', Halts (finished name ret ps variadic bs).blocks n
        ⟨entry.id, 0, prev, regs, ω⟩ c' ∧ c'.world = ω') ↔ Eval.function ps sts regs ω ω' := by
  have hs₀ := s.enter_drafting name ret ps variadic
  have hsteps₁ := spill_grows ps 0 hspill
  have hs₁ := hs₀.steps hsteps₁
  have hsteps₂ := body_grows sts hbody
  obtain ⟨first, hfirst, hid, -⟩ :=
    hs₀.prefixed (hsteps₁.trans hsteps₂) 0 ⟨s.labels, [], [], []⟩ rfl
  obtain ⟨T, hT, hnodup, ⟨b, hb, hbid⟩, hhalts, hend⟩ := hfin.exists_target (hs₁.steps hsteps₂)
    (List.head?_eq_getElem?.trans hfirst) htexts
  have hlink := linkPredecessors_blocks
    (f := { name, ret, variadic, params := numbered ps, blocks := bs }) hnodup
  obtain ⟨entry, hentry, heq⟩ : ∃ entry, Function.entry? (finished name ret ps variadic bs) = some entry ∧
      entry.id = first.id := by
    rw [ Function.entry?, finished, hlink, withPredecessors, List.head?_map, hb]
    exact ⟨_, rfl, hbid⟩
  refine ⟨entry, hentry, fun prev regs ω ω' => ?_⟩
  let c : M.Config := ⟨entry.id, 0, prev, regs, ω⟩
  have hkept : ∀ n c', Halts (finished name ret ps variadic bs).blocks n c c' ↔ Halts T.blocks n c c' := by
    intro n c'
    rw [finished, hlink, hhalts n c c' heq]
    exact Halts.congr (P := fun _ => True) (fun c _ => fetch_withPredecessors _ bs c)
      (fun _ _ _ _ => trivial) trivial
  -- the parameters
  have hblocks₀ : (s.enter name ret ps variadic).blocks = [] ++ [⟨s.labels, [], [], []⟩] := rfl
  have hopen : (s.enter name ret ps variadic).Open := ⟨_, hs₀.currentBlock? hblocks₀ rfl, rfl⟩
  have hat : (s.enter name ret ps variadic).At T c :=
    .inside hopen hblocks₀ (heq.trans hid) rfl
  obtain ⟨hopen₁, hrun₁⟩ := spill_arrives (M := M) (T := T) (n := ps.length) ps (by simp) hs₀
    hopen hspill
  obtain ⟨env, c₁, henter, harr₁, henv⟩ := hrun₁ c (fun _ => none) (hT.of_steps hs₁ hsteps₂) hat
    le_rfl (fun _ _ h => by cases h)
  -- the body
  obtain ⟨-, hrun₂⟩ := body_carries (T := T) henv hsts hs₁ rfl hbody
  have hfollows := hrun₂ hopen₁ hT harr₁.there le_rfl
  show (∃ n c', Halts (finished name ret ps variadic bs).blocks n c c' ∧ c'.world = ω') ↔ _
  simp only [hkept]
  constructor
  · rintro ⟨n, c', hn, rfl⟩
    obtain ⟨n₁, -, hn₁⟩ := hn.after_runs harr₁.runs
    obtain hret | ⟨ho, c₂, hm, harr₂, n₂, -, hn₂⟩ := hfollows.halts hn₁
    · exact ⟨env, c₁.world, .returned, henter, hret⟩
    · have hret := hend c c₂ heq (harr₁.trans harr₂).runs ho harr₂.there
      cases hn₂ with
      | here => exact ⟨env, c₁.world, .normal, henter, hm⟩
      | step hstep _ => exact absurd hstep hret.not_step
  · rintro ⟨env', ω₁, flow, henter', hm⟩
    cases henter.symm.trans henter'
    have hreach := hfollows.reaches hm
    have hreturns : ∃ c', Runs T.blocks c c' ∧ Returns T.blocks c' ∧ c'.world = ω' := by
      cases flow with
      | normal =>
        obtain ⟨ho, c₂, harr₂, hω⟩ := hreach
        have harr := harr₁.trans harr₂
        exact ⟨c₂, harr.runs, hend c c₂ heq harr.runs ho harr₂.there, hω⟩
      | returned =>
        obtain ⟨c₂, hruns, hret, hω⟩ := hreach
        exact ⟨c₂, harr₁.runs.trans hruns, hret, hω⟩
    obtain ⟨c', hruns, hret, hω⟩ := hreturns
    obtain ⟨n, hn⟩ := Halts.of_runs hruns hret
    exact ⟨n, c', hn, hω⟩

theorem finished_function_runs_body {t : TypeTable} {name : String} {ty : TypeId}
    {params : List (SymbolId × String)} {sts : List (TypeTable × Stmt)} {s s' : Emitter}
    (hsts : ∀ p ∈ sts, ∃ (session : Session) (es : List Expr), session.Reachable es ∧
      session.types = p.1 ∧ p.2.Plain fun cond => cond ∈ es ∧ Logical p.1 cond)
    (h : Ends (function t name ty params sts) s (.ok ()) s')
    (htexts : ∀ name text, textGlobal name text ∈ s'.module.globals → M.global name = M.text text) :
    ∃ ret tys variadic ps f entry, t.shape ty = .function ret tys variadic ∧
      parameters t params tys = .ok ps ∧ s'.module.functions = s.module.functions ++ [f] ∧
      f.name = name ∧ f.entry? = some entry ∧ ∀ prev regs (ω ω' : M.World),
        (∃ c', Runs f.blocks ⟨entry.id, 0, prev, regs, ω⟩ c' ∧ Returns f.blocks c' ∧ c'.world = ω') ↔
          Eval.function ps sts regs ω ω' := by
  obtain ⟨ret, tys, variadic, ir, ps, s₁, s₂, bs, hshape, -, hps, hspill, hbody, hfin, hmod,
    hglobals⟩ := function_ok h
  have hconds : ∀ p ∈ sts, p.2.Plain (Condition p.1) := by
    intro p hp
    obtain ⟨session, es, hreach, hty, hplain⟩ := hsts p hp
    refine hplain.imp fun cond hcond => ?_
    exact hcond.2.condition (hty ▸ hreach.sound.2 cond hcond.1)
  obtain ⟨entry, hentry, hruns⟩ :=
    finished_halts_iff hspill hbody hfin hconds (hglobals ▸ htexts)
  refine ⟨ret, tys, variadic, ps, _, entry, hshape, hps, hmod, rfl, hentry, fun prev regs ω ω' => ?_⟩
  rw [← hruns prev regs ω ω']
  constructor
  · rintro ⟨c', hc, hret, hω⟩
    obtain ⟨n, hn⟩ := Halts.of_runs hc hret
    exact ⟨n, c', hn, hω⟩
  · rintro ⟨n, c', hn, hω⟩
    exact ⟨c', hn.runs.1, hn.runs.2, hω⟩

/-! ### A loop over calls -/

namespace Sample

/-- The type of a function without parameters that returns nothing. -/
def procedure : TypeM TypeId := do TypeM.function (← TypeM.void) [] false

def table : TypeTable := (procedure types).2

def ty : TypeId := (procedure types).1

/-- `f()` -/
def call : Expr := history.expr 1

/-- `while (!f() && f()) { if (f()) { return; f(); } f(); }` and a call after it. -/
def program : List Stmt :=
  [.loop condition [.ifThen call [.ret none, .expr call], .expr call], .expr call]

def emitted : Emitter :=
  ((function table "main" ty [] (program.map (types, ·))).run.run (Emitter.new "m")).2

theorem program_plain :
    ∀ st ∈ program, st.Plain fun cond => cond ∈ history.exprs ∧ Logical types cond := by
  have hcondition : condition ∈ history.exprs ∧ Logical types condition :=
    ⟨Session.History.expr_mem (by decide +kernel), by decide +kernel⟩
  have hcall : call ∈ history.exprs ∧ Logical types call :=
    ⟨Session.History.expr_mem (by decide +kernel), by decide +kernel⟩
  intro st hst
  rcases List.mem_cons.1 hst with rfl | hst
  · exact ⟨hcondition, ⟨hcall, trivial, trivial, trivial⟩, trivial, trivial⟩
  · rw [List.mem_singleton.1 hst]
    trivial

theorem emits : Ends (function table "main" ty [] (program.map (types, ·))) (Emitter.new "m") (.ok ()) emitted := by
  obtain ⟨_, h⟩ := Ends.of_isOk (s := Emitter.new "m")
    (x := function table "main" ty [] (program.map (types, ·))) (by decide +kernel)
  exact h

end Sample

open Sample in
theorem sample_function_runs_body :
    history.session.Reachable history.exprs ∧
    (∀ st ∈ program, st.Plain fun cond => cond ∈ history.exprs ∧ Logical types cond) ∧
    Ends (function table "main" ty [] (program.map (types, ·))) (Emitter.new "m") (.ok ()) emitted ∧
    ∃ ret tys variadic ps f entry, table.shape ty = .function ret tys variadic ∧
      parameters table [] tys = .ok ps ∧ emitted.module.functions = [f] ∧ f.name = "main" ∧
      f.entry? = some entry ∧ ∀ prev regs (ω ω' : machine.World),
        (∃ c', Runs f.blocks ⟨entry.id, 0, prev, regs, ω⟩ c' ∧ Returns f.blocks c' ∧ c'.world = ω') ↔
          Eval.function ps (program.map (types, ·)) regs ω ω' := by
  have hreachable : history.session.Reachable history.exprs := Session.History.run_reachable _
  refine ⟨hreachable, program_plain, emits, ?_⟩
  refine finished_function_runs_body (fun p hp => ?_) emits fun _ _ _ => rfl
  obtain ⟨st, hst, rfl⟩ := List.mem_map.1 hp
  exact ⟨_, _, hreachable, rfl, program_plain st hst⟩

end TypedCore
