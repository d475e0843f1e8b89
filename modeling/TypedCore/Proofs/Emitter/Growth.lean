import Mathlib.Logic.Relation
import Mathlib.Tactic.Common
import TypedCore.Lowering.Emitter
import TypedCore.Proofs.Outcome

/-!
# How a function under construction grows

Everything that generating code does to an emitter is a sequence of five kinds of `Step`: a label or
a temporary is taken, a block is started, an instruction is added to the current block, or something
outside the function is noted. `Grows x` says so of a computation `x`, whether it fails or not; it
passes to sequences and holds of every operation of an emitter that does not begin or end a function.
-/

namespace TypedCore

open Ir

/-! ### Blocks -/

theorem modifyBlock_last {l : LabelId} {g : Block → Block} {pre : List Block} {b : Block}
    (hb : b.id = l) (hpre : l ∉ pre.map (·.id)) :
    modifyBlock l g (pre ++ [b]) = pre ++ [g b] := by
  induction pre with
  | nil => simp [modifyBlock, hb]
  | cons a pre ih =>
    simp only [List.map_cons, List.mem_cons, not_or] at hpre
    simp [modifyBlock, Ne.symm hpre.1, ih hpre.2]

theorem find?_modifyBlock {l : LabelId} {g : Block → Block} (hg : ∀ b, (g b).id = b.id)
    (bs : List Block) :
    (modifyBlock l g bs).find? (fun x => x.id == l) = (bs.find? fun x => x.id == l).map g := by
  induction bs with
  | nil => rfl
  | cons b bs ih =>
    by_cases hb : b.id = l
    · simp [modifyBlock, hb, hg]
    · simp [modifyBlock, hb, ih]

@[simp] theorem Block.hasTerminator_push (b : Block) (i : Instr) :
    (b.push i).hasTerminator = i.isTerminator := by
  cases h : i.isTerminator <;> simp [Ir.Block.hasTerminator, Ir.Block.terminator?, Ir.Block.push, h]

theorem find?_last {l : LabelId} {pre : List Block} {b : Block}
    (hb : b.id = l) (hpre : l ∉ pre.map (·.id)) :
    (pre ++ [b]).find? (fun x => x.id == l) = some b := by
  rw [List.find?_append, List.find?_eq_none.2 fun x hx => ?_]
  · simp [hb]
  · simp only [beq_iff_eq]
    rintro rfl
    exact hpre (List.mem_map_of_mem hx)

theorem map_id_modifyBlock {l : LabelId} {g : Block → Block} (hg : ∀ b, (g b).id = b.id) (bs : List Block) :
    (modifyBlock l g bs).map (·.id) = bs.map (·.id) := by
  induction bs with
  | nil => rfl
  | cons b bs ih =>
    by_cases hb : b.id = l
    · simp [modifyBlock, hb, hg]
    · simp [modifyBlock, hb, ih]

namespace Emitter

/-! ### The function under construction -/

/-- The blocks of the function under construction. -/
def blocks (s : Emitter) : List Block :=
  match s.builder.function with
  | some f => f.blocks
  | none => []

/-- The labels of its blocks. -/
def defined (s : Emitter) : List LabelId := s.blocks.map (·.id)

/-- Temporaries below this number are taken. -/
def temps (s : Emitter) : Nat := s.builder.temps.next

/-- Labels below this number are taken. -/
def labels (s : Emitter) : Nat := s.builder.labels.next

/-- There is a block, and control has not left it. -/
def Open (s : Emitter) : Prop := ∃ b, s.builder.currentBlock? = some b ∧ b.hasTerminator = false

/-! ### Changes -/

def takeLabel (s : Emitter) : Emitter :=
  { s with builder := { s.builder with labels := s.builder.labels.fresh.2 } }

def takeTemp (s : Emitter) : Emitter :=
  { s with builder := { s.builder with temps := s.builder.temps.fresh.2 } }

/-- Add an empty block and continue in it. -/
def startBlock (s : Emitter) (l : LabelId) : Emitter :=
  { s with builder := { s.builder with
      function := s.builder.function.map fun f => { f with blocks := f.blocks ++ [⟨l, [], [], []⟩] }
      current := some l } }

/-- Add an instruction to the current block. -/
def push (s : Emitter) (i : Instr) : Emitter :=
  { s with builder := { s.builder with
      function := s.builder.function.map fun f =>
        { f with blocks := modifyBlock (s.builder.current.getD 0) (·.push i) f.blocks } } }

@[simp] theorem blocks_takeLabel (s : Emitter) : s.takeLabel.blocks = s.blocks := rfl
@[simp] theorem temps_takeLabel (s : Emitter) : s.takeLabel.temps = s.temps := rfl
@[simp] theorem labels_takeLabel (s : Emitter) : s.takeLabel.labels = s.labels + 1 := rfl
@[simp] theorem blocks_takeTemp (s : Emitter) : s.takeTemp.blocks = s.blocks := rfl
@[simp] theorem temps_takeTemp (s : Emitter) : s.takeTemp.temps = s.temps + 1 := rfl
@[simp] theorem labels_takeTemp (s : Emitter) : s.takeTemp.labels = s.labels := rfl
@[simp] theorem temps_startBlock (s : Emitter) (l : LabelId) : (s.startBlock l).temps = s.temps := rfl
@[simp] theorem labels_startBlock (s : Emitter) (l : LabelId) : (s.startBlock l).labels = s.labels := rfl
@[simp] theorem temps_push (s : Emitter) (i : Instr) : (s.push i).temps = s.temps := rfl
@[simp] theorem labels_push (s : Emitter) (i : Instr) : (s.push i).labels = s.labels := rfl

theorem blocks_startBlock {s : Emitter} {l : LabelId} (h : s.builder.function.isSome) :
    (s.startBlock l).blocks = s.blocks ++ [⟨l, [], [], []⟩] := by
  obtain ⟨f, hf⟩ := Option.isSome_iff_exists.1 h
  simp [blocks, startBlock, hf]

theorem blocks_push (s : Emitter) (i : Instr) :
    (s.push i).blocks = modifyBlock (s.builder.current.getD 0) (·.push i) s.blocks := by
  cases h : s.builder.function <;> simp [blocks, push, h, modifyBlock]

theorem defined_push (s : Emitter) (i : Instr) : (s.push i).defined = s.defined := by
  rw [defined, blocks_push]
  exact map_id_modifyBlock (g := (·.push i)) (fun _ => rfl) _

theorem Open.acceptsInstr {s : Emitter} (h : s.Open) : s.acceptsInstr = true := by
  obtain ⟨b, hb, ht⟩ := h
  have hc : s.builder.current.isSome := by
    cases hc : s.builder.current with
    | none => cases hf : s.builder.function <;> simp [Builder.currentBlock?, hc, hf] at hb
    | some l => rfl
  simp [Emitter.acceptsInstr, Builder.isTerminated, hb, ht, hc]

theorem currentBlock?_push {s : Emitter} {b : Block} (i : Instr)
    (h : s.builder.currentBlock? = some b) :
    (s.push i).builder.currentBlock? = some (b.push i) := by
  cases hf : s.builder.function with
  | none => simp [Builder.currentBlock?, hf] at h
  | some f =>
    cases hc : s.builder.current with
    | none => simp [Builder.currentBlock?, hf, hc] at h
    | some l =>
      replace h : f.blocks.find? (fun x => x.id == l) = some b := by
        simpa [Builder.currentBlock?, hf, hc, Function.block?] using h
      simp [Builder.currentBlock?, push, hf, hc, Function.block?,
        find?_modifyBlock (g := fun x => x.push i) fun _ => rfl, h]

/-- After a terminator the block is closed. -/
theorem Open.push_terminator {s : Emitter} {i : Instr} (h : s.Open) (hi : i.isTerminator = true) :
    (s.push i).acceptsInstr = false := by
  obtain ⟨b, hb, -⟩ := h
  simp [Emitter.acceptsInstr, Builder.isTerminated, currentBlock?_push i hb, hi]

theorem Open.push {s : Emitter} {i : Instr} (h : s.Open) (hi : i.isTerminator = false) :
    (s.push i).Open := by
  obtain ⟨b, hb, -⟩ := h
  exact ⟨b.push i, currentBlock?_push i hb, by simp [hi]⟩

/-- One change of a function under construction, or of what stands around it. -/
inductive Step : Emitter → Emitter → Prop
  | label (s : Emitter) : Step s s.takeLabel
  | temp (s : Emitter) : Step s s.takeTemp
  /-- A block is started only after control has left the one before. -/
  | block (s : Emitter) (l : LabelId) (hf : s.builder.function.isSome)
      (hclosed : s.acceptsInstr = false) (hl : l ∉ s.defined) : Step s (s.startBlock l)
  | instr (s : Emitter) (i : Instr) (hopen : s.Open) : Step s (s.push i)
  /-- Globals and layouts are added to the module, and variables get their slots. -/
  | note (s s' : Emitter) (hb : s'.builder = s.builder) (hc : s'.current = s.current)
      (hf : s'.module.functions = s.module.functions)
      (hg : s.module.globals <+: s'.module.globals) : Step s s'

abbrev Steps : Emitter → Emitter → Prop := Relation.ReflTransGen Step

theorem Step.steps {s s' : Emitter} (h : Step s s') : Steps s s' := .single h

/-- Of the function under construction only the blocks change. -/
theorem Steps.function {s s' : Emitter} {f : Function} (h : Steps s s')
    (hf : s.builder.function = some f) :
    s'.builder.function = some { f with blocks := s'.blocks } := by
  have hblocks : ∃ bs, s'.builder.function = some { f with blocks := bs } := by
    induction h with
    | refl => exact ⟨f.blocks, hf⟩
    | @tail b _ _ hstep ih =>
      obtain ⟨bs, hbs⟩ := ih
      cases hstep with
      | label => exact ⟨bs, hbs⟩
      | temp => exact ⟨bs, hbs⟩
      | block l _ _ _ => exact ⟨bs ++ [⟨l, [], [], []⟩], by simp [startBlock, hbs]⟩
      | instr i _ => exact ⟨modifyBlock (b.builder.current.getD 0) (·.push i) bs, by simp [push, hbs]⟩
      | note _ hb _ _ _ => exact ⟨bs, hb ▸ hbs⟩
  obtain ⟨bs, hbs⟩ := hblocks
  simp [blocks, hbs]

/-- No other function is touched. -/
theorem Steps.functions {s s' : Emitter} (h : Steps s s') :
    s'.module.functions = s.module.functions ∧ s'.current = s.current := by
  induction h with
  | refl => exact ⟨rfl, rfl⟩
  | tail _ hstep ih =>
    cases hstep with
    | label => exact ih
    | temp => exact ih
    | block l _ _ _ => exact ih
    | instr i _ => exact ih
    | note _ _ hc hf _ => exact ⟨hf.trans ih.1, hc.trans ih.2⟩

end Emitter

/-! ### Outcomes of the operations of a builder -/

namespace Ir.BuilderM

variable {b b' : Builder} {l : LabelId}

theorem startBlock_ends {r : Except BuildError Unit} (h : Ends (startBlock l) b r b') :
    (∃ f, b.function = some f ∧ l ∉ f.blocks.map (·.id) ∧ r = .ok () ∧
      b' = { b with function := some { f with blocks := f.blocks ++ [⟨l, [], [], []⟩] }, current := some l }) ∨
    ∃ e, r = .error e ∧ b' = b ∧ ∀ f, b.function = some f → l ∈ f.blocks.map (·.id) := by
  unfold startBlock at h
  rw [Ends.get_bind_iff] at h
  cases hf : b.function with
  | none =>
    simp only [hf, Ends.throw_iff] at h
    exact .inr ⟨_, h.1, h.2, nofun⟩
  | some f =>
    simp only [hf] at h
    split at h
    · rename_i hl
      obtain ⟨hr, hb⟩ := Ends.throw_iff.1 h
      exact .inr ⟨_, hr, hb, fun _ hf => Option.some.inj hf ▸ by simpa [Function.block?] using hl⟩
    · rename_i hl
      exact .inl ⟨f, rfl, by simpa [Function.block?] using hl, Ends.set_iff.1 h⟩

/-- An instruction goes to the current block, unless control has left it. -/
theorem emit_ends {i : Instr} {r : Except BuildError Unit} (h : Ends (emit i) b r b') :
    (∃ f l block, b.function = some f ∧ b.current = some l ∧ f.block? l = some block ∧ block.hasTerminator = false ∧
      r = .ok () ∧ b' = { b with function := some { f with blocks := modifyBlock l (·.push i) f.blocks } }) ∨
    ∃ e, r = .error e ∧ b' = b ∧ ∀ block, b.currentBlock? = some block → block.hasTerminator = true := by
  unfold emit at h
  rw [Ends.get_bind_iff] at h
  cases hf : b.function with
  | none =>
    simp only [hf, Ends.throw_iff] at h
    exact .inr ⟨_, h.1, h.2, by simp [Builder.currentBlock?, hf]⟩
  | some f =>
    cases hc : b.current with
    | none =>
      simp only [hf, hc, Ends.throw_iff] at h
      exact .inr ⟨_, h.1, h.2, by simp [Builder.currentBlock?, hf, hc]⟩
    | some l =>
      simp only [hf, hc] at h
      cases hblock : f.block? l with
      | none =>
        simp only [hblock, Ends.throw_iff] at h
        exact .inr ⟨_, h.1, h.2, by simp [Builder.currentBlock?, hf, hc, hblock]⟩
      | some block =>
        simp only [hblock] at h
        split at h
        · rename_i ht
          obtain ⟨hr, hb⟩ := Ends.throw_iff.1 h
          exact .inr ⟨_, hr, hb, by simpa [Builder.currentBlock?, hf, hc, hblock] using ht⟩
        · rename_i ht
          exact .inl ⟨f, l, block, rfl, rfl, hblock, by simpa using ht, Ends.set_iff.1 h⟩

/-- A temporary is used up even if the instruction is refused. -/
theorem emitTemp_ends {i : TempId → Instr} {r : Except BuildError TempId} (h : Ends (emitTemp i) b r b') :
    (r = .ok b.temps.next ∧
      Ends (emit (i b.temps.next)) { b with temps := ⟨b.temps.next + 1⟩ } (.ok ()) b') ∨
    ∃ e, r = .error e ∧ b' = { b with temps := ⟨b.temps.next + 1⟩ } ∧
      ∀ block, b.currentBlock? = some block → block.hasTerminator = true := by
  unfold emitTemp newTemp at h
  rw [Ends.modifyGet_bind_iff, Ends.bind_iff] at h
  obtain ⟨_, b₁, h, h'⟩ | ⟨e, rfl, h⟩ := h
  · obtain ⟨rfl, rfl⟩ := Ends.pure_iff.1 h'
    exact .inl ⟨rfl, h⟩
  · obtain ⟨_, _, _, -, -, -, -, hr, -⟩ | ⟨_, -, rfl, hclosed⟩ := emit_ends h
    · cases hr
    · exact .inr ⟨e, rfl, rfl, hclosed⟩

end Ir.BuilderM

namespace Emit

open Emitter

variable {α β : Type}

/-! ### Outcomes of the operations -/

theorem build_iff {x : BuilderM α} {s s' : Emitter} {r : Except Fault α} :
    Ends (build x) s r s' ↔
      ∃ rb b, Ends x s.builder rb b ∧ r = rb.mapError .builder ∧ s' = { s with builder := b } := by
  unfold Ends
  rw [build, ExceptT.run_mk, StateT.run]
  rcases x.run.run s.builder with ⟨e | a, b⟩
  · constructor
    · intro h; cases h; exact ⟨_, _, rfl, rfl, rfl⟩
    · rintro ⟨_, _, h, rfl, rfl⟩; cases h; rfl
  · constructor
    · intro h; cases h; exact ⟨_, _, rfl, rfl, rfl⟩
    · rintro ⟨_, _, h, rfl, rfl⟩; cases h; rfl

theorem build_bind (x : BuilderM α) (f : α → BuilderM β) :
    build (x >>= f) = build x >>= fun a => build (f a) := by
  funext s
  show (build (x >>= f)).run.run s = (build x >>= fun a => build (f a)).run.run s
  obtain ⟨r, s', h⟩ := Ends.exists_of_run (build x >>= fun a => build (f a)) s
  refine Eq.trans ?_ h.symm
  obtain ⟨a, s₁, h₁, h₂⟩ | ⟨e, rfl, h₁⟩ := Ends.bind_iff.1 h
  · obtain ⟨rb, b, hb, hr, rfl⟩ := build_iff.1 h₁
    obtain ⟨rb', b', hb', rfl, rfl⟩ := build_iff.1 h₂
    cases rb with
    | error e => cases hr
    | ok a' =>
      cases hr
      exact build_iff.2 ⟨_, _, Ends.bind_iff.2 (.inl ⟨_, _, hb, hb'⟩), rfl, rfl⟩
  · obtain ⟨rb, b, hb, hr, rfl⟩ := build_iff.1 h₁
    cases rb with
    | error e =>
      cases hr
      exact build_iff.2 ⟨_, _, Ends.bind_iff.2 (.inr ⟨e, rfl, hb⟩), rfl, rfl⟩
    | ok a => cases hr

theorem build_map (g : α → β) (x : BuilderM α) : build (g <$> x) = build x >>= fun a => pure (g a) := by
  rw [map_eq_pure_bind, build_bind]
  rfl

theorem build_alloca_eq (ty : Ty) : build (.alloca ty) =
    build (.emitTemp fun r => .alloca r ty (.ptr ty)) >>= fun r => pure (Value.temp r) := build_map ..

theorem build_offset_eq (base : Value) (indices : List Value) (ty : Ty) : build (.offset base indices ty) =
    build (.emitTemp fun r => .offset r base indices ty) >>= fun r => pure (Value.temp r) := build_map ..

theorem createLabel_iff {s s' : Emitter} {r : Except Fault LabelId} :
    Ends createLabel s r s' ↔ r = .ok s.labels ∧ s' = s.takeLabel := by
  unfold createLabel
  rw [build_iff]
  simp only [BuilderM.newLabel, Ends.modifyGet_iff]
  constructor
  · rintro ⟨_, _, ⟨rfl, rfl⟩, rfl, rfl⟩; exact ⟨rfl, rfl⟩
  · rintro ⟨rfl, rfl⟩; exact ⟨_, _, ⟨rfl, rfl⟩, rfl, rfl⟩

theorem build_startBlock {l : LabelId} {s s' : Emitter} {r : Except Fault Unit}
    (h : Ends (build (.startBlock l)) s r s') :
    (r = .ok () ∧ s.builder.function.isSome ∧ l ∉ s.defined ∧ s' = s.startBlock l) ∨
      ∃ e, r = .error e ∧ s' = s := by
  obtain ⟨rb, b, hb, rfl, rfl⟩ := build_iff.1 h
  obtain ⟨f, hf, hl, rfl, rfl⟩ | ⟨e, rfl, rfl, -⟩ := BuilderM.startBlock_ends hb
  · refine .inl ⟨rfl, by simp [hf], ?_, ?_⟩
    · simpa [defined, blocks, hf] using hl
    · simp [Emitter.startBlock, hf]
  · exact .inr ⟨_, rfl, rfl⟩

theorem build_emit {i : Instr} {s s' : Emitter} {r : Except Fault Unit}
    (h : Ends (build (.emit i)) s r s') :
    (r = .ok () ∧ s.Open ∧ s' = s.push i) ∨ ∃ e, r = .error e ∧ s' = s := by
  obtain ⟨rb, b, hb, rfl, rfl⟩ := build_iff.1 h
  obtain ⟨f, l, block, hf, hc, hblock, ht, rfl, rfl⟩ | ⟨e, rfl, rfl, -⟩ := BuilderM.emit_ends hb
  · refine .inl ⟨rfl, ⟨block, ?_, ht⟩, ?_⟩
    · simp [Builder.currentBlock?, hf, hc, hblock]
    · simp [Emitter.push, hf, hc]
  · exact .inr ⟨_, rfl, rfl⟩

theorem build_emit_open {s : Emitter} (h : s.Open) (i : Instr) : Ends (build (.emit i)) s (.ok ()) (s.push i) := by
  obtain ⟨r, s', hx⟩ := Ends.exists_of_run (build (.emit i)) s
  obtain ⟨rfl, -, rfl⟩ | ⟨e, rfl, -⟩ := build_emit hx
  · exact hx
  · obtain ⟨block, hblock, ht⟩ := h
    obtain ⟨rb, b, hb, hr, -⟩ := build_iff.1 hx
    obtain ⟨_, _, _, -, -, -, -, rfl, -⟩ | ⟨_, -, -, hclosed⟩ := BuilderM.emit_ends hb
    · cases hr
    · exact absurd (hclosed block hblock) (by simp [ht])

/-- A temporary is used up even if the instruction is refused. -/
theorem build_emitTemp {i : TempId → Instr} {s s' : Emitter} {r : Except Fault TempId}
    (h : Ends (build (.emitTemp i)) s r s') :
    (r = .ok s.temps ∧ s.Open ∧ s' = s.takeTemp.push (i s.temps)) ∨
      ∃ e, r = .error e ∧ s' = s.takeTemp := by
  obtain ⟨rb, b, hb, rfl, rfl⟩ := build_iff.1 h
  obtain ⟨rfl, hemit⟩ | ⟨e, rfl, rfl, -⟩ := BuilderM.emitTemp_ends hb
  · have := build_emit (build_iff.2 ⟨_, _, hemit, rfl, rfl⟩ :
      Ends (build (.emit (i s.temps))) s.takeTemp _ { s.takeTemp with builder := b })
    obtain ⟨-, ho, hs⟩ | ⟨e, h, -⟩ := this
    · exact .inl ⟨rfl, ho, hs⟩
    · cases h
  · exact .inr ⟨_, rfl, rfl⟩

theorem requireFunction_bind_iff {f : FunctionHead → EmitM β} {s s' : Emitter}
    {r : Except Fault β} :
    Ends (requireFunction >>= f) s r s' ↔
      (∃ head, s.current = some head ∧ Ends (f head) s r s') ∨
        (s.current = none ∧ r = .error .noFunction ∧ s' = s) := by
  unfold requireFunction
  rw [Ends.bind_iff]
  simp only [Ends.get_bind_iff]
  cases hc : s.current with
  | none =>
    simp only [Ends.throw_iff]
    constructor
    · rintro (⟨_, _, ⟨h, -⟩, -⟩ | ⟨e, rfl, h, rfl⟩)
      · cases h
      · cases h; exact .inr ⟨trivial, rfl, rfl⟩
    · rintro (⟨_, h, -⟩ | ⟨-, rfl, rfl⟩)
      · cases h
      · exact .inr ⟨_, rfl, rfl, rfl⟩
  | some head =>
    simp only [Ends.pure_iff]
    constructor
    · rintro (⟨_, _, ⟨h, rfl⟩, h'⟩ | ⟨e, -, h, -⟩)
      · cases h; exact .inl ⟨_, rfl, h'⟩
      · cases h
    · rintro (⟨_, h, h'⟩ | ⟨h, -⟩)
      · cases h; exact .inl ⟨_, _, ⟨rfl, rfl⟩, h'⟩
      · cases h

/-- A block that accepts no instruction is followed by a new one with a label of its own. -/
theorem openBlock_ends {s s' : Emitter} {r : Except Fault Unit} (h : Ends openBlock s r s') :
    (r = .ok () ∧ s.current.isSome ∧ s.acceptsInstr = true ∧ s' = s) ∨
    (r = .ok () ∧ s.current.isSome ∧ s.acceptsInstr = false ∧ s.builder.function.isSome ∧
      s.labels ∉ s.defined ∧ s' = s.takeLabel.startBlock s.labels) ∨
    ∃ e, r = .error e ∧ (s' = s ∨ s' = s.takeLabel) := by
  unfold openBlock at h
  rw [requireFunction_bind_iff] at h
  obtain ⟨head, hc, h⟩ | ⟨-, rfl, rfl⟩ := h
  · rw [Ends.get_bind_iff] at h
    have hc' : s.current.isSome := by simp [hc]
    split at h
    · rename_i ha
      have ha : s.acceptsInstr = false := by simpa using ha
      obtain ⟨rb, b, hb, rfl, rfl⟩ := build_iff.1 h
      rw [BuilderM.newLabel, Ends.modifyGet_bind_iff] at hb
      have := build_startBlock (build_iff.2 ⟨_, _, hb, rfl, rfl⟩ :
        Ends (build (.startBlock s.labels)) s.takeLabel _ { s.takeLabel with builder := b })
      obtain ⟨hr, hf, hl, hs⟩ | ⟨e, hr, hs⟩ := this
      · exact .inr (.inl ⟨hr, hc', ha, hf, hl, hs⟩)
      · exact .inr (.inr ⟨e, hr, .inr hs⟩)
    · rename_i ha
      obtain ⟨rfl, rfl⟩ := Ends.pure_iff.1 h
      exact .inl ⟨rfl, hc', by simpa using ha, rfl⟩
  · exact .inr (.inr ⟨_, rfl, .inl rfl⟩)

/-- Control falls from an open block into the block of the label. -/
theorem defineLabel_ends {l : LabelId} {s s' : Emitter} {r : Except Fault Unit}
    (h : Ends (defineLabel l) s r s') :
    (r = .ok () ∧ s.Open ∧ s.builder.function.isSome ∧ l ∉ (s.push (.branch l)).defined ∧
      s' = (s.push (.branch l)).startBlock l) ∨
    (r = .ok () ∧ s.acceptsInstr = false ∧ s.builder.function.isSome ∧ l ∉ s.defined ∧
      s' = s.startBlock l) ∨
    (∃ e, r = .error e ∧ (s' = s ∨ s.Open ∧ s' = s.push (.branch l))) := by
  unfold defineLabel at h
  rw [requireFunction_bind_iff] at h
  obtain ⟨head, hc, h⟩ | ⟨-, rfl, rfl⟩ := h
  · rw [Ends.get_bind_iff] at h
    split at h
    · rw [Ends.bind_iff] at h
      obtain ⟨_, s₁, h₁, h₂⟩ | ⟨e, rfl, h₁⟩ := h
      · obtain ⟨-, ho, rfl⟩ | ⟨e, he, -⟩ := build_emit h₁
        · obtain ⟨rfl, hf, hl, rfl⟩ | ⟨e, rfl, rfl⟩ := build_startBlock h₂
          · exact .inl ⟨rfl, ho, by simpa [Emitter.push] using hf, hl, rfl⟩
          · exact .inr (.inr ⟨e, rfl, .inr ⟨ho, rfl⟩⟩)
        · cases he
      · obtain ⟨he, -⟩ | ⟨e', -, rfl⟩ := build_emit h₁
        · cases he
        · exact .inr (.inr ⟨e, rfl, .inl rfl⟩)
    · rename_i ho
      have ha : s.acceptsInstr = false := by
        simpa [Emitter.isBlockOpen, Emitter.state, hc] using ho
      obtain ⟨rfl, hf, hl, rfl⟩ | ⟨e, rfl, rfl⟩ := build_startBlock h
      · exact .inr (.inl ⟨rfl, ha, hf, hl, rfl⟩)
      · exact .inr (.inr ⟨e, rfl, .inl rfl⟩)
  · exact .inr (.inr ⟨_, rfl, .inl rfl⟩)

/-- Looking for an address changes nothing, and is in vain only for a variable without a slot. -/
theorem symbolAddress_ends {symbol : SymbolId} {name : String} {storage : Storage} {s s' : Emitter}
    {r : Except Fault Value} (h : Ends (symbolAddress symbol name storage) s r s') :
    s' = s ∧ ∀ f, r = .error f → f = .undefinedVariable name := by
  cases storage with
  | global | function =>
    obtain ⟨rfl, rfl⟩ := Ends.pure_iff.1 h
    exact ⟨rfl, by simp⟩
  | automatic =>
    rw [symbolAddress, Ends.get_bind_iff] at h
    split at h
    · obtain ⟨rfl, rfl⟩ := Ends.pure_iff.1 h
      exact ⟨rfl, by simp⟩
    · obtain ⟨rfl, rfl⟩ := Ends.throw_iff.1 h
      exact ⟨rfl, fun f hf => (Except.error.inj hf).symm⟩

/-- A text becomes a global of bytes. -/
theorem stringLiteral_ends {text : String} {s s' : Emitter} {r : Except Fault Value}
    (h : Ends (stringLiteral text) s r s') :
    ∃ (g : Global) (n : Nat), s' = { s with module := s.module.addGlobal g, nextString := s.nextString + 1 } ∧
      r = .ok (.global g.name) ∧ g.ty = .array n .i8 := by
  unfold stringLiteral at h
  rw [Ends.get_bind_iff, Ends.set_bind_iff] at h
  obtain ⟨rfl, rfl⟩ := Ends.pure_iff.1 h
  exact ⟨_, _, rfl, rfl, rfl⟩

/-! ### Computations that only let the function grow -/

/-- Whatever `x` does, it does by steps, also before it fails. -/
def Grows (x : EmitM α) : Prop := ∀ ⦃s r s'⦄, Ends x s r s' → Steps s s'

namespace Grows

theorem pure (a : α) : Grows (pure a) := by
  intro s r s' h
  obtain ⟨-, rfl⟩ := Ends.pure_iff.1 h
  exact .refl

theorem throw (f : Fault) : Grows (throw f : EmitM α) := by
  intro s r s' h
  obtain ⟨-, rfl⟩ := Ends.throw_iff.1 h
  exact .refl

theorem lift (y : Except Fault α) : Grows (liftM y : EmitM α) := by
  intro s r s' h
  obtain ⟨-, rfl⟩ := Ends.lift_iff.1 h
  exact .refl

theorem bind {x : EmitM α} {f : α → EmitM β} (hx : Grows x) (hf : ∀ a, Grows (f a)) :
    Grows (x >>= f) := by
  intro s r s' h
  obtain ⟨a, s₁, h₁, h₂⟩ | ⟨e, rfl, h₁⟩ := Ends.bind_iff.1 h
  · exact (hx h₁).trans (hf a h₂)
  · exact hx h₁

theorem createLabel : Grows Emit.createLabel := by
  intro s r s' h
  obtain ⟨-, rfl⟩ := createLabel_iff.1 h
  exact (Step.label s).steps

theorem openBlock : Grows Emit.openBlock := by
  intro s r s' h
  obtain ⟨-, -, -, rfl⟩ | ⟨-, -, ha, hf, hl, rfl⟩ | ⟨e, -, rfl | rfl⟩ := openBlock_ends h
  · exact .refl
  · exact (Step.label s).steps.tail (.block s.takeLabel s.labels hf ha hl)
  · exact .refl
  · exact (Step.label s).steps

theorem defineLabel (l : LabelId) : Grows (Emit.defineLabel l) := by
  intro s r s' h
  obtain ⟨-, ho, hf, hl, rfl⟩ | ⟨-, ha, hf, hl, rfl⟩ | ⟨e, -, rfl | ⟨ho, rfl⟩⟩ := defineLabel_ends h
  · exact (Step.instr s _ ho).steps.tail
      (.block _ l (by simpa [Emitter.push] using hf) (ho.push_terminator rfl) hl)
  · exact (Step.block s l hf ha hl).steps
  · exact .refl
  · exact (Step.instr s _ ho).steps

theorem emit (i : Instr) : Grows (build (.emit i)) := by
  intro s r s' h
  obtain ⟨-, ho, rfl⟩ | ⟨e, -, rfl⟩ := build_emit h
  · exact (Step.instr s i ho).steps
  · exact .refl

theorem emitTemp (i : TempId → Instr) : Grows (build (.emitTemp i)) := by
  intro s r s' h
  obtain ⟨-, ho, rfl⟩ | ⟨e, -, rfl⟩ := build_emitTemp h
  · exact (Step.temp s).steps.tail (.instr s.takeTemp _ ho)
  · exact (Step.temp s).steps

theorem get_bind {f : Emitter → EmitM β} (hf : ∀ s, Grows (f s)) : Grows (get >>= f) :=
  fun s _ _ h => hf s (Ends.get_bind_iff.1 h)

theorem jump (target : LabelId) : Grows (Emit.jump target) := bind openBlock fun _ => emit _

theorem condJump (v : Value) (onTrue onFalse : LabelId) : Grows (Emit.condJump v onTrue onFalse) :=
  bind openBlock fun _ => emit _

theorem merge (incoming : List (Value × LabelId)) (ty : Ty) : Grows (Emit.merge incoming ty) :=
  bind openBlock fun _ => bind (emitTemp _) fun _ => pure _

theorem recordType (ty : Ty) : Grows (Emit.recordType ty) := by
  intro s r s' h
  obtain ⟨-, rfl⟩ := Ends.modify_iff.1 h
  refine .single (.note s _ ?_ ?_ ?_ ?_)
  exacts [rfl, rfl, rfl, List.prefix_rfl]

theorem alloca (ty : Ty) : Grows (build (.alloca ty)) := by
  rw [build_alloca_eq]
  exact bind (emitTemp _) fun _ => pure _

theorem temporary (ty : Ty) : Grows (Emit.temporary ty) :=
  bind openBlock fun _ => bind (recordType ty) fun _ => alloca ty

theorem symbolAddress (id : SymbolId) (name : String) (storage : Storage) :
    Grows (Emit.symbolAddress id name storage) := by
  intro s r s' h
  obtain ⟨rfl, -⟩ := symbolAddress_ends h
  exact .refl

theorem stringLiteral (text : String) : Grows (Emit.stringLiteral text) := by
  intro s r s' h
  obtain ⟨g, n, rfl, -, -⟩ := stringLiteral_ends h
  refine .single (.note s _ ?_ ?_ ?_ ?_)
  exacts [rfl, rfl, rfl, List.prefix_append _ _]

end Grows

end Emit

end TypedCore
