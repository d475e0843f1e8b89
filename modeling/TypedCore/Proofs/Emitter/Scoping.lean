import TypedCore.Proofs.Graph.Targets

/-!
# Labels are local to the code that takes them

`Scoped J x`: besides labels of `J`, code `x` jumps only to labels that it has taken itself, and starts
blocks only at such labels. This holds whether `x` fails or not. So a label that is left without a block
when the code for a statement fails half way gets none from the statements after it.
-/

namespace TypedCore

open Ir Lowering Emit

namespace Emitter

variable {s s' s₁ : Emitter} {J : List LabelId}

/-- From `s` to `s'` only labels of `J` and new ones are used. -/
structure Uses (J : List LabelId) (s s' : Emitter) : Prop where
  labels_le : s.labels ≤ s'.labels
  defined : ∀ l ∈ s'.defined, l ∈ s.defined ∨ l ∈ J ∨ s.labels ≤ l
  targets : ∀ l ∈ s'.targets, l ∈ s.targets ∨ l ∈ J ∨ s.labels ≤ l ∧ l < s'.labels

namespace Uses

theorem refl (s : Emitter) : Uses J s s := ⟨Nat.le_refl _, fun _ h => .inl h, fun _ h => .inl h⟩

theorem trans (h : Uses J s s₁) (h' : Uses J s₁ s') : Uses J s s' := by
  have hle := h.labels_le
  have hle' := h'.labels_le
  refine ⟨Nat.le_trans hle hle', fun l hl => ?_, fun l hl => ?_⟩
  · rcases h'.defined l hl with hl | hl | hl
    · exact h.defined l hl
    · exact .inr (.inl hl)
    · exact .inr (.inr (Nat.le_trans hle hl))
  · rcases h'.targets l hl with hl | hl | hl
    · rcases h.targets l hl with hl | hl | hl
      · exact .inl hl
      · exact .inr (.inl hl)
      · exact .inr (.inr ⟨hl.1, Nat.lt_of_lt_of_le hl.2 hle'⟩)
    · exact .inr (.inl hl)
    · exact .inr (.inr ⟨Nat.le_trans hle hl.1, hl.2⟩)

/-- A label that was just taken is a new one. -/
theorem of_takeLabel (h : Uses (s.labels :: J) s.takeLabel s') : Uses J s s' := by
  have hle : s.labels + 1 ≤ s'.labels := h.labels_le
  refine ⟨by omega, fun l hl => ?_, fun l hl => ?_⟩
  · rcases h.defined l hl with hl | hl | hl
    · exact .inl hl
    · rcases List.mem_cons.1 hl with rfl | hl
      · exact .inr (.inr (Nat.le_refl _))
      · exact .inr (.inl hl)
    · exact .inr (.inr (Nat.le_of_succ_le hl))
  · rcases h.targets l hl with hl | hl | hl
    · exact .inl hl
    · rcases List.mem_cons.1 hl with rfl | hl
      · exact .inr (.inr ⟨Nat.le_refl _, hle⟩)
      · exact .inr (.inl hl)
    · exact .inr (.inr ⟨Nat.le_of_succ_le hl.1, hl.2⟩)

theorem takeLabel (s : Emitter) : Uses J s s.takeLabel :=
  ⟨Nat.le_succ _, fun _ h => .inl h, fun _ h => .inl h⟩

theorem takeTemp (s : Emitter) : Uses J s s.takeTemp :=
  ⟨Nat.le_refl _, fun _ h => .inl h, fun _ h => .inl h⟩

theorem push {i : Instr} (hi : i.successors ⊆ J) : Uses J s (s.push i) :=
  ⟨Nat.le_refl _, fun _ hl => .inl (s.defined_push i ▸ hl),
    fun _ hl => (mem_targets_push hl).imp_right fun hl => .inl (hi hl)⟩

theorem startBlock {l : LabelId} (hf : s.builder.function.isSome) (hl : l ∈ J) : Uses J s (s.startBlock l) := by
  have hblocks := blocks_startBlock (l := l) hf
  refine ⟨Nat.le_refl _, fun l' hl' => ?_, fun l' hl' => .inl ?_⟩
  · simp only [Emitter.defined, hblocks, List.map_append, List.map_cons, List.map_nil, List.mem_append,
      List.mem_singleton] at hl'
    exact hl'.imp_right fun h => .inl (by rwa [h])
  · simpa [Emitter.targets, hblocks] using hl'

theorem congr (hb : s'.builder = s.builder) : Uses J s s' := by
  have hblocks : s'.blocks = s.blocks := by simp only [blocks, hb]
  refine ⟨by simp only [labels, hb, Nat.le_refl], fun l hl => .inl ?_, fun l hl => .inl ?_⟩
  · rwa [Emitter.defined, hblocks] at hl
  · rwa [Emitter.targets, hblocks] at hl

end Uses

end Emitter

open Emitter

variable {α β : Type} {J : List LabelId}

/-- Of labels that are not its own, `x` uses only those of `J`. -/
def Scoped (J : List LabelId) (x : EmitM α) : Prop := ∀ ⦃s r s'⦄, Ends x s r s' → Uses J s s'

namespace Scoped

theorem pure (a : α) : Scoped J (pure a) := by
  intro s r s' h
  obtain ⟨-, rfl⟩ := Ends.pure_iff.1 h
  exact .refl _

theorem throw (f : Fault) : Scoped J (throw f : EmitM α) := by
  intro s r s' h
  obtain ⟨-, rfl⟩ := Ends.throw_iff.1 h
  exact .refl _

theorem lift (y : Except Fault α) : Scoped J (liftM y : EmitM α) := by
  intro s r s' h
  obtain ⟨-, rfl⟩ := Ends.lift_iff.1 h
  exact .refl _

theorem bind {x : EmitM α} {f : α → EmitM β} (hx : Scoped J x) (hf : ∀ a, Scoped J (f a)) :
    Scoped J (x >>= f) := by
  intro s r s' h
  obtain ⟨a, s₁, h₁, h₂⟩ | ⟨e, rfl, h₁⟩ := Ends.bind_iff.1 h
  · exact (hx h₁).trans (hf a h₂)
  · exact hx h₁

theorem get_bind {f : Emitter → EmitM β} (hf : ∀ s, Scoped J (f s)) : Scoped J (get >>= f) :=
  fun s _ _ h => hf s (Ends.get_bind_iff.1 h)

/-- The code that follows may use the label. -/
theorem createLabel_bind {f : LabelId → EmitM β} (hf : ∀ l, Scoped (l :: J) (f l)) :
    Scoped J (createLabel >>= f) := by
  intro s r s' h
  obtain ⟨l, s₁, h₁, h₂⟩ | ⟨e, -, h₁⟩ := Ends.bind_iff.1 h
  · obtain ⟨hl, rfl⟩ := createLabel_iff.1 h₁
    cases hl
    exact (hf _ h₂).of_takeLabel
  · cases (createLabel_iff.1 h₁).1

theorem openBlock : Scoped J openBlock := by
  intro s r s' h
  obtain ⟨-, -, -, rfl⟩ | ⟨-, -, -, hf, -, rfl⟩ | ⟨e, -, rfl | rfl⟩ := openBlock_ends h
  · exact .refl _
  · exact .of_takeLabel (.startBlock hf (List.mem_cons_self ..))
  · exact .refl _
  · exact .takeLabel s

theorem emit {i : Instr} (hi : i.successors ⊆ J) : Scoped J (build (.emit i)) := by
  intro s r s' h
  obtain ⟨-, -, rfl⟩ | ⟨e, -, rfl⟩ := build_emit h
  · exact .push hi
  · exact .refl _

theorem emitTemp {i : TempId → Instr} (hi : ∀ r, (i r).successors = []) : Scoped J (build (.emitTemp i)) := by
  intro s r s' h
  obtain ⟨-, -, rfl⟩ | ⟨e, -, rfl⟩ := build_emitTemp h
  · exact (Uses.takeTemp s).trans (.push (by simp [hi]))
  · exact .takeTemp s

theorem jump {target : LabelId} (h : target ∈ J) : Scoped J (Emit.jump target) :=
  openBlock.bind fun _ => emit (by simpa [Instr.successors] using h)

theorem condJump (v : Value) {onTrue onFalse : LabelId} (ht : onTrue ∈ J) (hf : onFalse ∈ J) :
    Scoped J (Emit.condJump v onTrue onFalse) :=
  openBlock.bind fun _ => emit (by simp [Instr.successors, ht, hf])

theorem defineLabel {l : LabelId} (hl : l ∈ J) : Scoped J (Emit.defineLabel l) := by
  intro s r s' h
  have hbranch : Uses J s (s.push (.branch l)) := .push (by simpa [Instr.successors] using hl)
  obtain ⟨-, -, hf, -, rfl⟩ | ⟨-, -, hf, -, rfl⟩ | ⟨e, -, rfl | ⟨-, rfl⟩⟩ := defineLabel_ends h
  · exact hbranch.trans (.startBlock (by simpa [Emitter.push] using hf) hl)
  · exact .startBlock hf hl
  · exact .refl _
  · exact hbranch

theorem merge (incoming : List (Value × LabelId)) (ty : Ty) : Scoped J (Emit.merge incoming ty) :=
  openBlock.bind fun _ => (emitTemp fun _ => rfl).bind fun _ => pure _

theorem note {f : Emitter → Emitter} (hb : ∀ s, (f s).builder = s.builder) : Scoped J (modify f) := by
  intro s r s' h
  obtain ⟨-, rfl⟩ := Ends.modify_iff.1 h
  exact .congr (hb s)

theorem recordType (ty : Ty) : Scoped J (Emit.recordType ty) := note fun _ => rfl

theorem alloca (ty : Ty) : Scoped J (build (.alloca ty)) := by
  rw [build_alloca_eq]
  exact (emitTemp fun _ => rfl).bind fun _ => pure _

theorem currentLabel : Scoped J currentLabel := by
  refine get_bind fun s => ?_
  split
  · exact pure _
  · exact throw _

end Scoped

/-! ### Expressions -/

/-- The labels that code with the given exit leaves by are in `J`. -/
def Exit.Within (J : List LabelId) : Exit → Prop
  | .falls => True
  | .goes onTrue onFalse => onTrue ∈ J ∧ onFalse ∈ J

/-- Structured code uses the two labels of its exit, and none else that is not its own. -/
theorem Emits.scoped {k : Exit} {x : EmitM α} (h : Emits k x) : ∀ {J}, k.Within J → Scoped J x := by
  induction h with
  | pure a => exact fun _ => .pure a
  | throw k f => exact fun _ => .throw f
  | lift y => exact fun _ => .lift y
  | bind _ _ ihx ihf => exact fun hk => (ihx trivial).bind fun a => ihf a hk
  | instr i hi =>
    exact fun _ => Scoped.openBlock.bind fun _ => .emit (by simp [Instr.successors_of_isPlain hi])
  | temp i hi =>
    exact fun _ => Scoped.openBlock.bind fun _ => .emitTemp fun r => Instr.successors_of_isPlain (hi r)
  | slot ty =>
    exact fun _ => Scoped.openBlock.bind fun _ => (Scoped.recordType ty).bind fun _ => .alloca ty
  | symbol id name storage =>
    intro J _ s r s' h
    obtain ⟨rfl, -⟩ := symbolAddress_ends h
    exact .congr rfl
  | text text =>
    intro J _ s r s' h
    obtain ⟨g, n, rfl, -, -⟩ := stringLiteral_ends h
    exact .congr rfl
  | materialize _ ih =>
    intro J _
    refine .createLabel_bind fun onTrue => .createLabel_bind fun onFalse => .createLabel_bind fun done => ?_
    refine (ih onTrue onFalse (by simp [Exit.Within])).bind fun _ => ?_
    refine (Scoped.defineLabel (by simp)).bind fun _ => (Scoped.jump (by simp)).bind fun _ => ?_
    refine (Scoped.defineLabel (by simp)).bind fun _ => (Scoped.jump (by simp)).bind fun _ => ?_
    exact (Scoped.defineLabel (by simp)).bind fun _ => .merge _ _
  | choice _ _ _ ihc iha ihb =>
    intro J _
    refine .createLabel_bind fun onTrue => .createLabel_bind fun onFalse => .createLabel_bind fun done => ?_
    refine (ihc onTrue onFalse (by simp [Exit.Within])).bind fun _ => ?_
    refine (Scoped.defineLabel (by simp)).bind fun _ => (iha trivial).bind fun _ =>
      Scoped.currentLabel.bind fun _ => (Scoped.jump (by simp)).bind fun _ => ?_
    refine (Scoped.defineLabel (by simp)).bind fun _ => (ihb trivial).bind fun _ =>
      Scoped.currentLabel.bind fun _ => (Scoped.jump (by simp)).bind fun _ =>
      (Scoped.defineLabel (by simp)).bind fun _ => ?_
    split
    · exact .pure _
    · exact (Scoped.lift _).bind fun _ => .merge _ _
  | jump h =>
    rintro J ⟨ht, hf⟩
    rcases h with rfl | rfl
    · exact .jump ht
    · exact .jump hf
  | condJump v onTrue onFalse => exact fun hk => .condJump v hk.1 hk.2
  | swap _ ih => exact fun hk => ih hk.symm
  | both onTrue onFalse _ _ ihl ihr =>
    rintro J ⟨ht, hf⟩
    refine .createLabel_bind fun check => (ihl check onFalse (by simp [Exit.Within, hf])).bind fun _ => ?_
    exact (Scoped.defineLabel (by simp)).bind fun _ => ihr onTrue onFalse (by simp [Exit.Within, ht, hf])
  | either onTrue onFalse _ _ ihl ihr =>
    rintro J ⟨ht, hf⟩
    refine .createLabel_bind fun check => (ihl onTrue check (by simp [Exit.Within, ht])).bind fun _ => ?_
    exact (Scoped.defineLabel (by simp)).bind fun _ => ihr onTrue onFalse (by simp [Exit.Within, ht, hf])

/-! ### Statements -/

namespace Lowering

theorem branchOn_scoped (t : TypeTable) (cond : Expr) {onTrue onFalse : LabelId} (ht : onTrue ∈ J)
    (hf : onFalse ∈ J) : Scoped J (branchOn t cond onTrue onFalse) :=
  ((lower_structured t cond).branch onTrue onFalse).scoped ⟨ht, hf⟩

theorem localVariable_scoped (symbol : SymbolId) (name : String) (ty : Ty) :
    Scoped J (localVariable symbol name ty) :=
  Scoped.openBlock.bind fun _ => (Scoped.recordType ty).bind fun _ =>
    (Scoped.emit (i := .comment _) (by simp [Instr.successors])).bind fun _ => (Scoped.alloca ty).bind fun slot =>
      (Scoped.note (f := fun e => { e with locals := (symbol, slot) :: e.locals }) fun _ => rfl).bind
        fun _ => .pure _

theorem declareGlobal_scoped (name : String) (ty : Ty) (init : Option Value) :
    Scoped J (declareGlobal name ty init) := by
  refine (Scoped.recordType ty).bind fun _ => ?_
  exact (Scoped.note
    (f := fun e => { e with module := e.module.addGlobal ⟨name, ty, false, init, .external⟩ })
    fun _ => rfl).bind fun _ => .pure _

theorem Straight.scoped {x : EmitM α} (h : Straight x) : Scoped J x := by
  induction h with
  | code h => exact h.scoped trivial
  | bind _ _ ihx ihf => exact ihx.bind ihf
  | slot symbol name ty => exact localVariable_scoped symbol name ty
  | global name ty init => exact declareGlobal_scoped name ty init
  | ret v => exact Scoped.openBlock.bind fun _ => .emit (by simp [Instr.successors])

theorem jumpIfOpen_scoped {l : LabelId} (hl : l ∈ J) : Scoped J (jumpIfOpen l) := by
  refine .get_bind fun s => ?_
  split
  · exact .jump hl
  · exact .pure _

mutual

theorem statement_scoped (t : TypeTable) : ∀ (st : Stmt) (J : List LabelId), Scoped J (statement t st)
  | .expr e, _ => ((lower_structured t e).value.scoped trivial).bind fun _ => .pure _
  | .ret value, _ => (returnStatement_straight t value).scoped
  | .decl d, _ => (declaration_straight t d).scoped
  | .ifThen cond body, _ =>
    .createLabel_bind fun _ => .createLabel_bind fun _ =>
      (branchOn_scoped t cond (by simp) (by simp)).bind fun _ => (Scoped.defineLabel (by simp)).bind fun _ =>
      (statements_scoped t body _).bind fun _ => .defineLabel (by simp)
  | .ifElse cond thenBody elseBody, _ =>
    .createLabel_bind fun _ => .createLabel_bind fun _ => .createLabel_bind fun _ =>
      (branchOn_scoped t cond (by simp) (by simp)).bind fun _ => (Scoped.defineLabel (by simp)).bind fun _ =>
      (statements_scoped t thenBody _).bind fun _ => (jumpIfOpen_scoped (by simp)).bind fun _ =>
      (Scoped.defineLabel (by simp)).bind fun _ => (statements_scoped t elseBody _).bind fun _ =>
      .defineLabel (by simp)
  | .loop cond body, _ =>
    .createLabel_bind fun _ => .createLabel_bind fun _ => .createLabel_bind fun _ =>
      (Scoped.defineLabel (by simp)).bind fun _ => (branchOn_scoped t cond (by simp) (by simp)).bind fun _ =>
      (Scoped.defineLabel (by simp)).bind fun _ => (statements_scoped t body _).bind fun _ =>
      (jumpIfOpen_scoped (by simp)).bind fun _ => .defineLabel (by simp)
  | .block body, J => statements_scoped t body J

theorem statements_scoped (t : TypeTable) : ∀ (body : List Stmt) (J : List LabelId), Scoped J (statements t body)
  | [], _ => .pure _
  | st :: rest, J => (statement_scoped t st J).bind fun _ => statements_scoped t rest J

end

theorem spill_scoped (params : List Parameter) (index : Nat) : Scoped J (spill index params) := by
  induction params generalizing index with
  | nil => exact .pure _
  | cons p params ih =>
    exact (localVariable_scoped _ _ _).bind fun _ =>
      (Scoped.emit (i := .store _ _ _) (by simp [Instr.successors])).bind fun _ => ih _

end Lowering

end TypedCore
