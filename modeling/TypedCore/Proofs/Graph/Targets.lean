import TypedCore.Proofs.Emitter.Function

/-!
# Every jump gets its block

While code is generated, control may be sent to labels whose blocks come later. `s.Owes S`: in the
function under construction every such label is in the list `S`. Code that is started while `S` is
owed and ends while `S'` is owed satisfies `Settles S x S'`; this composes like a Hoare triple. A jump
adds its target to what is owed and `defineLabel` takes its label off again, so in the end a statement
owes nothing of its own.
-/

namespace TypedCore

open Ir Lowering Emit

namespace Emitter

/-- Control goes from the blocks of `s` only to blocks of `s` and to labels in `S`. -/
structure Owes (s : Emitter) (S : List LabelId) : Prop extends s.Drafting where
  owed : ∀ l ∈ s.targets, l ∈ s.defined ∨ l ∈ S

namespace Owes

variable {s s' : Emitter} {S S' : List LabelId}

theorem mono (h : s.Owes S) (hS : S ⊆ S') : s.Owes S' :=
  ⟨h.toDrafting, fun l hl => (h.owed l hl).imp_right fun h => hS h⟩

theorem congr (h : s.Owes S) (hb : s'.builder = s.builder) (hc : s'.current = s.current) :
    s'.Owes S := by
  have hblocks : s'.blocks = s.blocks := by simp only [blocks, hb]
  refine ⟨h.toDrafting.congr hb hc, ?_⟩
  simp only [targets, defined, hblocks]
  exact h.owed

theorem takeLabel (h : s.Owes S) : s.takeLabel.Owes S := ⟨h.toDrafting.step (.label s), h.owed⟩

theorem takeTemp (h : s.Owes S) : s.takeTemp.Owes S := ⟨h.toDrafting.step (.temp s), h.owed⟩

theorem push (h : s.Owes S) (hopen : s.Open) (i : Instr) : (s.push i).Owes (i.successors ++ S) := by
  refine ⟨h.toDrafting.push hopen i, fun l hl => ?_⟩
  rw [defined_push]
  rcases mem_targets_push hl with hl | hl
  · exact (h.owed l hl).imp_right (List.mem_append_right _)
  · exact .inr (List.mem_append_left _ hl)

/-- A label is no longer owed once its block is started. -/
theorem startBlock {l : LabelId} (h : s.Owes (l :: S)) (hclosed : s.acceptsInstr = false)
    (hl : l ∉ s.defined) : (s.startBlock l).Owes S := by
  have hs := blocks_startBlock (l := l) h.function_isSome
  have hd : (s.startBlock l).defined = s.defined ++ [l] := by simp [defined, hs]
  refine ⟨h.toDrafting.startBlock hclosed hl, fun l' hl' => ?_⟩
  rw [hd]
  rcases h.owed l' (by simpa [targets, hs] using hl') with h | h
  · exact .inl (List.mem_append_left _ h)
  · rcases List.mem_cons.1 h with rfl | h
    · exact .inl (by simp)
    · exact .inr h

/-- A label that has its block is not owed. -/
theorem of_defined {l : LabelId} (h : s.Owes (l :: S)) (hl : l ∈ s.defined) : s.Owes S := by
  refine ⟨h.toDrafting, fun l' hl' => ?_⟩
  rcases h.owed l' hl' with h | h
  · exact .inl h
  · rcases List.mem_cons.1 h with rfl | h
    · exact .inl hl
    · exact .inr h

end Owes

end Emitter

open Emitter

variable {α β : Type}

/-- Started while at most `S` is owed, `x` ends while at most `S'` is owed. -/
def Settles (S : List LabelId) (x : EmitM α) (S' : List LabelId) : Prop :=
  ∀ ⦃s a s'⦄, s.Owes S → Ends x s (.ok a) s' → s'.Owes S'

namespace Settles

variable {S S₁ S' : List LabelId}

theorem pure (a : α) : Settles S (pure a) S := by
  intro s _ s' hs h
  obtain ⟨-, rfl⟩ := Ends.pure_iff.1 h
  exact hs

theorem throw (f : Fault) : Settles S (throw f : EmitM α) S' := by
  intro s _ s' _ h
  obtain ⟨h, -⟩ := Ends.throw_iff.1 h
  cases h

theorem lift (y : Except Fault α) : Settles S (liftM y : EmitM α) S := by
  intro s _ s' hs h
  obtain ⟨-, rfl⟩ := Ends.lift_iff.1 h
  exact hs

theorem bind {x : EmitM α} {f : α → EmitM β} (hx : Settles S x S₁)
    (hf : ∀ a, Settles S₁ (f a) S') : Settles S (x >>= f) S' := by
  intro s b s' hs h
  obtain ⟨a, s₁, h₁, h₂⟩ := Ends.bind_ok_iff.1 h
  exact hf a (hx hs h₁) h₂

theorem get_bind {f : Emitter → EmitM β} (hf : ∀ s, Settles S (f s) S') :
    Settles S (get >>= f) S' :=
  fun s _ _ hs h => hf s hs (Ends.get_bind_iff.1 h)

theorem owing {T : List LabelId} {x : EmitM α} (h : Settles T x S') (hS : S ⊆ T) : Settles S x S' :=
  fun _ _ _ hs hx => h (hs.mono hS) hx

theorem weaken {T : List LabelId} {x : EmitM α} (h : Settles S x T) (S' : List LabelId) (hT : T ⊆ S') :
    Settles S x S' :=
  fun _ _ _ hs hx => (h hs hx).mono hT

theorem createLabel : Settles S createLabel S := by
  intro s _ s' hs h
  obtain ⟨-, rfl⟩ := createLabel_iff.1 h
  exact hs.takeLabel

theorem openBlock : Settles S openBlock S := by
  intro s _ s' hs h
  obtain ⟨-, -, -, rfl⟩ | ⟨-, -, ha, -, hl, rfl⟩ | ⟨e, h, -⟩ := openBlock_ends h
  · exact hs
  · exact (hs.takeLabel.mono (List.subset_cons_self _ _)).startBlock ha hl
  · cases h

theorem emit (i : Instr) : Settles S (build (.emit i)) (i.successors ++ S) := by
  intro s _ s' hs h
  obtain ⟨-, ho, rfl⟩ | ⟨e, h, -⟩ := build_emit h
  · exact hs.push ho i
  · cases h

theorem emitTemp {i : TempId → Instr} (hi : ∀ r, (i r).successors = []) :
    Settles S (build (.emitTemp i)) S := by
  intro s _ s' hs h
  obtain ⟨-, ho, rfl⟩ | ⟨e, h, -⟩ := build_emitTemp h
  · simpa [hi] using hs.takeTemp.push ho (i s.temps)
  · cases h

theorem jump (target : LabelId) : Settles S (Emit.jump target) (target :: S) :=
  openBlock.bind fun _ => emit (.branch target)

theorem condJump (v : Value) (onTrue onFalse : LabelId) :
    Settles S (Emit.condJump v onTrue onFalse) (onTrue :: onFalse :: S) :=
  openBlock.bind fun _ => emit (.branchIf v onTrue onFalse)

theorem defineLabel (l : LabelId) : Settles (l :: S) (defineLabel l) S := by
  intro s _ s' hs h
  obtain ⟨-, ho, -, hl, rfl⟩ | ⟨-, ha, -, hl, rfl⟩ | ⟨e, h, -⟩ := defineLabel_ends h
  · exact ((hs.push ho _).mono (by simp [Instr.successors])).startBlock (ho.push_terminator rfl) hl
  · exact hs.startBlock ha hl
  · cases h

theorem merge (incoming : List (Value × LabelId)) (ty : Ty) : Settles S (Emit.merge incoming ty) S :=
  openBlock.bind fun _ => (emitTemp fun _ => rfl).bind fun _ => pure _

theorem note {f : Emitter → Emitter} (hb : ∀ s, (f s).builder = s.builder)
    (hc : ∀ s, (f s).current = s.current) : Settles S (modify f) S := by
  intro s _ s' hs h
  obtain ⟨-, rfl⟩ := Ends.modify_iff.1 h
  exact hs.congr (hb s) (hc s)

theorem recordType (ty : Ty) : Settles S (Emit.recordType ty) S :=
  note (fun _ => rfl) fun _ => rfl

theorem alloca (ty : Ty) : Settles S (build (.alloca ty)) S := by
  rw [build_alloca_eq]
  exact (emitTemp fun _ => rfl).bind fun _ => pure _

theorem currentLabel : Settles S currentLabel S := by
  refine get_bind fun s => ?_
  split
  · exact pure _
  · exact throw _

end Settles

/-! ### Expressions -/

/-- What is owed after code that leaves in the given way. -/
def Exit.owed (S : List LabelId) : Exit → List LabelId
  | .falls => S
  | .goes onTrue onFalse => onTrue :: onFalse :: S

theorem Ir.Instr.successors_of_isPlain {i : Instr} (h : i.isPlain = true) : i.successors = [] := by
  cases i <;> simp_all [Instr.isPlain, Instr.isTerminator, Instr.successors]

/-- Structured code owes the two labels of its exit, and nothing else. -/
theorem Emits.settles {k : Exit} {x : EmitM α} (h : Emits k x) :
    ∀ S, Settles S x (k.owed S) := by
  induction h with
  | pure a => exact fun S => .pure a
  | throw k f => exact fun S => .throw f
  | lift y => exact fun S => .lift y
  | bind _ _ ihx ihf => exact fun S => (ihx S).bind fun a => ihf a S
  | instr i hi =>
    refine fun S => Settles.openBlock.bind fun _ => ?_
    simpa [Instr.successors_of_isPlain hi, Exit.owed] using Settles.emit (S := S) i
  | temp i hi =>
    exact fun S => Settles.openBlock.bind fun _ => .emitTemp fun r => Instr.successors_of_isPlain (hi r)
  | slot ty =>
    exact fun S => Settles.openBlock.bind fun _ =>
      (Settles.recordType ty).bind fun _ => .alloca ty
  | symbol id name storage =>
    intro S s v s' hs h
    obtain ⟨rfl, -⟩ := symbolAddress_ends h
    exact hs
  | text text =>
    intro S s v s' hs h
    obtain ⟨g, n, rfl, -, -⟩ := stringLiteral_ends h
    exact hs.congr rfl rfl
  | materialize _ ih =>
    intro S
    refine Settles.createLabel.bind fun onTrue => Settles.createLabel.bind fun onFalse =>
      Settles.createLabel.bind fun done => ?_
    refine ((ih onTrue onFalse (done :: S)).owing (List.subset_cons_self _ _)).bind fun _ => ?_
    refine (Settles.defineLabel onTrue).bind fun _ => ?_
    refine ((Settles.jump done).weaken (onFalse :: done :: S) (by simp)).bind fun _ => ?_
    refine (Settles.defineLabel onFalse).bind fun _ => ?_
    refine ((Settles.jump done).weaken (done :: S) (by simp)).bind fun _ => ?_
    exact (Settles.defineLabel done).bind fun _ => .merge _ _
  | choice _ _ _ ihc iha ihb =>
    intro S
    refine Settles.createLabel.bind fun onTrue => Settles.createLabel.bind fun onFalse =>
      Settles.createLabel.bind fun done => ?_
    refine ((ihc onTrue onFalse (done :: S)).owing (List.subset_cons_self _ _)).bind fun _ => ?_
    refine (Settles.defineLabel onTrue).bind fun _ => (iha _).bind fun _ =>
      Settles.currentLabel.bind fun _ => ?_
    refine ((Settles.jump done).weaken (onFalse :: done :: S) (by simp [Exit.owed])).bind
      fun _ => ?_
    refine (Settles.defineLabel onFalse).bind fun _ => (ihb _).bind fun _ =>
      Settles.currentLabel.bind fun _ => ?_
    refine ((Settles.jump done).weaken (done :: S) (by simp [Exit.owed])).bind fun _ =>
      (Settles.defineLabel done).bind fun _ => ?_
    split
    · exact .pure _
    · exact (Settles.lift _).bind fun _ => .merge _ _
  | @jump target onTrue onFalse h =>
    refine fun S => (Settles.jump target).weaken _ ?_
    rcases h with rfl | rfl <;> simp [Exit.owed]
  | condJump v onTrue onFalse => exact fun S => .condJump v onTrue onFalse
  | @swap _ onTrue onFalse _ _ ih =>
    refine fun S => (ih S).weaken _ ?_
    simp [Exit.owed]
  | both onTrue onFalse _ _ ihl ihr =>
    intro S
    refine Settles.createLabel.bind fun check => (ihl check onFalse S).bind fun _ => ?_
    refine (Settles.defineLabel check).bind fun _ => (ihr onTrue onFalse _).weaken _ ?_
    simp [Exit.owed]
  | either onTrue onFalse _ _ ihl ihr =>
    intro S
    refine Settles.createLabel.bind fun check => ?_
    refine ((ihl onTrue check S).weaken (check :: onTrue :: S) (by simp [Exit.owed])).bind
      fun _ => ?_
    refine (Settles.defineLabel check).bind fun _ => (ihr onTrue onFalse _).weaken _ ?_
    simp [Exit.owed]

/-! ### Statements -/

namespace Lowering

variable {S : List LabelId}

theorem branchOn_settles (t : TypeTable) (cond : Expr) (onTrue onFalse : LabelId) :
    Settles S (branchOn t cond onTrue onFalse) (onTrue :: onFalse :: S) :=
  ((lower_structured t cond).branch onTrue onFalse).settles S

theorem localVariable_settles (symbol : SymbolId) (name : String) (ty : Ty) :
    Settles S (localVariable symbol name ty) S :=
  Settles.openBlock.bind fun _ => (Settles.recordType ty).bind fun _ =>
    (Settles.emit (.comment _)).bind fun _ => (Settles.alloca ty).bind fun slot =>
      (Settles.note (f := fun e => { e with locals := (symbol, slot) :: e.locals })
        (fun _ => rfl) fun _ => rfl).bind fun _ => .pure _

theorem declareGlobal_settles (name : String) (ty : Ty) (init : Option Value) :
    Settles S (declareGlobal name ty init) S := by
  refine (Settles.recordType ty).bind fun _ => ?_
  exact (Settles.note
    (f := fun e => { e with module := e.module.addGlobal ⟨name, ty, false, init, .external⟩ })
    (fun _ => rfl) fun _ => rfl).bind fun _ => .pure _

theorem Straight.settles {x : EmitM α} (h : Straight x) : Settles S x S := by
  induction h with
  | code h => exact h.settles S
  | bind _ _ ihx ihf => exact ihx.bind ihf
  | slot symbol name ty => exact localVariable_settles symbol name ty
  | global name ty init => exact declareGlobal_settles name ty init
  | ret v => exact Settles.openBlock.bind fun _ => .emit (.ret v)

theorem jumpIfOpen_settles (l : LabelId) : Settles S (jumpIfOpen l) (l :: S) := by
  refine .get_bind fun s => ?_
  split
  · exact .jump l
  · exact (Settles.pure _).weaken _ (List.subset_cons_self _ _)

theorem defineLabel_defined {l : LabelId} {s s' : Emitter}
    (h : Ends (defineLabel l) s (.ok ()) s') : l ∈ s'.defined := by
  obtain ⟨-, -, hf, -, rfl⟩ | ⟨-, -, hf, -, rfl⟩ | ⟨e, h, -⟩ := defineLabel_ends h
  · simp [defined, blocks_startBlock (s := s.push (.branch l)) (by simpa [Emitter.push] using hf)]
  · simp [defined, blocks_startBlock hf]
  · cases h

theorem ifStatement_settles (t : TypeTable) (cond : Expr) {body : EmitM Unit}
    (hbody : ∀ S, Settles S body S) : Settles S (ifStatement t cond body) S := by
  refine Settles.createLabel.bind fun onTrue => Settles.createLabel.bind fun done => ?_
  refine (branchOn_settles t cond onTrue done).bind fun _ => ?_
  exact (Settles.defineLabel onTrue).bind fun _ => (hbody _).bind fun _ => .defineLabel done

theorem ifElseStatement_settles (t : TypeTable) (cond : Expr) {thenBody elseBody : EmitM Unit}
    (hthen : ∀ S, Settles S thenBody S) (helse : ∀ S, Settles S elseBody S) :
    Settles S (ifElseStatement t cond thenBody elseBody) S := by
  refine Settles.createLabel.bind fun onTrue => Settles.createLabel.bind fun onFalse =>
    Settles.createLabel.bind fun done => ?_
  refine (branchOn_settles t cond onTrue onFalse).bind fun _ => ?_
  refine (Settles.defineLabel onTrue).bind fun _ => (hthen _).bind fun _ => ?_
  refine ((jumpIfOpen_settles done).weaken (onFalse :: done :: S) (by simp)).bind fun _ => ?_
  exact (Settles.defineLabel onFalse).bind fun _ => (helse _).bind fun _ => .defineLabel done

/-- The jump back at the end of a loop goes to a block that exists. -/
theorem whileStatement_settles (t : TypeTable) (cond : Expr) {body : EmitM Unit}
    (hgrows : Grows body) (hbody : ∀ S, Settles S body S) :
    Settles S (whileStatement t cond body) S := by
  refine Settles.createLabel.bind fun check => Settles.createLabel.bind fun again =>
    Settles.createLabel.bind fun done => ?_
  intro s _ s' hs h
  obtain ⟨_, s₁, hcheck, h⟩ := Ends.bind_ok_iff.1 h
  have hs₁ : s₁.Owes S :=
    ((Settles.defineLabel check).owing (List.subset_cons_self _ _)) hs hcheck
  have hrest : Grows (do branchOn t cond again done; defineLabel again; body; jumpIfOpen check) :=
    .bind ((lower_structured t cond).branch again done).grows fun _ =>
      .bind (.defineLabel again) fun _ => .bind hgrows fun _ => jumpIfOpen_grows check
  have hsettles : Settles S
      (do branchOn t cond again done; defineLabel again; body; jumpIfOpen check)
      (check :: done :: S) :=
    (branchOn_settles t cond again done).bind fun _ => (Settles.defineLabel again).bind fun _ =>
      (hbody _).bind fun _ => jumpIfOpen_settles check
  have hassoc : (do branchOn t cond again done; defineLabel again; body; jumpIfOpen check
                    defineLabel done) =
      (do branchOn t cond again done; defineLabel again; body; jumpIfOpen check) >>=
        fun _ => defineLabel done := by simp only [bind_assoc]
  rw [hassoc] at h
  obtain ⟨_, s₂, h₂, h₃⟩ := Ends.bind_ok_iff.1 h
  have hdef : check ∈ s₂.defined :=
    hs₁.toDrafting.defined_subset (hrest h₂) (defineLabel_defined hcheck)
  exact Settles.defineLabel done ((hsettles hs₁ h₂).of_defined hdef) h₃

/-! ### All statements -/

mutual

/-- A statement leaves nothing owed that was not owed before it. -/
theorem statement_settles (t : TypeTable) : ∀ (st : Stmt) (S : List LabelId),
    Settles S (statement t st) S
  | .expr e, S => ((lower_structured t e).value.settles S).bind fun _ => .pure _
  | .ret value, _ => (returnStatement_straight t value).settles
  | .decl d, _ => (declaration_straight t d).settles
  | .ifThen cond body, _ => ifStatement_settles t cond (statements_settles t body)
  | .ifElse cond thenBody elseBody, _ =>
    ifElseStatement_settles t cond (statements_settles t thenBody) (statements_settles t elseBody)
  | .loop cond body, _ =>
    whileStatement_settles t cond (statements_grows t body) (statements_settles t body)
  | .block body, S => statements_settles t body S

theorem statements_settles (t : TypeTable) : ∀ (body : List Stmt) (S : List LabelId),
    Settles S (statements t body) S
  | [], _ => .pure _
  | st :: rest, S => (statement_settles t st S).bind fun _ => statements_settles t rest S

end

end Lowering

end TypedCore
