import TypedCore.Proofs.Emitter.Function

/-!
# The slots of variables

Three things happen to the variables of functions: a function is entered, one of its variables gets a slot, and the
function is left. A run is observed through these `Event`s, the newest first, and `Logs x s events r s'` says which
of them happen when `x` is run in `s`. All other code is `Quiet`. What an emitter knows of the variables at any time
is then what the events say, and the slots of one function are different temporaries (`Logs.mirrors`).
-/

namespace TypedCore

open Ir Lowering

namespace Emitter

variable {s s₁ s' : Emitter}

/-- The same function is under construction, its variables have the same slots, and no temporary is given back. -/
structure Still (s s' : Emitter) : Prop where
  current : s'.current = s.current
  locals : s'.locals = s.locals
  temps_le : s.temps ≤ s'.temps

theorem Still.refl (s : Emitter) : Still s s := ⟨rfl, rfl, Nat.le_refl _⟩

theorem Still.trans (h : Still s s₁) (h' : Still s₁ s') : Still s s' :=
  ⟨h'.current.trans h.current, h'.locals.trans h.locals, Nat.le_trans h.temps_le h'.temps_le⟩

theorem still_takeLabel (s : Emitter) : Still s s.takeLabel := ⟨rfl, rfl, Nat.le_refl _⟩

theorem still_takeTemp (s : Emitter) : Still s s.takeTemp := ⟨rfl, rfl, Nat.le_succ _⟩

theorem still_startBlock (s : Emitter) (l : LabelId) : Still s (s.startBlock l) := ⟨rfl, rfl, Nat.le_refl _⟩

theorem still_push (s : Emitter) (i : Instr) : Still s (s.push i) := ⟨rfl, rfl, Nat.le_refl _⟩

end Emitter

/-! ### Quiet code -/

namespace Emit

open Emitter

variable {α β : Type} {s s' : Emitter}

/-- Whatever becomes of `x`, no function is entered or left, and no variable gets a slot. -/
def Quiet (x : EmitM α) : Prop := ∀ ⦃s r s'⦄, Ends x s r s' → Still s s'

namespace Quiet

theorem pure (a : α) : Quiet (pure a) := by
  intro s r s' h
  obtain ⟨-, rfl⟩ := Ends.pure_iff.1 h
  exact .refl _

theorem throw (f : Fault) : Quiet (throw f : EmitM α) := by
  intro s r s' h
  obtain ⟨-, rfl⟩ := Ends.throw_iff.1 h
  exact .refl _

theorem lift (y : Except Fault α) : Quiet (liftM y : EmitM α) := by
  intro s r s' h
  obtain ⟨-, rfl⟩ := Ends.lift_iff.1 h
  exact .refl _

theorem bind {x : EmitM α} {f : α → EmitM β} (hx : Quiet x) (hf : ∀ a, Quiet (f a)) : Quiet (x >>= f) := by
  intro s r s' h
  obtain ⟨a, s₁, h₁, h₂⟩ | ⟨e, rfl, h₁⟩ := Ends.bind_iff.1 h
  · exact (hx h₁).trans (hf a h₂)
  · exact hx h₁

theorem get_bind {f : Emitter → EmitM β} (hf : ∀ s, Quiet (f s)) : Quiet (get >>= f) :=
  fun s _ _ h => hf s (Ends.get_bind_iff.1 h)

theorem note {f : Emitter → Emitter} (hf : ∀ s, Still s (f s)) : Quiet (modify f) := by
  intro s r s' h
  obtain ⟨-, rfl⟩ := Ends.modify_iff.1 h
  exact hf s

theorem createLabel : Quiet Emit.createLabel := by
  intro s r s' h
  obtain ⟨-, rfl⟩ := createLabel_iff.1 h
  exact still_takeLabel s

theorem requireFunction : Quiet Emit.requireFunction := by
  refine get_bind fun s => ?_
  split
  · exact pure _
  · exact throw _

theorem openBlock : Quiet Emit.openBlock := by
  intro s r s' h
  obtain ⟨-, -, -, rfl⟩ | ⟨-, -, -, -, -, rfl⟩ | ⟨e, -, rfl | rfl⟩ := openBlock_ends h
  · exact .refl _
  · exact (still_takeLabel s).trans (still_startBlock _ _)
  · exact .refl _
  · exact still_takeLabel s

theorem defineLabel (l : LabelId) : Quiet (Emit.defineLabel l) := by
  intro s r s' h
  obtain ⟨-, -, -, -, rfl⟩ | ⟨-, -, -, -, rfl⟩ | ⟨e, -, rfl | ⟨-, rfl⟩⟩ := defineLabel_ends h
  · exact (still_push s _).trans (still_startBlock _ l)
  · exact still_startBlock s l
  · exact .refl _
  · exact still_push s _

theorem emit (i : Instr) : Quiet (build (.emit i)) := by
  intro s r s' h
  obtain ⟨-, -, rfl⟩ | ⟨e, -, rfl⟩ := build_emit h
  · exact still_push s i
  · exact .refl _

theorem emitTemp (i : TempId → Instr) : Quiet (build (.emitTemp i)) := by
  intro s r s' h
  obtain ⟨-, -, rfl⟩ | ⟨e, -, rfl⟩ := build_emitTemp h
  · exact (still_takeTemp s).trans (still_push _ _)
  · exact still_takeTemp s

theorem jump (target : LabelId) : Quiet (Emit.jump target) := bind openBlock fun _ => emit _

theorem condJump (v : Value) (onTrue onFalse : LabelId) : Quiet (Emit.condJump v onTrue onFalse) :=
  bind openBlock fun _ => emit _

theorem ret (v : Option Value) : Quiet (Emit.ret v) := bind openBlock fun _ => emit _

theorem merge (incoming : List (Value × LabelId)) (ty : Ty) : Quiet (Emit.merge incoming ty) :=
  bind openBlock fun _ => bind (emitTemp _) fun _ => pure _

theorem recordType (ty : Ty) : Quiet (Emit.recordType ty) := note fun _ => ⟨rfl, rfl, Nat.le_refl _⟩

theorem alloca (ty : Ty) : Quiet (build (.alloca ty)) := by
  rw [build_alloca_eq]
  exact bind (emitTemp _) fun _ => pure _

theorem temporary (ty : Ty) : Quiet (Emit.temporary ty) :=
  bind openBlock fun _ => bind (recordType ty) fun _ => alloca ty

theorem symbolAddress (id : SymbolId) (name : String) (storage : Storage) :
    Quiet (Emit.symbolAddress id name storage) := by
  intro s r s' h
  obtain ⟨rfl, -⟩ := symbolAddress_ends h
  exact ⟨rfl, rfl, Nat.le_refl _⟩

theorem stringLiteral (text : String) : Quiet (Emit.stringLiteral text) := by
  intro s r s' h
  obtain ⟨g, n, rfl, -, -⟩ := stringLiteral_ends h
  exact ⟨rfl, rfl, Nat.le_refl _⟩

theorem declareGlobal (name : String) (ty : Ty) (init : Option Value) : Quiet (Emit.declareGlobal name ty init) :=
  bind (recordType ty) fun _ => bind (note fun _ => ⟨rfl, rfl, Nat.le_refl _⟩) fun _ => pure _

theorem currentLabel : Quiet currentLabel := by
  refine get_bind fun s => ?_
  split
  · exact pure _
  · exact throw _

theorem jumpIfOpen (l : LabelId) : Quiet (jumpIfOpen l) := by
  refine get_bind fun s => ?_
  split
  · exact jump l
  · exact pure _

end Quiet

end Emit

open Emit (Quiet) in
/-- The code of an expression is quiet. -/
theorem Emits.quiet {α : Type} {k : Exit} {x : EmitM α} (h : Emits k x) : Quiet x := by
  induction h with
  | pure a => exact .pure a
  | throw k f => exact .throw f
  | lift y => exact .lift y
  | bind _ _ ihx ihf => exact .bind ihx ihf
  | instr i _ => exact .bind .openBlock fun _ => .emit i
  | temp i _ => exact .bind .openBlock fun _ => .emitTemp i
  | slot ty => exact .temporary ty
  | symbol id name storage => exact .symbolAddress id name storage
  | text text => exact .stringLiteral text
  | materialize _ ih =>
    exact .bind .createLabel fun _ => .bind .createLabel fun _ => .bind .createLabel fun _ =>
      .bind (ih _ _) fun _ => .bind (.defineLabel _) fun _ => .bind (.jump _) fun _ =>
      .bind (.defineLabel _) fun _ => .bind (.jump _) fun _ => .bind (.defineLabel _) fun _ => .merge _ _
  | choice _ _ _ ihc iha ihb =>
    refine .bind .createLabel fun _ => .bind .createLabel fun _ => .bind .createLabel fun _ =>
      .bind (ihc _ _) fun _ => .bind (.defineLabel _) fun _ => .bind iha fun _ => .bind .currentLabel fun _ =>
      .bind (.jump _) fun _ => .bind (.defineLabel _) fun _ => .bind ihb fun _ => .bind .currentLabel fun _ =>
      .bind (.jump _) fun _ => .bind (.defineLabel _) fun _ => ?_
    split
    · exact .pure _
    · exact .bind (.lift _) fun _ => .merge _ _
  | jump _ => exact .jump _
  | condJump v onTrue onFalse => exact .condJump v onTrue onFalse
  | swap _ ih => exact ih
  | both onTrue onFalse _ _ ihl ihr =>
    exact .bind .createLabel fun _ => .bind (ihl _ _) fun _ => .bind (.defineLabel _) fun _ => ihr _ _
  | either onTrue onFalse _ _ ihl ihr =>
    exact .bind .createLabel fun _ => .bind (ihl _ _) fun _ => .bind (.defineLabel _) fun _ => ihr _ _

/-! ### Code that is not quiet -/

namespace Emit

open Emitter

variable {s s' : Emitter}

/-- A variable gets a temporary that no one else has. -/
theorem localVariable_cases {symbol : SymbolId} {name : String} {ty : Ty} {r : Except Fault Value}
    (h : Ends (localVariable symbol name ty) s r s') :
    (∃ n, r = .ok (.temp n) ∧ s.temps ≤ n ∧ n < s'.temps ∧ s'.locals = (symbol, .temp n) :: s.locals) ∨
      ∃ f, r = .error f ∧ Still s s' := by
  unfold localVariable at h
  simp only [build_alloca_eq, bind_assoc, pure_bind] at h
  rw [← bind_assoc, ← bind_assoc] at h
  -- all is quiet up to the comment
  have hquiet (i : Instr) : Quiet ((openBlock >>= fun _ => recordType ty) >>= fun _ => build (.emit i)) :=
    .bind (.bind .openBlock fun _ => .recordType ty) fun _ => .emit i
  obtain ⟨_, s₁, h₁, h⟩ | ⟨f, rfl, h₁⟩ := Ends.bind_iff.1 h
  swap
  · exact .inr ⟨f, rfl, hquiet _ h₁⟩
  have hs₁ := hquiet _ h₁
  obtain ⟨n, s₂, h₂, h⟩ | ⟨f, rfl, h₂⟩ := Ends.bind_iff.1 h
  swap
  · exact .inr ⟨f, rfl, hs₁.trans (Quiet.emitTemp _ h₂)⟩
  rw [Ends.modify_bind_iff] at h
  obtain ⟨rfl, rfl⟩ := Ends.pure_iff.1 h
  obtain ⟨hn, -, rfl⟩ | ⟨f, hf, -⟩ := build_emitTemp h₂
  · cases hn
    refine .inl ⟨s₁.temps, rfl, hs₁.temps_le, Nat.lt_succ_self _, ?_⟩
    exact congrArg _ hs₁.locals
  · cases hf

/-- The function is left in the course of `x`, or `x` fails and leaves the variables alone. -/
def Quits (x : EmitM Unit) : Prop :=
  ∀ ⦃s r s'⦄, Ends x s r s' → s'.current = none ∧ s'.locals = [] ∨ (∃ f, r = .error f) ∧ Still s s'

namespace Quits

theorem throw (f : Fault) : Quits (throw f) := by
  intro s r s' h
  obtain ⟨rfl, rfl⟩ := Ends.throw_iff.1 h
  exact .inr ⟨⟨f, rfl⟩, .refl _⟩

theorem bind {α : Type} {x : EmitM α} {f : α → EmitM Unit} (hx : Quiet x) (hf : ∀ a, Quits (f a)) :
    Quits (x >>= f) := by
  intro s r s' h
  obtain ⟨a, s₁, h₁, h₂⟩ | ⟨e, rfl, h₁⟩ := Ends.bind_iff.1 h
  · exact (hf a h₂).imp_right fun ⟨he, hstill⟩ => ⟨he, (hx h₁).trans hstill⟩
  · exact .inr ⟨⟨e, rfl⟩, hx h₁⟩

theorem get_bind {f : Emitter → EmitM Unit} (hf : ∀ s, Quits (f s)) : Quits (get >>= f) :=
  fun s _ _ h => hf s (Ends.get_bind_iff.1 h)

theorem leave (f : Emitter → Emitter) : Quits (modify fun e => leaveFunction (f e)) := by
  intro s r s' h
  obtain ⟨-, rfl⟩ := Ends.modify_iff.1 h
  exact .inl ⟨rfl, rfl⟩

end Quits

theorem discardIfUnreachable_quiet : Quiet discardIfUnreachable := by
  intro s r s' h
  obtain ⟨-, rfl⟩ := Ends.modifyGet_iff.1 h
  refine ⟨rfl, rfl, Nat.le_of_eq ?_⟩
  show s.builder.temps.next = s.builder.discardIfUnreachable.2.temps.next
  unfold Builder.discardIfUnreachable
  split
  · simp only
    split <;> rfl
  · rfl

theorem endFunction_quits : Quits endFunction := by
  unfold endFunction
  refine .bind .requireFunction fun head => .get_bind fun s => ?_
  extract_lets finish returned
  have hfinish (u : Unit) : Quits (finish u) := by
    refine .get_bind fun s => ?_
    split
    · exact .throw _
    · exact .leave _
  split
  · refine .bind discardIfUnreachable_quiet fun dropped => ?_
    split
    · split
      · -- a function without the return that it needs is given up before the failure
        intro s r s' h
        rw [Ends.modify_bind_iff, Ends.bind_iff] at h
        obtain ⟨_, _, h, -⟩ | ⟨_, -, h⟩ := h
        · cases (Ends.throw_iff.1 h).1
        · obtain ⟨-, rfl⟩ := Ends.throw_iff.1 h
          exact .inl ⟨rfl, rfl⟩
      · exact .bind (.emit _) hfinish
    · exact hfinish ()
  · exact hfinish ()

end Emit

/-! ### Events -/

/-- What happens to the variables of functions. -/
inductive SlotEvent where
  | entered
  | left
  | slot (symbol : SymbolId) (address : Value)

namespace SlotEvent

variable {log : List SlotEvent} {symbol : SymbolId} {address : Value}

def isSlot : SlotEvent → Bool
  | .slot .. => true
  | _ => false

def symbol? : SlotEvent → Option SymbolId
  | .slot symbol _ => some symbol
  | _ => none

/-- The variables that got slots. -/
def emitted (log : List SlotEvent) : List SymbolId := log.filterMap symbol?

/-- The slots of the function under construction. -/
def frame : List SlotEvent → List (SymbolId × Value)
  | [] => []
  | .entered :: _ => []
  | .left :: _ => []
  | .slot symbol address :: log => (symbol, address) :: frame log

/-- Slots are temporaries, different ones in one function. -/
inductive Distinct : List SlotEvent → Prop
  | nil : Distinct []
  | entered {log : List SlotEvent} (h : Distinct log) : Distinct (.entered :: log)
  | left {log : List SlotEvent} (h : Distinct log) : Distinct (.left :: log)
  | slot {log : List SlotEvent} {n : TempId} (symbol : SymbolId) (h : Distinct log)
      (hn : ∀ p ∈ frame log, p.2 ≠ .temp n) : Distinct (.slot symbol (.temp n) :: log)

theorem lookup_frame_of_not_emitted (h : symbol ∉ emitted log) : (frame log).lookup symbol = none := by
  induction log with
  | nil => rfl
  | cons event log ih =>
    cases event with
    | entered => rfl
    | left => rfl
    | slot other address =>
      have hne : symbol ≠ other := fun heq => h (by simp [emitted, symbol?, heq])
      have hlog : symbol ∉ emitted log := fun hmem => h (List.mem_cons_of_mem _ hmem)
      rw [frame, List.lookup_cons, beq_false_of_ne hne]
      exact ih hlog

/-- A variable that gets one slot has it until its function is left or another one is entered. -/
theorem lookup_frame {later earlier : List SlotEvent}
    (honce : (emitted (later ++ .slot symbol address :: earlier)).Nodup) :
    (frame (later ++ .slot symbol address :: earlier)).lookup symbol =
      if later.all isSlot then some address else none := by
  induction later with
  | nil => simp [frame]
  | cons event later ih =>
    cases event with
    | entered => rfl
    | left => rfl
    | slot other address' =>
      obtain ⟨hnew, hrest⟩ := List.nodup_cons.1 (show (other :: emitted _).Nodup from honce)
      have hne : symbol ≠ other := by
        rintro rfl
        exact hnew (by simp [emitted, symbol?])
      rw [List.cons_append, frame, List.lookup_cons, beq_false_of_ne hne]
      exact ih hrest

theorem mem_frame {between earlier : List SlotEvent} (h : between.all isSlot) :
    (symbol, address) ∈ frame (between ++ .slot symbol address :: earlier) := by
  induction between with
  | nil => simp [frame]
  | cons event between ih =>
    cases event with
    | entered => cases h
    | left => cases h
    | slot other address' => exact List.mem_cons_of_mem _ (ih (by simpa [isSlot] using h))

theorem Distinct.of_append {later : List SlotEvent} (h : Distinct (later ++ log)) : Distinct log := by
  induction later with
  | nil => exact h
  | cons event later ih =>
    cases h with
    | entered h => exact ih h
    | left h => exact ih h
    | slot symbol h hn => exact ih h

theorem Distinct.slot_ne {later between earlier : List SlotEvent} {i j : SymbolId} {v w : Value}
    (h : Distinct (later ++ .slot i v :: (between ++ .slot j w :: earlier))) (hbetween : between.all isSlot) :
    ∃ n k, v = .temp n ∧ w = .temp k ∧ n ≠ k := by
  cases h.of_append with
  | @slot _ n _ h hn =>
    have hw := hn _ (mem_frame hbetween)
    cases h.of_append with
    | @slot _ k _ h _ => exact ⟨n, k, rfl, rfl, fun heq => hw (heq ▸ rfl)⟩

end SlotEvent

/-! ### Runs and their events -/

open SlotEvent

namespace Emit

open Emitter

variable {α β : Type}

/-- When `x` is run in `s`, these events happen. -/
inductive Logs : {α : Type} → EmitM α → Emitter → List SlotEvent → Except Fault α → Emitter → Prop
  | quiet {α : Type} {x : EmitM α} {s s' : Emitter} {r : Except Fault α} (hx : Quiet x) (h : Ends x s r s') :
      Logs x s [] r s'
  | slot {symbol : SymbolId} {name : String} {ty : Ty} {s s' : Emitter} {address : Value}
      (h : Ends (localVariable symbol name ty) s (.ok address) s') :
      Logs (localVariable symbol name ty) s [.slot symbol address] (.ok address) s'
  | noSlot {symbol : SymbolId} {name : String} {ty : Ty} {s s' : Emitter} {f : Fault}
      (h : Ends (localVariable symbol name ty) s (.error f) s') :
      Logs (localVariable symbol name ty) s [] (.error f) s'
  /-- The slots of the parameters are those of the function. -/
  | entered {name : String} {ret : Ty} {params : List Parameter} {variadic : Bool} {s s' : Emitter}
      {events : List SlotEvent} {r : Except Fault Unit} (hs : s.current = none)
      (h : Logs (spill 0 params) (s.enter name ret params variadic) events r s') :
      Logs (beginFunction name ret params variadic) s (events ++ [.entered]) r s'
  | refused {name : String} {ret : Ty} {params : List Parameter} {variadic : Bool} {s s' : Emitter}
      {r : Except Fault Unit} (hs : s.current.isSome) (h : Ends (beginFunction name ret params variadic) s r s') :
      Logs (beginFunction name ret params variadic) s [] r s'
  | left {s s' : Emitter} {r : Except Fault Unit} (h : Ends endFunction s r s') (hs : s.current.isSome)
      (hs' : s'.current = none) : Logs endFunction s [.left] r s'
  | stayed {s s' : Emitter} {r : Except Fault Unit} (h : Ends endFunction s r s') (hs : s'.current = s.current) :
      Logs endFunction s [] r s'
  | bind {α β : Type} {x : EmitM α} {f : α → EmitM β} {s s₁ s' : Emitter} {a : α} {events events' : List SlotEvent}
      {r : Except Fault β} (h : Logs x s events (.ok a) s₁) (h' : Logs (f a) s₁ events' r s') :
      Logs (x >>= f) s (events' ++ events) r s'
  | failed {α β : Type} {x : EmitM α} {f : α → EmitM β} {s s' : Emitter} {events : List SlotEvent} {e : Fault}
      (h : Logs x s events (.error e) s') : Logs (x >>= f) s events (.error e) s'
  | caught {x : EmitM Unit} {s s' : Emitter} {events : List SlotEvent} {r : Except Fault Unit}
      (h : Logs x s events r s') : Logs (tryCatch x fun _ => pure ()) s events (.ok ()) s'

end Emit

namespace Emitter

variable {s s' : Emitter} {log : List SlotEvent}

/-- What the emitter knows of the variables is what has happened to them. -/
structure Mirrors (s : Emitter) (log : List SlotEvent) : Prop where
  locals : s.locals = frame log
  taken : ∀ p ∈ frame log, ∃ n, p.2 = .temp n ∧ n < s.temps
  distinct : Distinct log

theorem mirrors_new (name : String) : (Emitter.new name).Mirrors [] := ⟨rfl, nofun, .nil⟩

theorem Mirrors.still (h : s.Mirrors log) (hs : Still s s') : s'.Mirrors log := by
  refine ⟨hs.locals.trans h.locals, fun p hp => ?_, h.distinct⟩
  obtain ⟨n, hn, hlt⟩ := h.taken p hp
  exact ⟨n, hn, Nat.lt_of_lt_of_le hlt hs.temps_le⟩

theorem Mirrors.slot {symbol : SymbolId} {n : TempId} (h : s.Mirrors log) (hle : s.temps ≤ n) (hlt : n < s'.temps)
    (hlocals : s'.locals = (symbol, .temp n) :: s.locals) : s'.Mirrors (.slot symbol (.temp n) :: log) := by
  refine ⟨?_, fun p hp => ?_, .slot symbol h.distinct fun p hp heq => ?_⟩
  · rw [hlocals, h.locals, frame]
  · rcases List.mem_cons.1 hp with rfl | hp
    · exact ⟨n, rfl, hlt⟩
    · obtain ⟨k, hk, hklt⟩ := h.taken p hp
      exact ⟨k, hk, Nat.lt_trans (Nat.lt_of_lt_of_le hklt hle) hlt⟩
  · obtain ⟨k, hk, hklt⟩ := h.taken p hp
    cases hk.symm.trans heq
    exact absurd (Nat.lt_of_lt_of_le hklt hle) (Nat.lt_irrefl _)

end Emitter

namespace Emit

open Emitter

variable {α : Type} {x : EmitM α} {s s' : Emitter} {r : Except Fault α} {events log : List SlotEvent}

/-- What the emitter knows is what has happened, after every run. -/
theorem Logs.mirrors (h : Logs x s events r s') (hs : s.Mirrors log) : s'.Mirrors (events ++ log) := by
  induction h generalizing log with
  | quiet hx h => exact hs.still (hx h)
  | slot h =>
    obtain ⟨n, hn, hle, hlt, hlocals⟩ | ⟨f, hf, -⟩ := localVariable_cases h
    · cases hn
      exact hs.slot hle hlt hlocals
    · cases hf
  | noSlot h =>
    obtain ⟨n, hn, -⟩ | ⟨f, -, hstill⟩ := localVariable_cases h
    · cases hn
    · exact hs.still hstill
  | entered _ _ ih =>
    rw [List.append_assoc]
    exact ih ⟨rfl, nofun, .entered hs.distinct⟩
  | refused hc h =>
    obtain ⟨head, -, -, rfl⟩ | ⟨hnone, -⟩ := beginFunction_ends h
    · exact hs
    · simp [hnone] at hc
  | left h hc hc' =>
    obtain ⟨-, hlocals⟩ | ⟨-, hstill⟩ := endFunction_quits h
    · exact ⟨hlocals, nofun, .left hs.distinct⟩
    · rw [← hstill.current, hc'] at hc
      cases hc
  | stayed h hc =>
    -- the function can only be left if there is one
    obtain ⟨hc', -⟩ | ⟨-, hstill⟩ := endFunction_quits h
    · obtain ⟨head, hsome, -⟩ | ⟨-, -, rfl⟩ := requireFunction_bind_iff.1 h
      · rw [← hc, hc'] at hsome
        cases hsome
      · exact hs
    · exact hs.still hstill
  | bind _ _ ih ih' =>
    rw [List.append_assoc]
    exact ih' (ih hs)
  | failed _ ih => exact ih hs
  | caught _ ih => exact ih hs

/-- Quiet code shows nowhere. -/
theorem Logs.after_quiet {β : Type} {f : α → EmitM β} {s₁ : Emitter} {a : α} {r : Except Fault β} (hx : Quiet x)
    (h : Ends x s (.ok a) s₁) (h' : Logs (f a) s₁ events r s') : Logs (x >>= f) s events r s' := by
  have hbind := Logs.bind (.quiet hx h) h'
  rwa [List.append_nil] at hbind

theorem endFunction_logs (h : Ends endFunction s (.ok ()) s') : Logs endFunction s [.left] (.ok ()) s' := by
  obtain ⟨head, hc, -⟩ | ⟨-, hr, -⟩ := requireFunction_bind_iff.1 h
  · obtain ⟨hnone, -⟩ | ⟨⟨f, hf⟩, -⟩ := endFunction_quits h
    · exact .left h (by simp [hc]) hnone
    · cases hf
  · cases hr

/-- All parameters get their slots, the last one at last. -/
theorem spill_logs {params : List Parameter} {index : Nat} (h : Ends (spill index params) s (.ok ()) s') :
    ∃ slots, slots.all isSlot ∧ emitted slots = (params.map (·.symbol)).reverse ∧
      Logs (spill index params) s slots (.ok ()) s' := by
  induction params generalizing index s with
  | nil => exact ⟨[], rfl, rfl, .quiet (.pure ()) h⟩
  | cons p params ih =>
    obtain ⟨address, s₁, h₁, h⟩ := Ends.bind_ok_iff.1 h
    obtain ⟨_, s₂, h₂, h⟩ := Ends.bind_ok_iff.1 h
    obtain ⟨slots, hslots, hemitted, hlogs⟩ := ih h
    refine ⟨slots ++ [.slot p.symbol address], ?_, ?_, .bind (.slot h₁) (.after_quiet (.emit _) h₂ hlogs)⟩
    · simp [hslots, isSlot]
    · simpa [emitted, symbol?] using hemitted

/-! ### Code whose events are known -/

/-- Whatever becomes of `x`, its events are known. -/
def Logged (x : EmitM α) : Prop := ∀ ⦃s r s'⦄, Ends x s r s' → ∃ events, Logs x s events r s'

namespace Logged

theorem quiet (hx : Quiet x) : Logged x := fun _ _ _ h => ⟨[], .quiet hx h⟩

theorem bind {β : Type} {f : α → EmitM β} (hx : Logged x) (hf : ∀ a, Logged (f a)) : Logged (x >>= f) := by
  intro s r s' h
  obtain ⟨a, s₁, h₁, h₂⟩ | ⟨e, rfl, h₁⟩ := Ends.bind_iff.1 h
  · obtain ⟨events, hlogs⟩ := hx h₁
    obtain ⟨events', hlogs'⟩ := hf a h₂
    exact ⟨_, .bind hlogs hlogs'⟩
  · obtain ⟨events, hlogs⟩ := hx h₁
    exact ⟨_, .failed hlogs⟩

theorem localVariable (symbol : SymbolId) (name : String) (ty : Ty) : Logged (localVariable symbol name ty) := by
  intro s r s' h
  cases r with
  | ok address => exact ⟨_, .slot h⟩
  | error f => exact ⟨_, .noSlot h⟩

theorem spill (params : List Parameter) (index : Nat) : Logged (spill index params) := by
  induction params generalizing index with
  | nil => exact quiet (.pure _)
  | cons p params ih => exact bind (localVariable ..) fun _ => bind (quiet (.emit _)) fun _ => ih _

theorem beginFunction (name : String) (ret : Ty) (params : List Parameter) (variadic : Bool) :
    Logged (beginFunction name ret params variadic) := by
  intro s r s' h
  cases hs : s.current with
  | none =>
    obtain ⟨events, hlogs⟩ := spill params 0 ((beginFunction_iff hs).1 h)
    exact ⟨_, .entered hs hlogs⟩
  | some head => exact ⟨_, .refused (by simp [hs]) h⟩

theorem endFunction : Logged endFunction := by
  intro s r s' h
  obtain ⟨hnone, -⟩ | ⟨-, hstill⟩ := endFunction_quits h
  · cases hs : s.current with
    | none => exact ⟨_, .stayed h (hnone.trans hs.symm)⟩
    | some head => exact ⟨_, .left h (by simp [hs]) hnone⟩
  · exact ⟨_, .stayed h hstill.current⟩

end Logged

end Emit

namespace Lowering

open Emit

theorem Straight.logged {α : Type} {x : EmitM α} (h : Straight x) : Logged x := by
  induction h with
  | code h => exact .quiet h.quiet
  | bind _ _ ihx ihf => exact .bind ihx ihf
  | slot symbol name ty => exact .localVariable symbol name ty
  | global name ty init => exact .quiet (.declareGlobal name ty init)
  | ret v => exact .quiet (.ret v)

theorem functionBegin_logged (t : TypeTable) (name : String) (ty : TypeId) (params : List (SymbolId × String)) :
    Logged (functionBegin t name ty params) := by
  unfold functionBegin
  split
  · split
    · exact .quiet (.throw _)
    · exact .bind (.quiet (.lift _)) fun _ => .bind (.quiet (.lift _)) fun _ => .beginFunction ..
  · exact .quiet (.throw _)

/-- The parameters of a function are those that it was begun with. -/
theorem symbols_parameters {t : TypeTable} {params : List (SymbolId × String)} {tys : List TypeId} {ps : List Parameter}
    (hlength : tys.length = params.length) (h : parameters t params tys = .ok ps) :
    ps.map (·.symbol) = params.map (·.1) := by
  fun_induction parameters t params tys generalizing ps with
  | case1 symbol name params ty tys ih =>
    obtain ⟨ir, -, h⟩ := except_bind_ok.1 h
    obtain ⟨ps', hps', h⟩ := except_bind_ok.1 h
    cases h
    rw [List.map_cons, List.map_cons, ih (by simpa using hlength) hps']
  | case2 params tys hend =>
    cases h
    cases params with
    | nil => rfl
    | cons p params =>
      cases tys with
      | nil => cases hlength
      | cons ty tys => exact (hend p.1 p.2 params ty tys rfl rfl).elim

/-- A function that is begun gives slots to its parameters. -/
theorem functionBegin_logs {t : TypeTable} {name : String} {ty : TypeId} {params : List (SymbolId × String)}
    {s s' : Emitter} (h : Ends (functionBegin t name ty params) s (.ok ()) s') :
    ∃ ret ps variadic slots, slots.all isSlot ∧ emitted slots = (params.map (·.1)).reverse ∧
      Logs (beginFunction name ret ps variadic) s (slots ++ [.entered]) (.ok ()) s' := by
  obtain ⟨-, ⟨f, hr, -⟩, -⟩ | ⟨ret, tys, variadic, ir, ps, -, hlength, -, hparams, hbegin⟩ := functionBegin_ends h
  · cases hr
  obtain ⟨head, -, hr, -⟩ | ⟨hs, hspill⟩ := beginFunction_ends hbegin
  · cases hr
  obtain ⟨slots, hslots, hemitted, hlogs⟩ := spill_logs hspill
  rw [symbols_parameters hlength hparams] at hemitted
  exact ⟨ir, ps, variadic, slots, hslots, hemitted, .entered hs hlogs⟩

end Lowering

end TypedCore
