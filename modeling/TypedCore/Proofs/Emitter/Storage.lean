import TypedCore.Proofs.Emitter.Function
import TypedCore.Proofs.Types.Layouts

/-!
# Storage and the header of a module

The header of a module defines structs by name. A struct gets there when something of its type is stored: a global,
a variable or a temporary. `Headed T s` says that the header defines exactly the structs in the storage so far, where
`T` is a table that knows the layouts of all of them, so that no name stands for two structs. The operations of an
emitter keep this up if they succeed (`Registers`), as long as what is stored has a layout.
-/

namespace TypedCore

open Ir Lowering

/-! ### Definitions -/

namespace Ir.Ty

/-- Types are made of their elements and fields. -/
theorem parts_induction {P : Ty → Prop} (flat : ∀ ty, ty.isFlat = true → P ty)
    (array : ∀ n element, P element → P (.array n element))
    (struct : ∀ name fields, (∀ field ∈ fields, P field) → P (.struct name fields)) : ∀ ty, P ty
  | .array n element => array n element (parts_induction flat array struct element)
  | .struct name fields => struct name fields fun field _ => parts_induction flat array struct field
  | .void | .i1 | .i8 | .i16 | .i32 | .i64 | .f32 | .f64 | .ptr _ | .function .. | .label => flat _ rfl

/-- A struct of the given name that has fields. -/
def IsRecord (x : Ty) (name : String) : Prop := ∃ field fields, x = .struct (some name) (field :: fields)

end Ir.Ty

namespace Ir.TypeDefs

variable {defs defs' : TypeDefs} {name n : String} {x ty : Ty}

theorem find?_cons (d : String × Ty) (defs : TypeDefs) :
    find? (d :: defs) n = if d.1 = n then some d.2 else find? defs n := by
  by_cases h : d.1 = n <;> simp [find?, h]

theorem find?_insert : (defs.insert name ty).find? n = if name = n then some ty else defs.find? n := by
  induction defs with
  | nil => rw [insert, find?_cons]
  | cons d defs ih =>
    rw [insert]
    split
    · rw [find?_cons]
    · split
      · rename_i h
        rw [find?_cons, find?_cons, ← h]
        split <;> rfl
      · rename_i h
        rw [find?_cons, find?_cons, ih]
        grind

/-- What has been defined stays so, and the structs among `P` are defined too. -/
structure Extends (defs : TypeDefs) (P : Ty → Prop) (defs' : TypeDefs) : Prop where
  keeps : ∀ n x, defs.find? n = some x → defs'.find? n = some x
  new : ∀ n x, defs'.find? n = some x → defs.find? n = some x ∨ x.IsRecord n ∧ P x
  defines : ∀ n x, x.IsRecord n → P x → (defs'.find? n).isSome = true

namespace Extends

variable {P Q : Ty → Prop} {defs₁ : TypeDefs}

theorem refl (h : ∀ n x, x.IsRecord n → ¬ P x) : Extends defs P defs :=
  ⟨fun _ _ hx => hx, fun _ _ hx => .inl hx, fun n x hx hP => absurd hP (h n x hx)⟩

theorem imp (h : Extends defs P defs') (hPQ : ∀ n x, x.IsRecord n → (P x ↔ Q x)) : Extends defs Q defs' :=
  ⟨h.keeps, fun n x hx => (h.new n x hx).imp_right fun hP => ⟨hP.1, (hPQ n x hP.1).1 hP.2⟩,
    fun n x hx hQ => h.defines n x hx ((hPQ n x hx).2 hQ)⟩

theorem trans (h : Extends defs P defs₁) (h' : Extends defs₁ Q defs') : Extends defs (fun x => P x ∨ Q x) defs' := by
  refine ⟨fun n x hx => h'.keeps n x (h.keeps n x hx), fun n x hx => ?_, fun n x hx hPQ => ?_⟩
  · rcases h'.new n x hx with hx | ⟨hrecord, hQ⟩
    · exact (h.new n x hx).imp_right fun hP => ⟨hP.1, .inl hP.2⟩
    · exact .inr ⟨hrecord, .inr hQ⟩
  · rcases hPQ with hP | hQ
    · obtain ⟨y, hy⟩ := Option.isSome_iff_exists.1 (h.defines n x hx hP)
      exact Option.isSome_iff_exists.2 ⟨y, h'.keeps n y hy⟩
    · exact h'.defines n x hx hQ

end Extends

theorem recordAll_eq_foldl (tys : List Ty) : recordAll defs tys = tys.foldl record defs := by
  induction tys generalizing defs with
  | nil => rfl
  | cons ty tys ih => exact ih

theorem foldl_record_extends {tys : List Ty} (h : ∀ ty ∈ tys, ∀ defs, Extends defs (·.Within ty) (record defs ty)) :
    Extends defs (fun x => ∃ ty ∈ tys, x.Within ty) (tys.foldl record defs) := by
  induction tys generalizing defs with
  | nil => exact .refl (by simp)
  | cons ty tys ih =>
    refine ((h ty (by simp) defs).trans (ih fun ty hty => h ty (by simp [hty]))).imp fun n x _ => ?_
    simp

/-- A struct is defined by its name, unless the name is taken. -/
theorem insert_extends (defs : TypeDefs) (name : String) (field : Ty) (fields : List Ty) :
    Extends defs (· = .struct (some name) (field :: fields))
      (if (defs.find? name).isSome = true then defs
        else defs.insert name (.struct (some name) (field :: fields))) := by
  split
  · rename_i hdefined
    refine ⟨fun _ _ hx => hx, fun _ _ hx => .inl hx, ?_⟩
    rintro n x ⟨_, _, rfl⟩ heq
    cases heq
    exact hdefined
  · rename_i hdefined
    refine ⟨fun n x hx => ?_, fun n x hx => ?_, ?_⟩
    · rw [find?_insert, if_neg]
      · exact hx
      · rintro rfl
        exact hdefined (by rw [hx]; rfl)
    · rw [find?_insert] at hx
      split at hx
      · rename_i hn
        cases hx
        exact .inr ⟨⟨field, fields, hn ▸ rfl⟩, rfl⟩
      · exact .inl hx
    · rintro n x ⟨_, _, rfl⟩ heq
      cases heq
      simp [find?_insert]

/-- The structs within a type are defined, if all of them have names. -/
theorem record_extends (hnamed : ∀ name fields, (Ty.struct name fields).Within ty → name.isSome = true) :
    Extends defs (·.Within ty) (record defs ty) := by
  induction ty using Ty.parts_induction generalizing defs with
  | flat ty hflat =>
    have hrecord : record defs ty = defs := by cases ty <;> first | rfl | cases hflat
    rw [hrecord]
    refine .refl ?_
    rintro n x ⟨field, fields, rfl⟩ hw
    cases hw.eq_of_isFlat hflat
    cases hflat
  | array m element ih =>
    have hrecord : record defs (.array m element) = record defs element := rfl
    rw [hrecord]
    refine (ih fun name fields hw => hnamed name fields (.element hw)).imp ?_
    rintro n x ⟨field, fields, rfl⟩
    refine ⟨.element, fun hw => ?_⟩
    cases hw with
    | element hw => exact hw
  | struct name fields ih =>
    obtain ⟨name, rfl⟩ := Option.isSome_iff_exists.1 (hnamed name fields .self)
    cases fields with
    | nil =>
      have hrecord : record defs (.struct (some name) []) = defs := rfl
      rw [hrecord]
      refine .refl ?_
      rintro n x ⟨field, fields, rfl⟩ hw
      cases hw with
      | field hf => cases hf
    | cons field fields =>
      have hfields : Extends defs (fun x => ∃ f ∈ field :: fields, x.Within f) ((field :: fields).foldl record defs) :=
        foldl_record_extends fun f hf defs => ih f hf fun name fields hw => hnamed name fields (.field hf hw)
      have hrecord : record defs (.struct (some name) (field :: fields)) =
          if (((field :: fields).foldl record defs).find? name).isSome = true then (field :: fields).foldl record defs
          else ((field :: fields).foldl record defs).insert name (.struct (some name) (field :: fields)) := by
        rw [record, recordAll_eq_foldl]
        rfl
      rw [hrecord]
      -- the struct itself comes after its fields
      have hself := insert_extends ((field :: fields).foldl record defs) name field fields
      refine (hfields.trans hself).imp fun n x _ => ⟨?_, fun hw => ?_⟩
      · rintro (⟨f, hf, hw⟩ | rfl)
        · exact .field hf hw
        · exact .self
      · cases hw with
        | self => exact .inr rfl
        | field hf hw => exact .inl ⟨_, hf, hw⟩

end Ir.TypeDefs

/-! ### Storage -/

/-- The type of the object that an instruction makes room for. -/
def Ir.Instr.slot? : Instr → Option Ty
  | .alloca _ slot _ => some slot
  | _ => none

/-- The types of the objects that blocks make room for. -/
def Ir.slotTypes (bs : List Block) : List Ty := bs.flatMap fun b => b.instrs.filterMap Instr.slot?

theorem Ir.mem_slotTypes_modifyBlock {l : LabelId} {i : Instr} {ty : Ty} {bs : List Block} (h : l ∈ bs.map (·.id)) :
    ty ∈ slotTypes (modifyBlock l (·.push i) bs) ↔ ty ∈ slotTypes bs ∨ i.slot? = some ty := by
  induction bs with
  | nil => cases h
  | cons b bs ih =>
    by_cases hb : b.id = l
    · simp only [modifyBlock, hb, slotTypes, Block.push, if_true, List.flatMap_cons, List.mem_append,
        List.filterMap_append, List.mem_filterMap, List.mem_singleton, exists_eq_left]
      grind
    · have hrest : l ∈ bs.map (·.id) := by simpa [Ne.symm hb] using h
      have ih := ih hrest
      simp only [modifyBlock, hb, slotTypes, if_false, List.flatMap_cons, List.mem_append] at ih ⊢
      rw [ih, or_assoc]

namespace Emitter

variable {T : TypeTable} {s s' : Emitter} {ty : Ty}

/-- The types of what the module and the function under construction store: globals, variables and temporaries. -/
def storage (s : Emitter) : List Ty :=
  s.module.globals.map (·.ty) ++ s.module.functions.flatMap (fun f => slotTypes f.blocks) ++ slotTypes s.blocks

theorem mem_slotTypes_push (h : s.Open) (i : Instr) :
    ty ∈ slotTypes (s.push i).blocks ↔ ty ∈ slotTypes s.blocks ∨ i.slot? = some ty := by
  obtain ⟨b, hb, -⟩ := h
  cases hf : s.builder.function with
  | none => simp [Builder.currentBlock?, hf] at hb
  | some f =>
    cases hc : s.builder.current with
    | none => simp [Builder.currentBlock?, hf, hc] at hb
    | some l =>
      have hblock : f.blocks.find? (fun x => x.id == l) = some b := by
        simpa [Builder.currentBlock?, hf, hc, Function.block?] using hb
      rw [blocks_push, hc]
      refine mem_slotTypes_modifyBlock ?_
      have hid : b.id = l := by simpa using List.find?_some hblock
      simpa [blocks, hf, ← hid] using List.mem_map_of_mem (f := (·.id)) (List.mem_of_find?_eq_some hblock)

theorem slotTypes_startBlock (s : Emitter) (l : LabelId) : slotTypes (s.startBlock l).blocks = slotTypes s.blocks := by
  cases hf : s.builder.function <;> simp [blocks, startBlock, hf, slotTypes]

/-- The header defines the structs in the storage and nothing else, and `T` knows their layouts. -/
structure Headed (T : TypeTable) (s : Emitter) : Prop where
  described : ∀ ty ∈ s.storage, T.Describes ty
  find?_iff : ∀ n x, s.module.typeDefs.find? n = some x ↔ x.IsRecord n ∧ ∃ ty ∈ s.storage, x.Within ty

namespace Headed

theorem new (T : TypeTable) (name : String) : (Emitter.new name).Headed T := by
  have hstorage : (Emitter.new name).storage = [] := rfl
  have hdefs : (Emitter.new name).module.typeDefs = [] := rfl
  refine ⟨by simp [hstorage], fun n x => ?_⟩
  simp [hstorage, hdefs, TypeDefs.find?]

/-- Neither the storage nor the header changes. -/
theorem of_same (hs : s.Headed T) (hstorage : ∀ ty, ty ∈ s'.storage ↔ ty ∈ s.storage)
    (hdefs : s'.module.typeDefs = s.module.typeDefs) : s'.Headed T := by
  refine ⟨fun ty hty => hs.described ty ((hstorage ty).1 hty), fun n x => ?_⟩
  rw [hdefs, hs.find?_iff]
  simp only [hstorage]

/-- Something of a type that is laid out is stored, and the structs within its type are defined. -/
theorem record (hs : s.Headed T) (hty : T.Describes ty)
    (hstorage : ∀ ty', ty' ∈ s'.storage ↔ ty' ∈ s.storage ∨ ty' = ty)
    (hdefs : s'.module.typeDefs = s.module.typeDefs.record ty) : s'.Headed T := by
  have hext : TypeDefs.Extends s.module.typeDefs (·.Within ty) s'.module.typeDefs := by
    rw [hdefs]
    exact TypeDefs.record_extends fun _ _ hw => hty.named hw
  have hdescribed : ∀ ty' ∈ s'.storage, T.Describes ty' := fun ty' hty' =>
    ((hstorage ty').1 hty').elim (hs.described ty') fun h => h ▸ hty
  have hsound : ∀ n x, s'.module.typeDefs.find? n = some x → x.IsRecord n ∧ ∃ ty' ∈ s'.storage, x.Within ty' := by
    intro n x hx
    rcases hext.new n x hx with hold | ⟨hrecord, hw⟩
    · obtain ⟨hrecord, ty', hty', hw⟩ := (hs.find?_iff n x).1 hold
      exact ⟨hrecord, ty', (hstorage ty').2 (.inl hty'), hw⟩
    · exact ⟨hrecord, ty, (hstorage ty).2 (.inr rfl), hw⟩
  refine ⟨hdescribed, fun n x => ⟨hsound n x, ?_⟩⟩
  rintro ⟨hrecord, ty', hty', hw⟩
  rcases (hstorage ty').1 hty' with hold | rfl
  · exact hext.keeps n x ((hs.find?_iff n x).2 ⟨hrecord, ty', hold, hw⟩)
  · obtain ⟨y, hy⟩ := Option.isSome_iff_exists.1 (hext.defines n x hrecord hw)
    -- the name may have been defined before, but then by the same struct
    obtain ⟨⟨_, _, rfl⟩, ty₁, hty₁, hw₁⟩ := hsound n y hy
    obtain ⟨_, _, rfl⟩ := hrecord
    rw [hty.unique (hdescribed ty₁ hty₁) hw hw₁, hy]

theorem addGlobal {g : Global} (hs : s.Headed T) (hg : T.Describes g.ty) (hbuilder : s'.builder = s.builder)
    (hfunctions : s'.module.functions = s.module.functions)
    (hglobals : s'.module.globals = s.module.globals ++ [g])
    (hdefs : s'.module.typeDefs = s.module.typeDefs.record g.ty) : s'.Headed T := by
  refine hs.record hg (fun ty => ?_) hdefs
  have hblocks : s'.blocks = s.blocks := by rw [blocks, blocks, hbuilder]
  simp only [storage, hglobals, hfunctions, hblocks, List.map_append, List.map_cons, List.map_nil, List.mem_append,
    List.mem_singleton]
  tauto

theorem takeLabel (hs : s.Headed T) : s.takeLabel.Headed T := hs.of_same (fun _ => Iff.rfl) rfl

theorem takeTemp (hs : s.Headed T) : s.takeTemp.Headed T := hs.of_same (fun _ => Iff.rfl) rfl

theorem startBlock (hs : s.Headed T) (l : LabelId) : (s.startBlock l).Headed T := by
  refine hs.of_same (fun ty => ?_) rfl
  rw [storage, storage, slotTypes_startBlock]
  exact Iff.rfl

theorem push {i : Instr} (hs : s.Headed T) (ho : s.Open) (hi : i.slot? = none) : (s.push i).Headed T := by
  refine hs.of_same (fun ty => ?_) rfl
  simp only [storage, List.mem_append, mem_slotTypes_push ho, hi, reduceCtorEq, or_false]
  exact Iff.rfl

/-- The current block makes room for an object, once the structs within its type are in the header. -/
theorem alloca {u : Emitter} (hs : s.Headed T) (hty : T.Describes ty) (ho : u.Open)
    (hglobals : u.module.globals = s.module.globals) (hfunctions : u.module.functions = s.module.functions)
    (hslots : ∀ ty', ty' ∈ slotTypes u.blocks ↔ ty' ∈ slotTypes s.blocks)
    (hdefs : u.module.typeDefs = s.module.typeDefs.record ty) (n : TempId) :
    (u.takeTemp.push (.alloca n ty (.ptr ty))).Headed T := by
  refine hs.record hty (fun ty' => ?_) hdefs
  have hpush : ty' ∈ slotTypes (u.takeTemp.push (.alloca n ty (.ptr ty))).blocks ↔
      ty' ∈ slotTypes s.blocks ∨ ty' = ty := by
    rw [mem_slotTypes_push (s := u.takeTemp) ho, blocks_takeTemp, hslots]
    simp [Instr.slot?, eq_comm]
  have hmodule : (u.takeTemp.push (.alloca n ty (.ptr ty))).module = u.module := rfl
  simp only [storage, List.mem_append, hpush, hmodule, hglobals, hfunctions, or_assoc]

end Headed

end Emitter

/-! ### Code that keeps the header -/

namespace Emit

open Emitter

variable {α β : Type} {T : TypeTable} {s s' : Emitter}

/-- If `x` succeeds, the structs in what it stores are in the header. -/
def Registers (T : TypeTable) (x : EmitM α) : Prop := ∀ ⦃s a s'⦄, s.Headed T → Ends x s (.ok a) s' → s'.Headed T

namespace Registers

theorem pure (a : α) : Registers T (pure a) := by
  intro s a s' hs h
  obtain ⟨-, rfl⟩ := Ends.pure_iff.1 h
  exact hs

theorem throw (f : Fault) : Registers T (throw f : EmitM α) := by
  intro s a s' _ h
  cases (Ends.throw_iff.1 h).1

theorem bind {x : EmitM α} {f : α → EmitM β} (hx : Registers T x) (hf : ∀ a, Registers T (f a)) :
    Registers T (x >>= f) := by
  intro s b s' hs h
  obtain ⟨a, s₁, h₁, h₂⟩ := Ends.bind_ok_iff.1 h
  exact hf a (hx hs h₁) h₂

/-- The code that follows a question is asked for only if there is an answer. -/
theorem lift_bind {y : Except Fault α} {f : α → EmitM β} (hf : ∀ a, y = .ok a → Registers T (f a)) :
    Registers T (liftM y >>= f) := by
  intro s b s' hs h
  obtain ⟨a, s₁, h₁, h₂⟩ := Ends.bind_ok_iff.1 h
  obtain ⟨hy, rfl⟩ := Ends.lift_iff.1 h₁
  exact hf a hy.symm hs h₂

theorem lift (y : Except Fault α) : Registers T (liftM y : EmitM α) := by
  intro s a s' hs h
  obtain ⟨-, rfl⟩ := Ends.lift_iff.1 h
  exact hs

theorem get_bind {f : Emitter → EmitM β} (hf : ∀ s, Registers T (f s)) : Registers T (get >>= f) :=
  fun s _ _ hs h => hf s hs (Ends.get_bind_iff.1 h)

theorem ite {p : Prop} [Decidable p] {x y : EmitM α} (hx : Registers T x) (hy : Registers T y) :
    Registers T (if p then x else y) := by
  split
  · exact hx
  · exact hy

/-! ### Operations of an emitter -/

theorem createLabel : Registers T Emit.createLabel := by
  intro s a s' hs h
  obtain ⟨-, rfl⟩ := createLabel_iff.1 h
  exact hs.takeLabel

theorem openBlock : Registers T Emit.openBlock := by
  intro s a s' hs h
  obtain ⟨-, -, -, rfl⟩ | ⟨-, -, -, -, -, rfl⟩ | ⟨e, he, -⟩ := openBlock_ends h
  · exact hs
  · exact hs.takeLabel.startBlock _
  · cases he

theorem defineLabel (l : LabelId) : Registers T (Emit.defineLabel l) := by
  intro s a s' hs h
  obtain ⟨-, ho, -, -, rfl⟩ | ⟨-, -, -, -, rfl⟩ | ⟨e, he, -⟩ := defineLabel_ends h
  · exact (hs.push ho rfl).startBlock l
  · exact hs.startBlock l
  · cases he

theorem emit {i : Instr} (hi : i.slot? = none) : Registers T (build (.emit i)) := by
  intro s a s' hs h
  obtain ⟨-, ho, rfl⟩ | ⟨e, he, -⟩ := build_emit h
  · exact hs.push ho hi
  · cases he

theorem emitTemp {i : TempId → Instr} (hi : ∀ r, (i r).slot? = none) : Registers T (build (.emitTemp i)) := by
  intro s a s' hs h
  obtain ⟨-, ho, rfl⟩ | ⟨e, he, -⟩ := build_emitTemp h
  · exact hs.takeTemp.push ho (hi _)
  · cases he

theorem jump (target : LabelId) : Registers T (Emit.jump target) := openBlock.bind fun _ => emit rfl

theorem condJump (v : Value) (onTrue onFalse : LabelId) : Registers T (Emit.condJump v onTrue onFalse) :=
  openBlock.bind fun _ => emit rfl

theorem ret (v : Option Value) : Registers T (Emit.ret v) := openBlock.bind fun _ => emit rfl

theorem load (address : Value) (ty : Ty) : Registers T (Emit.load address ty) :=
  openBlock.bind fun _ => (emitTemp fun _ => rfl).bind fun _ => pure _

theorem store (value address : Value) (ty : Ty) : Registers T (Emit.store value address ty) :=
  openBlock.bind fun _ => emit rfl

theorem arith (op : BinOp) (a b : Value) (ty : Ty) : Registers T (Emit.arith op a b ty) :=
  openBlock.bind fun _ => (emitTemp fun _ => rfl).bind fun _ => pure _

theorem compare (op : BinOp) (a b : Value) : Registers T (Emit.compare op a b) :=
  openBlock.bind fun _ => (emitTemp fun _ => rfl).bind fun _ => pure _

theorem unary (op : UnOp) (a : Value) (ty : Ty) : Registers T (Emit.unary op a ty) :=
  openBlock.bind fun _ => (emitTemp fun _ => rfl).bind fun _ => pure _

theorem merge (incoming : List (Value × LabelId)) (ty : Ty) : Registers T (Emit.merge incoming ty) :=
  openBlock.bind fun _ => (emitTemp fun _ => rfl).bind fun _ => pure _

theorem offset (base : Value) (indices : List Value) (ty : Ty) : Registers T (build (.offset base indices ty)) := by
  rw [build_offset_eq]
  exact (emitTemp fun _ => rfl).bind fun _ => pure _

theorem elementAddress (base index : Value) (element : Ty) : Registers T (Emit.elementAddress base index element) :=
  openBlock.bind fun _ => offset _ _ _

theorem memberAddress (base : Value) (index : Nat) (member : Ty) :
    Registers T (Emit.memberAddress base index member) :=
  openBlock.bind fun _ => offset _ _ _

theorem call (callee : Value) (args : List Value) (ty : Ty) : Registers T (Emit.call callee args ty) := by
  refine openBlock.bind fun _ => bind ?_ fun _ => pure _
  unfold BuilderM.call
  split
  · rw [build_bind]
    exact (emit rfl).bind fun _ => pure _
  · rw [build_map]
    exact (emitTemp fun _ => rfl).bind fun _ => pure _

theorem addressDifference (a b : Value) (element : Ty) : Registers T (Emit.addressDifference a b element) := by
  unfold Emit.addressDifference
  split
  · exact throw _
  · exact (unary _ _ _).bind fun _ => (unary _ _ _).bind fun _ => (arith _ _ _ _).bind fun _ =>
      ite (pure _) (arith _ _ _ _)

theorem symbolAddress (id : SymbolId) (name : String) (storage : Storage) :
    Registers T (Emit.symbolAddress id name storage) := by
  intro s a s' hs h
  obtain ⟨rfl, -⟩ := symbolAddress_ends h
  exact hs

theorem currentLabel : Registers T currentLabel := by
  refine get_bind fun s => ?_
  split
  · exact pure _
  · exact throw _

theorem jumpIfOpen (l : LabelId) : Registers T (jumpIfOpen l) := get_bind fun _ => ite (jump l) (pure _)

/-! ### Storage -/

theorem stringLiteral (text : String) : Registers T (Emit.stringLiteral text) := by
  intro s a s' hs h
  obtain ⟨g, n, rfl, -, hbytes⟩ := stringLiteral_ends h
  have hty : T.Describes g.ty := by
    rw [hbytes]
    intro name fields hw
    cases hw with
    | element hw => cases hw
  exact hs.addGlobal hty rfl rfl rfl (by rw [hbytes]; rfl)

theorem declareGlobal {ty : Ty} (hty : T.Describes ty) (name : String) (init : Option Value) :
    Registers T (Emit.declareGlobal name ty init) := by
  intro s a s' hs h
  unfold Emit.declareGlobal Emit.recordType at h
  rw [Ends.modify_bind_iff, Ends.modify_bind_iff] at h
  obtain ⟨-, rfl⟩ := Ends.pure_iff.1 h
  exact hs.addGlobal hty rfl rfl rfl rfl

end Registers

/-- An object gets a slot in the current block. -/
theorem build_alloca {ty : Ty} {v : Value} (h : Ends (build (.alloca ty)) s (.ok v) s') :
    s.Open ∧ s' = s.takeTemp.push (.alloca s.temps ty (.ptr ty)) := by
  rw [build_alloca_eq] at h
  obtain ⟨n, s₁, h₁, h₂⟩ := Ends.bind_ok_iff.1 h
  obtain ⟨-, rfl⟩ := Ends.pure_iff.1 h₂
  obtain ⟨-, ho, rfl⟩ | ⟨e, he, -⟩ := build_emitTemp h₁
  · exact ⟨ho, rfl⟩
  · cases he

namespace Registers

theorem temporary {ty : Ty} (hty : T.Describes ty) : Registers T (Emit.temporary ty) := by
  intro s v s' hs h
  unfold Emit.temporary Emit.recordType at h
  obtain ⟨_, s₁, h₁, h⟩ := Ends.bind_ok_iff.1 h
  rw [Ends.modify_bind_iff] at h
  obtain ⟨ho, rfl⟩ := build_alloca h
  exact (openBlock hs h₁).alloca hty ho rfl rfl (fun _ => Iff.rfl) rfl _

theorem localVariable {ty : Ty} (hty : T.Describes ty) (symbol : SymbolId) (name : String) :
    Registers T (Emit.localVariable symbol name ty) := by
  intro s v s' hs h
  unfold Emit.localVariable Emit.recordType at h
  obtain ⟨_, s₁, h₁, h⟩ := Ends.bind_ok_iff.1 h
  rw [Ends.modify_bind_iff] at h
  obtain ⟨_, s₂, h₂, h⟩ := Ends.bind_ok_iff.1 h
  obtain ⟨slot, s₃, h₃, h⟩ := Ends.bind_ok_iff.1 h
  rw [Ends.modify_bind_iff] at h
  obtain ⟨-, rfl⟩ := Ends.pure_iff.1 h
  obtain ⟨-, ho, rfl⟩ | ⟨e, he, -⟩ := build_emit h₂
  swap
  · cases he
  obtain ⟨ho', rfl⟩ := build_alloca h₃
  refine ((openBlock hs h₁).alloca hty ho' rfl rfl (fun ty' => ?_) rfl _).of_same (fun _ => Iff.rfl) rfl
  rw [mem_slotTypes_push ho]
  simp only [Instr.slot?, reduceCtorEq, or_false]
  exact Iff.rfl

end Registers

end Emit

end TypedCore
