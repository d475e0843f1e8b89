import TypedCore.Proofs.Emitter.Writing
import TypedCore.Lowering.Expr

/-!
# What instructions are there for

Every instruction that is generated for an expression gets an `Origin`: it does what a call, an assignment or a step
stands for, it puts the value of an expression into an object that is initialized, it clears such an object, or it does
nothing but compute. A `Ledger` is a list of instructions with origins in which each origin is justified by the
instructions before it: the operands were computed there, once each, and what is stored to is the place that was
computed, or the object that is to receive the value.

Which object is to receive the value of which expression is fixed by the initializer (`Receives`): from an object and
the expression in braces for it, element by element to the parts of the object.

`Explains t N O x nodes`: whenever code `x` succeeds, the instructions that it writes have a ledger, in which the calls,
assignments and steps are the `nodes`, in this order. The objects that are to be initialized are given by `O`; other
objects are made for the expressions of `N` only.
-/

namespace TypedCore

open Ir Lowering

/-- Instructions that call a function or change storage. -/
def Ir.Instr.acts : Instr → Bool
  | .call .. | .store .. => true
  | _ => false

/-- What an instruction is there for. -/
inductive Origin where
  /-- to do what a call, an assignment or a step stands for -/
  | effect (node : Expr)
  /-- to put the value of `e` into an object of type `ty` -/
  | init (e : Expr) (ty : TypeId)
  /-- to clear an object of type `ty` some elements of which are left out -/
  | clear (ty : TypeId)
  | compute

/-- An instruction with its origin. -/
structure Attributed where
  origin : Origin
  instr : Instr

namespace Attributed

def node? : Attributed → Option Expr
  | ⟨.effect node, _⟩ => some node
  | _ => none

end Attributed

/-! ### Objects and what they are initialized by -/

/-- The elements in braces by which an object is initialized, if they are not put together first. -/
def Expr.braces? (t : TypeTable) : Expr → Option (List Expr)
  | aggregate elements _ => some elements
  | proxy target _ => target.braces? t
  | unary .cast child _ => if t.isScalar child.ty then none else child.braces? t
  | _ => none

/-- Among the instructions `I`, one computes the address of part number `index`, of type `part`, of an object of type
`ty` at `base`. What is neither an array nor a struct has itself as its only part. -/
inductive PartAt (t : TypeTable) (I : List Instr) (base : Value) (ty : TypeId) (index : Nat) (part : TypeId) :
    Value → Prop
  | element {k : TempId} {ir : Ty} (hty : t.isArray ty = true) (hir : t.layout part = .ok ir)
      (h : .offset k base [.const (Int64.ofNat index)] (.ptr ir) ∈ I) : PartAt t I base ty index part (.temp k)
  | member {k : TempId} {ir : Ty} (hty : t.isStruct ty = true) (hir : t.layout part = .ok ir)
      (h : .offset k base [.const 0, .const (Int64.ofNat index)] (.ptr ir) ∈ I) :
      PartAt t I base ty index part (.temp k)
  | self (harray : t.isArray ty = false) (hstruct : t.isStruct ty = false) : PartAt t I base ty index part base

theorem PartAt.mono {t : TypeTable} {I J : List Instr} {base a : Value} {ty part : TypeId} {index : Nat}
    (h : PartAt t I base ty index part a) (hI : I ⊆ J) : PartAt t J base ty index part a := by
  cases h with
  | element hty hir h => exact .element hty hir (hI h)
  | member hty hir h => exact .member hty hir (hI h)
  | self harray hstruct => exact .self harray hstruct

/-- Objects with what they are initialized by: the address, the expression, and the type of the object. -/
abbrev Objects := Value → Expr → TypeId → Prop

/-- An object of the given type, at the given address, is initialized by the given expression: it is one of the objects
`O`, a slot for the value of an expression of `N`, or the part of an object that an element in braces is for. -/
inductive Receives (t : TypeTable) (N : Expr → Prop) (O : Objects) (I : List Instr) : Objects
  | object {v : Value} {e : Expr} {ty : TypeId} (h : O v e ty) : Receives t N O I v e ty
  | temporary {k : TempId} {e : Expr} {ir : Ty} (he : N e) (hir : t.layout e.ty = .ok ir)
      (h : .alloca k ir (.ptr ir) ∈ I) : Receives t N O I (.temp k) e e.ty
  | part {base a : Value} {e x : Expr} {ty part : TypeId} {ir : Ty} {es : List Expr} {i : Nat}
      (hbase : Receives t N O I base e ty) (hir : t.layout ty = .ok ir) (hc : e.constant? t = none)
      (hes : e.braces? t = some es) (hx : es[i]? = some x) (hpart : t.elementType ty i = .ok part)
      (ha : PartAt t I base ty i part a) : Receives t N O I a x part

namespace Receives

variable {t : TypeTable} {N : Expr → Prop} {O : Objects} {I J : List Instr} {v : Value} {e : Expr} {ty : TypeId}

theorem mono (h : Receives t N O I v e ty) (hI : I ⊆ J) : Receives t N O J v e ty := by
  induction h with
  | object h => exact .object h
  | temporary he hir h => exact .temporary he hir (hI h)
  | part _ hir hc hes hx hpart ha ih => exact .part ih hir hc hes hx hpart (ha.mono hI)

theorem trans (h : Receives t N (Receives t N O I) J v e ty) : Receives t N O (I ++ J) v e ty := by
  induction h with
  | object h => exact h.mono (List.subset_append_left I J)
  | temporary he hir h => exact .temporary he hir (List.mem_append_right I h)
  | part _ hir hc hes hx hpart ha ih =>
    exact .part ih hir hc hes hx hpart (ha.mono (List.subset_append_right I J))

end Receives

/-! ### Ledgers -/

/-- `i` computes the new value `j` of a step from the old value `k`: the next number, or the next element. -/
inductive Stepped (op : UnaryOp) (k j : TempId) (ir : Ty) : Instr → Prop
  | number : Stepped op k j ir (.binary j (if op.isIncrement then .add else .sub) (.temp k) (.const 1) ir)
  | pointer (element : Ty) :
      Stepped op k j ir (.offset j (.temp k) [.const (if op.isIncrement then 1 else -1)] (.ptr element))

theorem Stepped.acts_eq {op : UnaryOp} {k j : TempId} {ir : Ty} {i : Instr} (h : Stepped op k j ir i) :
    i.acts = false := by
  cases h <;> rfl

/-- The code `own`, written from `s` on, computes the operands of a node and then `instr` does what the node stands
for. What is assigned to is the place whose address is computed in front. -/
inductive Performs (t : TypeTable) (s : Emitter) : Expr → List Instr → Instr → Prop
  | call {callee : Expr} {args : List Expr} {note : Note} {s₁ s₂ : Emitter} {I J : List Instr} {f : Value}
      {vs : List Value} {ir : Ty} {r : Option TempId} (hf : Ends (loadValue t callee) s (.ok f) s₁)
      (hI : s.Writes I s₁) (hvs : Ends (valuesOf (lowerAll t args)) s₁ (.ok vs) s₂) (hJ : s₁.Writes J s₂)
      (hir : t.layout note.ty = .ok ir) : Performs t s (.call callee args note) (I ++ J) (.call r f vs ir)
  | assign {left right : Expr} {note : Note} {s₁ s₂ : Emitter} {I J : List Instr} {a v : Value} {ir : Ty}
      (ha : Ends (loadAddress t left) s (.ok a) s₁) (hI : s.Writes I s₁) (hv : Ends (loadValue t right) s₁ (.ok v) s₂)
      (hJ : s₁.Writes J s₂) (hir : t.layout note.ty = .ok ir) :
      Performs t s (.binary .assign left right note) (I ++ J) (.store v a ir)
  | compound {op base : BinaryOp} {left right : Expr} {note : Note} {s₁ s₂ s₃ s₄ : Emitter} {I J K : List Instr}
      {k : TempId} {a v w : Value} {ir : Ty} (hop : op.compoundBase? = some base)
      (ha : Ends (loadAddress t left) s (.ok a) s₁) (hI : s.Writes I s₁) (hk : s₁.Writes [.load k a ir] s₂)
      (hv : Ends (loadValue t right) s₂ (.ok v) s₃) (hJ : s₂.Writes J s₃)
      (hw : Ends (arithmeticValue t base left.ty (.temp k) right.ty v left.ty) s₃ (.ok w) s₄) (hK : s₃.Writes K s₄)
      (hquiet : ∀ i ∈ K, i.acts = false) (hir : t.layout left.ty = .ok ir) :
      Performs t s (.binary op left right note) (I ++ ([.load k a ir] ++ (J ++ K))) (.store w a ir)
  | step {op : UnaryOp} {child : Expr} {note : Note} {s₁ : Emitter} {I : List Instr} {k j : TempId} {a : Value}
      {ir : Ty} {i : Instr} (hop : (op.isIncrement || op.isDecrement) = true)
      (ha : Ends (loadAddress t child) s (.ok a) s₁) (hI : s.Writes I s₁) (hi : Stepped op k j ir i)
      (hir : t.layout child.ty = .ok ir) :
      Performs t s (.unary op child note) (I ++ [.load k a ir, i]) (.store (.temp j) a ir)

/-- An instruction has its origin, given the instructions that have been written before it from `s` on. -/
inductive Justified (t : TypeTable) (N : Expr → Prop) (O : Objects) (s : Emitter) (before : List Instr) :
    Attributed → Prop
  | effect {node : Expr} {instr : Instr} {pre own : List Instr} {s₁ : Emitter} (hbefore : before = pre ++ own)
      (hpre : s.Writes pre s₁) (h : Performs t s₁ node own instr) : Justified t N O s before ⟨.effect node, instr⟩
  | init {e : Expr} {ty : TypeId} {pre own rest : List Instr} {s₁ s₂ : Emitter} {v a : Value} {ir : Ty}
      (hbefore : before = pre ++ (own ++ rest)) (hpre : s.Writes pre s₁) (h : Ends (loadValue t e) s₁ (.ok v) s₂)
      (hown : s₁.Writes own s₂) (hrest : ∀ i ∈ rest, i.acts = false) (hir : t.layout ty = .ok ir)
      (ha : Receives t N O before a e ty) : Justified t N O s before ⟨.init e ty, .store v a ir⟩
  | clear {e : Expr} {ty : TypeId} {a : Value} {ir : Ty} (hir : t.layout ty = .ok ir)
      (ha : Receives t N O before a e ty) :
      Justified t N O s before ⟨.clear ty, .store (Emit.zero ir) a ir⟩
  | compute {i : Instr} (h : i.acts = false) : Justified t N O s before ⟨.compute, i⟩

/-- Something was written before. -/
theorem Justified.shift {t : TypeTable} {N : Expr → Prop} {O : Objects} {s s₁ : Emitter} {I before : List Instr}
    {l : Attributed} (hI : s.Writes I s₁) (h : Justified t N (Receives t N O I) s₁ before l) :
    Justified t N O s (I ++ before) l := by
  cases h with
  | effect hbefore hpre h => exact .effect (by rw [hbefore, List.append_assoc]) (hI.trans hpre) h
  | init hbefore hpre h hown hrest hir ha =>
    exact .init (by rw [hbefore, List.append_assoc]) (hI.trans hpre) h hown hrest hir ha.trans
  | clear hir ha => exact .clear hir ha.trans
  | compute h => exact .compute h

/-- From `s` to `s'` the instructions of `L` have been written, and each of them has its origin. -/
structure Ledger (t : TypeTable) (N : Expr → Prop) (O : Objects) (s : Emitter) (L : List Attributed) (s' : Emitter) :
    Prop where
  writes : s.Writes (L.map (·.instr)) s'
  justified : ∀ pre l post, L = pre ++ l :: post → Justified t N O s (pre.map (·.instr)) l

namespace Ledger

variable {t : TypeTable} {N : Expr → Prop} {O : Objects} {s s₁ s' : Emitter} {L L' : List Attributed} {I : List Instr}

theorem append (h : Ledger t N O s L s₁) (h' : Ledger t N (Receives t N O (L.map (·.instr))) s₁ L' s') :
    Ledger t N O s (L ++ L') s' := by
  refine ⟨by rw [List.map_append]; exact h.writes.trans h'.writes, fun pre l post heq => ?_⟩
  rcases List.append_eq_append_iff.1 heq with ⟨mid, rfl, hmid⟩ | ⟨mid, rfl, hmid⟩
  · rw [List.map_append]
    exact (h'.justified mid l post hmid).shift h.writes
  · cases mid with
    | nil =>
      rw [List.nil_append] at hmid
      have hfirst := (h'.justified [] l post hmid.symm).shift h.writes
      simpa using hfirst
    | cons l' mid =>
      cases hmid
      exact h.justified pre l mid rfl

/-- Code that only computes. -/
theorem compute (hw : s.Writes I s') (hI : ∀ i ∈ I, i.acts = false) :
    Ledger t N O s (I.map (⟨.compute, ·⟩)) s' := by
  refine ⟨by simpa [Function.comp_def] using hw, fun pre l post heq => ?_⟩
  have hmem : l ∈ I.map (⟨.compute, ·⟩ : Instr → Attributed) := by simp [heq]
  obtain ⟨i, hi, rfl⟩ := List.mem_map.1 hmem
  exact .compute (hI i hi)

/-- One more instruction. -/
theorem push {l : Attributed} (h : Ledger t N O s L s₁) (hw : s₁.Writes [l.instr] s')
    (hl : Justified t N O s (L.map (·.instr)) l) : Ledger t N O s (L ++ [l]) s' := by
  refine ⟨by simpa using h.writes.trans hw, fun pre l' post heq => ?_⟩
  rcases List.append_eq_append_iff.1 heq with ⟨mid, rfl, hmid⟩ | ⟨mid, rfl, hmid⟩
  · cases mid with
    | nil =>
      cases hmid
      simpa using hl
    | cons x mid =>
      have hlen := congrArg List.length hmid
      simp at hlen
  · cases mid with
    | nil =>
      cases hmid
      simpa using hl
    | cons x mid =>
      cases hmid
      exact h.justified pre l' mid rfl

/-- What initializes is a store to the object that receives the value. -/
theorem exists_receives {pre post : List Attributed} {x : Expr} {part : TypeId} {i : Instr} (h : Ledger t N O s L s')
    (heq : L = pre ++ ⟨.init x part, i⟩ :: post) : ∃ v a ir, i = .store v a ir ∧ t.layout part = .ok ir ∧
      Receives t N O (pre.map (·.instr)) a x part := by
  have hjust := h.justified pre _ post heq
  generalize hlast : (⟨.init x part, i⟩ : Attributed) = last at hjust
  cases hjust with
  | init _ _ _ _ _ hir ha =>
    cases hlast
    exact ⟨_, _, _, rfl, hir, ha⟩
  | effect | clear | compute => cases hlast

end Ledger

/-! ### Code that only computes -/

variable {α β : Type}

/-- If it succeeds, `x` neither calls nor stores. -/
def Passive (x : EmitM α) : Prop :=
  ∀ ⦃s a s'⦄, s.Drafting → Ends x s (.ok a) s' → ∃ I, s.Writes I s' ∧ ∀ i ∈ I, i.acts = false

namespace Passive

open Emit

theorem pure (a : α) : Passive (pure a) := by
  intro s b s' hs h
  obtain ⟨-, rfl⟩ := Ends.pure_iff.1 h
  exact ⟨[], .refl hs, by simp⟩

theorem throw (f : Fault) : Passive (throw f : EmitM α) := by
  intro s b s' _ h
  cases (Ends.throw_iff.1 h).1

theorem lift (y : Except Fault α) : Passive (liftM y : EmitM α) := by
  intro s b s' hs h
  obtain ⟨-, rfl⟩ := Ends.lift_iff.1 h
  exact ⟨[], .refl hs, by simp⟩

theorem bind {x : EmitM α} {f : α → EmitM β} (hx : Passive x) (hf : ∀ a, Passive (f a)) : Passive (x >>= f) := by
  intro s b s' hs h
  obtain ⟨a, s₁, h₁, h₂⟩ := Ends.bind_ok_iff.1 h
  obtain ⟨I, hI, hquiet⟩ := hx hs h₁
  obtain ⟨J, hJ, hquiet'⟩ := hf a hI.drafting h₂
  refine ⟨I ++ J, hI.trans hJ, fun i hi => ?_⟩
  exact (List.mem_append.1 hi).elim (hquiet i) (hquiet' i)

theorem get_bind {f : Emitter → EmitM β} (hf : ∀ s, Passive (f s)) : Passive (get >>= f) :=
  fun s _ _ hs h => hf s hs (Ends.get_bind_iff.1 h)

theorem ite {p : Prop} [Decidable p] {x y : EmitM α} (hx : Passive x) (hy : Passive y) :
    Passive (if p then x else y) := by
  split
  · exact hx
  · exact hy

theorem instr {i : Instr} (hi : i.acts = false) : Passive (openBlock >>= fun _ => build (.emit i)) := by
  intro s _ s' hs h
  exact ⟨[i], instr_writes hs h, by simpa using hi⟩

theorem temp {i : TempId → Instr} (hi : ∀ k, (i k).acts = false) {f : TempId → EmitM α} (hf : ∀ k, Passive (f k)) :
    Passive (openBlock >>= fun _ => build (.emitTemp i) >>= f) := by
  rw [← bind_assoc]
  refine bind (fun s k s' hs h => ?_) hf
  exact ⟨[i k], (temp_writes hs h).2.1, by simpa using hi k⟩

theorem offset (base : Value) (indices : List Value) (ty : Ty) :
    Passive (openBlock >>= fun _ => build (.offset base indices ty)) := by
  rw [build_offset_eq]
  exact temp (fun _ => rfl) fun _ => pure _

theorem createLabel : Passive createLabel :=
  fun _ _ _ hs h => ⟨[], createLabel_writes hs h, by simp⟩

theorem defineLabel (l : LabelId) : Passive (defineLabel l) := by
  intro s _ s' hs h
  rcases defineLabel_writes hs h with hw | hw
  · exact ⟨[], hw, by simp⟩
  · exact ⟨[.branch l], hw, by simp [Instr.acts]⟩

theorem currentLabel : Passive currentLabel := by
  refine get_bind fun s => ?_
  split
  · exact pure _
  · exact throw _

theorem jump (l : LabelId) : Passive (jump l) := instr rfl

theorem condJump (v : Value) (onTrue onFalse : LabelId) : Passive (condJump v onTrue onFalse) := instr rfl

theorem load (address : Value) (ty : Ty) : Passive (load address ty) := temp (fun _ => rfl) fun _ => pure _

theorem arith (op : BinOp) (a b : Value) (ty : Ty) : Passive (arith op a b ty) := temp (fun _ => rfl) fun _ => pure _

theorem compare (op : BinOp) (a b : Value) : Passive (compare op a b) := temp (fun _ => rfl) fun _ => pure _

theorem unary (op : UnOp) (a : Value) (ty : Ty) : Passive (unary op a ty) := temp (fun _ => rfl) fun _ => pure _

theorem merge (incoming : List (Value × LabelId)) (ty : Ty) : Passive (merge incoming ty) :=
  temp (fun _ => rfl) fun _ => pure _

theorem elementAddress (base index : Value) (element : Ty) : Passive (elementAddress base index element) :=
  offset _ _ _

theorem memberAddress (base : Value) (index : Nat) (member : Ty) : Passive (Emit.memberAddress base index member) :=
  offset _ _ _

theorem symbolAddress (id : SymbolId) (name : String) (storage : Storage) :
    Passive (symbolAddress id name storage) := by
  intro s v s' hs h
  obtain ⟨rfl, -⟩ := symbolAddress_ends h
  exact ⟨[], .refl hs, by simp⟩

theorem stringLiteral (text : String) : Passive (stringLiteral text) := by
  intro s v s' hs h
  obtain ⟨g, n, rfl, -, -⟩ := stringLiteral_ends h
  exact ⟨[], .congr hs rfl rfl, by simp⟩

theorem addressDifference (a b : Value) (element : Ty) : Passive (addressDifference a b element) := by
  unfold Emit.addressDifference
  split
  · exact throw _
  · exact (unary _ _ _).bind fun _ => (unary _ _ _).bind fun _ => (arith _ _ _ _).bind fun _ =>
      ite (pure _) (arith _ _ _ _)

theorem truth (t : TypeTable) (v : Value) (ty : TypeId) : Passive (truth t v ty) :=
  ite (pure _) ((lift _).bind fun _ => compare _ _ _)

theorem arithmeticValue (t : TypeTable) (op : BinaryOp) (leftTy : TypeId) (l : Value) (rightTy : TypeId) (r : Value)
    (ty : TypeId) : Passive (arithmeticValue t op leftTy l rightTy r ty) := by
  refine ite ((lift _).bind fun _ => ite (addressDifference _ _ _) ?_) ?_
  · exact ite ((lift _).bind fun _ => (unary _ _ _).bind fun _ => elementAddress _ _ _)
      ((pure _).bind fun _ => elementAddress _ _ _)
  · exact (lift _).bind fun _ => (lift _).bind fun _ => arith _ _ _ _

theorem comparisonValue (t : TypeTable) (op : BinaryOp) (ty : TypeId) (l r : Value) :
    Passive (comparisonValue t op ty l r) := by
  refine (lift _).bind fun _ => ?_
  split
  · exact compare _ _ _
  · exact throw _

theorem loadConstant (t : TypeTable) (e : Expr) : Passive (loadConstant t e) := by
  unfold Lowering.loadConstant
  split
  · exact lift _
  · exact throw _

end Passive

/-- If it succeeds, `x` neither calls nor stores, and its value is such that `Q` holds for what was written. -/
def Locates (Q : List Instr → Value → Prop) (x : EmitM Value) : Prop :=
  ∀ ⦃s v s'⦄, s.Drafting → Ends x s (.ok v) s' → ∃ I, s.Writes I s' ∧ (∀ i ∈ I, i.acts = false) ∧ Q I v

namespace Locates

open Emit

/-- A slot for the value of an expression. -/
theorem temporary {t : TypeTable} {N : Expr → Prop} {O : Objects} {e : Expr} {ir : Ty} (he : N e)
    (hir : t.layout e.ty = .ok ir) : Locates (fun I v => Receives t N O I v e e.ty) (temporary ir) := by
  intro s v s' hs h
  obtain ⟨k, rfl, hw⟩ := temporary_writes hs h
  exact ⟨_, hw, by simp [Instr.acts], .temporary he hir (List.mem_singleton.2 rfl)⟩

theorem partAddress {t : TypeTable} {part : TypeId} {ir : Ty} (hir : t.layout part = .ok ir) (ty : TypeId)
    (base : Value) (index : Nat) :
    Locates (fun I a => PartAt t I base ty index part a) (partAddress t ty base index ir) := by
  intro s v s' hs h
  unfold Lowering.partAddress at h
  split at h
  · rename_i hty
    obtain ⟨k, rfl, hw⟩ := offset_writes hs h
    exact ⟨_, hw, by simp [Instr.acts], .element hty hir (List.mem_singleton.2 rfl)⟩
  split at h
  · rename_i hty
    obtain ⟨k, rfl, hw⟩ := offset_writes hs h
    exact ⟨_, hw, by simp [Instr.acts], .member hty hir (List.mem_singleton.2 rfl)⟩
  · rename_i harray hstruct
    obtain ⟨hv, rfl⟩ := Ends.pure_iff.1 h
    cases hv
    exact ⟨[], .refl hs, by simp, .self (Bool.eq_false_iff.2 harray) (Bool.eq_false_iff.2 hstruct)⟩

end Locates

/-! ### Code with effects -/

/-- A ledger with the effects `nodes`. -/
structure Explanation (t : TypeTable) (N : Expr → Prop) (O : Objects) (s : Emitter) (L : List Attributed)
    (nodes : List Expr) (s' : Emitter) : Prop where
  ledger : Ledger t N O s L s'
  nodes_eq : L.filterMap Attributed.node? = nodes

namespace Explanation

variable {t : TypeTable} {N : Expr → Prop} {O : Objects} {s s₁ s' : Emitter} {L L' : List Attributed}
  {nodes nodes' : List Expr} {I : List Instr}

theorem compute (hw : s.Writes I s') (hI : ∀ i ∈ I, i.acts = false) :
    Explanation t N O s (I.map (⟨.compute, ·⟩)) [] s' := by
  refine ⟨.compute hw hI, ?_⟩
  simp [List.filterMap_map, Function.comp_def, Attributed.node?]

theorem append (h : Explanation t N O s L nodes s₁)
    (h' : Explanation t N (Receives t N O (L.map (·.instr))) s₁ L' nodes' s') :
    Explanation t N O s (L ++ L') (nodes ++ nodes') s' := by
  refine ⟨h.ledger.append h'.ledger, ?_⟩
  rw [List.filterMap_append, h.nodes_eq, h'.nodes_eq]

theorem push {l : Attributed} (h : Explanation t N O s L nodes s₁) (hw : s₁.Writes [l.instr] s')
    (hl : Justified t N O s (L.map (·.instr)) l) :
    Explanation t N O s (L ++ [l]) (nodes ++ l.node?.toList) s' := by
  refine ⟨h.ledger.push hw hl, ?_⟩
  rw [List.filterMap_append, h.nodes_eq]
  cases hn : l.node? <;> simp [hn]

theorem also {i : Instr} (h : Explanation t N O s L nodes s₁) (hw : s₁.Writes [i] s') (hi : i.acts = false) :
    Explanation t N O s (L ++ [⟨.compute, i⟩]) nodes s' := by
  have hpushed := h.push (l := ⟨.compute, i⟩) hw (.compute hi)
  rwa [show Attributed.node? ⟨.compute, i⟩ = none from rfl, Option.toList_none, List.append_nil] at hpushed

/-- The operands of a node have been computed, and what it stands for is done. -/
theorem perform {node : Expr} {i : Instr} (h : Explanation t N O s L nodes s₁) (hs : s.Drafting)
    (hw : s₁.Writes [i] s') (hi : Performs t s node (L.map (·.instr)) i) :
    Explanation t N O s (L ++ [⟨.effect node, i⟩]) (nodes ++ [node]) s' :=
  h.push hw (.effect (List.nil_append _).symm (.refl hs) hi)

/-- The value of `e` has been computed and is put into an object. -/
theorem init {e : Expr} {ty : TypeId} {v a : Value} {ir : Ty} {own rest : List Instr}
    (h : Explanation t N O s L nodes s₁) (hs : s.Drafting) {s₂ : Emitter} (hbefore : L.map (·.instr) = own ++ rest)
    (hv : Ends (loadValue t e) s (.ok v) s₂) (hown : s.Writes own s₂) (hrest : ∀ i ∈ rest, i.acts = false)
    (hir : t.layout ty = .ok ir) (ha : Receives t N O (L.map (·.instr)) a e ty) (hw : s₁.Writes [.store v a ir] s') :
    Explanation t N O s (L ++ [⟨.init e ty, .store v a ir⟩]) nodes s' := by
  have hjust : Justified t N O s (L.map (·.instr)) ⟨.init e ty, .store v a ir⟩ :=
    .init (hbefore.trans (List.nil_append _).symm) (.refl hs) hv hown hrest hir ha
  have hpushed := h.push hw hjust
  rwa [show Attributed.node? ⟨.init e ty, .store v a ir⟩ = none from rfl, Option.toList_none, List.append_nil]
    at hpushed

end Explanation

/-- If `x` succeeds, the instructions that it writes are explained, and their effects are the `nodes`. -/
def Explains (t : TypeTable) (N : Expr → Prop) (O : Objects) (x : EmitM α) (nodes : List Expr) : Prop :=
  ∀ ⦃s a s'⦄, s.Drafting → Ends x s (.ok a) s' → ∃ L, Explanation t N O s L nodes s'

namespace Explains

variable {t : TypeTable} {N : Expr → Prop} {O : Objects} {nodes nodes' : List Expr} {x : EmitM α} {f : α → EmitM β}

theorem throw (e : Fault) : Explains t N O (throw e : EmitM α) nodes := by
  intro s a s' _ h
  cases (Ends.throw_iff.1 h).1

theorem of_passive (hx : Passive x) : Explains t N O x [] := by
  intro s a s' hs h
  obtain ⟨I, hI, hquiet⟩ := hx hs h
  exact ⟨_, .compute hI hquiet⟩

/-- What was to be initialized before still is. -/
theorem bind (hx : Explains t N O x nodes) (hf : ∀ a O', O ≤ O' → Explains t N O' (f a) nodes') :
    Explains t N O (x >>= f) (nodes ++ nodes') := by
  intro s b s' hs h
  obtain ⟨a, s₁, h₁, h₂⟩ := Ends.bind_ok_iff.1 h
  obtain ⟨L, hL⟩ := hx hs h₁
  obtain ⟨L', hL'⟩ := hf a (Receives t N O (L.map (·.instr))) (fun _ _ _ => .object) hL.ledger.writes.drafting h₂
  exact ⟨L ++ L', hL.append hL'⟩

theorem bind_passive (hx : Explains t N O x nodes) (hf : ∀ a, Passive (f a)) : Explains t N O (x >>= f) nodes := by
  have h := hx.bind fun a O' _ => of_passive (t := t) (N := N) (O := O') (hf a)
  rwa [List.append_nil] at h

theorem passive_bind (hx : Passive x) (hf : ∀ a O', O ≤ O' → Explains t N O' (f a) nodes) :
    Explains t N O (x >>= f) nodes := (of_passive hx).bind hf

theorem lift_bind {y : Except Fault α} (hf : ∀ a, y = .ok a → Explains t N O (f a) nodes) :
    Explains t N O (liftM y >>= f) nodes := by
  intro s b s' hs h
  obtain ⟨a, s₁, h₁, h₂⟩ := Ends.bind_ok_iff.1 h
  obtain ⟨hy, rfl⟩ := Ends.lift_iff.1 h₁
  exact hf a hy.symm hs h₂

/-- The value of the first part is the address of an object to be initialized. -/
theorem locates_bind {Q : List Instr → Value → Prop} {x : EmitM Value} {f : Value → EmitM β} {e : Expr} {ty : TypeId}
    (hx : Locates Q x) (hQ : ∀ I v, Q I v → Receives t N O I v e ty)
    (hf : ∀ v O', O ≤ O' → O' v e ty → Explains t N O' (f v) nodes) : Explains t N O (x >>= f) nodes := by
  intro s b s' hs h
  obtain ⟨v, s₁, h₁, h₂⟩ := Ends.bind_ok_iff.1 h
  obtain ⟨I, hI, hquiet, hv⟩ := hx hs h₁
  have hL : Explanation t N O s (I.map (⟨.compute, ·⟩)) [] s₁ := .compute hI hquiet
  have hmap : (I.map (⟨.compute, ·⟩ : Instr → Attributed)).map (·.instr) = I := by simp [Function.comp_def]
  obtain ⟨L', hL'⟩ := hf v (Receives t N O I) (fun _ _ _ => .object) (hQ I v hv) hI.drafting h₂
  exact ⟨_ ++ L', hL.append (by rwa [hmap])⟩

theorem ite {p : Prop} [Decidable p] {x y : EmitM α} (hx : p → Explains t N O x nodes)
    (hy : ¬ p → Explains t N O y nodes) : Explains t N O (if p then x else y) nodes := by
  split
  · exact hx ‹p›
  · exact hy ‹¬ p›

end Explains

end TypedCore
