import TypedCore.Proofs.Emitter.Function
import TypedCore.Proofs.Emitter.Origins
import TypedCore.Proofs.Typing.Coherent

/-!
# Effects happen once

The effects of an expression are its calls, assignments and steps, but for those inside of a part whose value is
known; a proxy has those of its target once more. The code for an expression has exactly these effects, in the order in
which their operands are computed, whether it is for the value, for the address, for a jump, or to initialize an
object. The proof is by induction on the expression (`lower_explained`).
-/

namespace TypedCore

open Ir Lowering

namespace Expr

mutual

/-- The calls, assignments and steps of an expression that are not part of a known value, in the order in which they
happen. What a name is bound to is not part of the expression. -/
@[simp] def effects (t : TypeTable) : Expr → List Expr
  | literal .. | identifier .. => []
  | proxy target note => if (proxy target note).isConstant t then [] else effects t target
  | unary op child note =>
    if (unary op child note).isConstant t then []
    else effects t child ++ if op.isIncrement || op.isDecrement then [unary op child note] else []
  | binary op left right note =>
    if (binary op left right note).isConstant t then []
    else effects t left ++ (effects t right ++ if op.isAssignment then [binary op left right note] else [])
  | conditional cond thenExpr elseExpr note =>
    if (conditional cond thenExpr elseExpr note).isConstant t then []
    else effects t cond ++ (effects t thenExpr ++ effects t elseExpr)
  | call callee args note => effects t callee ++ (effectsAll t args ++ [call callee args note])
  | member object _ _ _ => effects t object
  | aggregate elements note => if (aggregate elements note).isConstant t then [] else effectsAll t elements

@[simp] def effectsAll (t : TypeTable) : List Expr → List Expr
  | [] => []
  | e :: rest => effects t e ++ effectsAll t rest

end

variable {t : TypeTable}

theorem effects_of_constant {e : Expr} {c : Constant} (h : e.constant? t = some c) : e.effects t = [] := by
  cases e with
  | literal | identifier => simp
  | call | member => simp [constant?] at h
  | proxy | unary | binary | conditional | aggregate => simp [isConstant, h]

theorem effectsAll_of_constants : ∀ {es : List Expr} {cs : List Constant}, constants? t es = some cs →
    effectsAll t es = []
  | [], _, _ => by simp
  | e :: es, cs, h => by
    simp only [constants?, Option.bind_eq_bind, Option.bind_eq_some_iff] at h
    obtain ⟨c, hc, cs', hcs, -⟩ := h
    simp [effects_of_constant hc, effectsAll_of_constants hcs]

theorem effects_proxy (target : Expr) (note : Note) : (proxy target note).effects t = target.effects t := by
  rw [effects]
  split
  · rename_i h
    obtain ⟨c, hc⟩ := Option.isSome_iff_exists.1 h
    rw [effects_of_constant (e := target) (by simpa [constant?] using hc)]
  · rfl

theorem constant?_step {op : UnaryOp} (hop : (op.isIncrement || op.isDecrement) = true) (child : Expr) (note : Note) :
    (unary op child note).constant? t = none := by
  rw [constant?]
  cases child.constant? t with
  | none => rfl
  | some c => cases op <;> first | rfl | cases hop

/-- The operand of what is known is known. -/
theorem effects_unary {op : UnaryOp} (hop : (op.isIncrement || op.isDecrement) = false) (child : Expr) (note : Note) :
    (unary op child note).effects t = child.effects t := by
  cases h : (unary op child note).constant? t with
  | none => simp [isConstant, h, hop]
  | some c =>
    rw [effects_of_constant h]
    simp only [constant?, Option.bind_eq_bind, Option.bind_eq_some_iff] at h
    obtain ⟨c', hc', -⟩ := h
    exact (effects_of_constant hc').symm

theorem effects_step {op : UnaryOp} (hop : (op.isIncrement || op.isDecrement) = true) (child : Expr) (note : Note) :
    (unary op child note).effects t = child.effects t ++ [unary op child note] := by
  simp [isConstant, constant?_step hop, hop]

theorem effects_binary {op : BinaryOp} (hop : op.isAssignment = false) (left right : Expr) (note : Note) :
    (binary op left right note).effects t = left.effects t ++ right.effects t := by
  cases h : (binary op left right note).constant? t with
  | none => simp [isConstant, h, hop]
  | some c =>
    rw [effects_of_constant h, constant?] at *
    split at h
    · cases h
    · simp only [Option.bind_eq_bind, Option.bind_eq_some_iff] at h
      obtain ⟨a, ha, b, hb, -⟩ := h
      rw [effects_of_constant ha, effects_of_constant hb, List.nil_append]

theorem effects_assignment {op : BinaryOp} (hop : op.isAssignment = true) (left right : Expr) (note : Note) :
    (binary op left right note).effects t = left.effects t ++ right.effects t ++ [binary op left right note] := by
  simp [isConstant, constant?, hop]

theorem effects_aggregate (elements : List Expr) (note : Note) :
    (aggregate elements note).effects t = effectsAll t elements := by
  rw [effects]
  split
  · rename_i hc
    simp only [isConstant, constant?, Option.isSome_map] at hc
    obtain ⟨cs, hcs⟩ := Option.isSome_iff_exists.1 hc
    exact (effectsAll_of_constants hcs).symm
  · rfl

/-- Expressions in braces have the effects of their elements. -/
theorem effects_braces : ∀ {e : Expr} {es : List Expr}, e.braces? t = some es → e.effects t = effectsAll t es
  | aggregate elements note, es, h => by
    cases h
    exact effects_aggregate elements note
  | proxy target note, es, h => by
    rw [effects_proxy]
    exact effects_braces h
  | unary op child note, es, h => by
    cases op with
    | cast =>
      rw [effects_unary rfl]
      rw [braces?] at h
      split at h
      · cases h
      · exact effects_braces h
    | _ => simp [braces?] at h
  | literal .., _, h | identifier .., _, h | binary .., _, h | conditional .., _, h | call .., _, h
  | member .., _, h => by
    simp [braces?] at h

end Expr

/-! ### Initializers -/

namespace Lowering

open Expr

variable {t : TypeTable} {N : Expr → Prop} {O : Objects} {e child left right : Expr} {note : Note}

theorem elements_ofNode {value address : EmitM Value} {branch : LabelId → LabelId → EmitM Unit}
    {elements : Option (List (Value → TypeId → EmitM Unit))} :
    (Code.ofNode t e value address branch elements).elements = elements := by
  unfold Code.ofNode
  split <;> rfl

/-- The code for elements in braces is that of the elements. -/
theorem elements_lower (t : TypeTable) : ∀ e : Expr,
    (lower t e).elements = (e.braces? t).map fun es => (lowerAll t es).map (·.init)
  | .aggregate .. => by
    rw [lower, aggregateCode, elements_ofNode]
    rfl
  | .literal value _ => by
    cases value <;> exact elements_ofNode
  | .identifier _ _ storage _ _ => by
    rw [lower, identifierCode]
    split <;> exact elements_ofNode
  | .proxy target _ => by
    rw [lower, proxyCode, elements_ofNode, elements_lower t target]
    rfl
  | .unary op child _ => by
    cases op with
    | cast =>
      rw [lower, unaryCode, castCode, elements_ofNode, elements_lower t child, braces?]
      split <;> rfl
    | _ => exact elements_ofNode
  | .binary op _ _ _ => by cases op <;> exact elements_ofNode
  | .conditional .. | .call .. | .member .. => elements_ofNode

/-- The code that initializes an object by `e` has the effects of `e`. -/
def InitExplained (t : TypeTable) (N : Expr → Prop) (e : Expr) : Prop :=
  ∀ O v ty, O v e ty → Explains t N O ((lower t e).init v ty) (e.effects t)

/-- A value is put into an object. -/
theorem initValue_explains (hv : ∀ O, Explains t N O (loadValue t e) (e.effects t)) {v : Value} {ty : TypeId}
    (hO : O v e ty) : Explains t N O (initValue t (loadValue t e) v ty) (e.effects t) := by
  unfold initValue
  refine .lift_bind fun ir hir s _ s' hs h => ?_
  obtain ⟨value, s₁, h₁, h₂⟩ := Ends.bind_ok_iff.1 h
  obtain ⟨L, hL⟩ := hv O hs h₁
  have hstore : s₁.Writes [.store value v ir] s' := Emit.instr_writes hL.ledger.writes.drafting h₂
  exact ⟨_, hL.init hs (List.append_nil _).symm h₁ hL.ledger.writes nofun hir (.object hO) hstore⟩

/-- The elements of an object are initialized one after the other. Those in `done` have been. -/
theorem initElements_explains {ty : TypeId} {v : Value} {ir : Ty} (hir : t.layout ty = .ok ir)
    (hc : e.constant? t = none) : ∀ (todo done : List Expr) {O : Objects}, e.braces? t = some (done ++ todo) →
    (∀ x ∈ todo, InitExplained t N x) → O v e ty →
    Explains t N O (initElements t ty v done.length ((lowerAll t todo).map (·.init))) (effectsAll t todo)
  | [], _, _, _, _, _ => .of_passive (.pure _)
  | x :: todo, done, O, hes, htodo, hO => by
    refine .lift_bind fun part hpart => .lift_bind fun irPart hirPart => ?_
    have hx : (done ++ x :: todo)[done.length]? = some x := by simp
    have hreceives (I : List Instr) (a : Value) (ha : PartAt t I v ty done.length part a) :
        Receives t N O I a x part := .part (.object hO) hir hc hes hx hpart ha
    refine .locates_bind (.partAddress hirPart ty v done.length) hreceives fun address O₁ h₁ haddress => ?_
    refine .bind (htodo x (by simp) O₁ address part haddress) fun _ O₂ h₂ => ?_
    have hrest := initElements_explains hir hc todo (done ++ [x]) (O := O₂) (by simpa using hes)
      (fun y hy => htodo y (by simp [hy])) (h₂ _ _ _ (h₁ _ _ _ hO))
    rwa [List.length_append, List.length_singleton] at hrest

/-- An object is initialized by elements in braces, and cleared first if some are left out. -/
theorem initAggregate_explains {es : List Expr} (hes : ∀ x ∈ es, InitExplained t N x) {v : Value} {ty : TypeId}
    (hO : O v e ty) (hc : e.constant? t = none) (hbraces : e.braces? t = some es) :
    Explains t N O (initAggregate t ((lowerAll t es).map (·.init)) v ty) (e.effects t) := by
  rw [effects_braces hbraces]
  refine .lift_bind fun ir hir => ?_
  have hrest (O' : Objects) (hO' : O' v e ty) :
      Explains t N O' (initElements t ty v 0 ((lowerAll t es).map (·.init))) (effectsAll t es) :=
    initElements_explains hir hc es [] hbraces hes hO'
  have hclear : Explains t N O (Emit.store (Emit.zero ir) v ir) [] := by
    intro s _ s' hs h
    have hw : s.Writes [.store (Emit.zero ir) v ir] s' := Emit.instr_writes hs h
    have hnil : Explanation t N O s [] [] s := .compute (.refl hs) nofun
    exact ⟨_, hnil.push hw (.clear hir (.object hO))⟩
  refine .ite (fun _ => ?_) fun _ => hrest O hO
  exact hclear.bind fun _ O' h' => hrest O' (h' _ _ _ hO)

/-! ### From the code of the operands -/

/-- All code for an expression has the effects of the expression. -/
structure Explained (t : TypeTable) (N : Expr → Prop) (e : Expr) : Prop where
  value : ∀ O, Explains t N O (loadValue t e) (e.effects t)
  address : ∀ O, Explains t N O (loadAddress t e) (e.effects t)
  branch : ∀ O onTrue onFalse, Explains t N O (branchOn t e onTrue onFalse) (e.effects t)
  init : InitExplained t N e
  parts : ∀ es, e.braces? t = some es → ∀ x ∈ es, InitExplained t N x

theorem branchOnValue_explains {ty : TypeId} {x : EmitM Value} {nodes : List Expr} (hx : Explains t N O x nodes)
    (onTrue onFalse : LabelId) : Explains t N O (branchOnValue t ty x onTrue onFalse) nodes :=
  hx.bind_passive fun v => (Passive.truth t v ty).bind fun _ => .condJump _ _ _

theorem materialize_explains {branch : LabelId → LabelId → EmitM Unit} {nodes : List Expr}
    (hb : ∀ O onTrue onFalse, Explains t N O (branch onTrue onFalse) nodes) :
    Explains t N O (materialize branch) nodes := by
  refine .passive_bind .createLabel fun onTrue O₁ _ => .passive_bind .createLabel fun onFalse O₂ _ =>
    .passive_bind .createLabel fun done O₃ _ => .bind_passive (hb O₃ onTrue onFalse) fun _ => ?_
  exact (Passive.defineLabel _).bind fun _ => (Passive.jump _).bind fun _ => (Passive.defineLabel _).bind fun _ =>
    (Passive.jump _).bind fun _ => (Passive.defineLabel _).bind fun _ => .merge _ _

namespace Explained

/-- It is enough to know what the kind of node does. A known value has no effects. -/
theorem ofNode {value address : EmitM Value} {branch : LabelId → LabelId → EmitM Unit}
    {elements : Option (List (Value → TypeId → EmitM Unit))}
    (hlower : lower t e = Code.ofNode t e value address branch elements)
    (hv : e.constant? t = none → ∀ O, Explains t N O value (e.effects t))
    (ha : ∀ O, Explains t N O address (e.effects t))
    (hb : e.constant? t = none → ∀ O onTrue onFalse, Explains t N O (branch onTrue onFalse) (e.effects t))
    (hparts : ∀ es, e.braces? t = some es → ∀ x ∈ es, InitExplained t N x) : Explained t N e := by
  have helements : elements = (e.braces? t).map fun es => (lowerAll t es).map (·.init) := by
    rw [← elements_lower, hlower, elements_ofNode]
  cases hc : e.constant? t with
  | some c =>
    have hnil := effects_of_constant hc
    simp only [Code.ofNode, hc] at hlower
    have hvalue (O : Objects) : Explains t N O (loadValue t e) (e.effects t) := by
      rw [loadValue, hlower, hnil]
      exact .of_passive (.lift _)
    refine ⟨hvalue, fun O => ?_, fun O onTrue onFalse => ?_, fun O v ty hO => ?_, hparts⟩
    · rw [loadAddress, hlower]
      exact ha O
    · rw [branchOn, hlower, hnil]
      exact .of_passive (.jump _)
    · have hinit : (lower t e).init v ty = initValue t (loadValue t e) v ty := by rw [loadValue, hlower]
      rw [hinit]
      exact initValue_explains hvalue hO
  | none =>
    simp only [Code.ofNode, hc] at hlower
    have hvalue (O : Objects) : Explains t N O (loadValue t e) (e.effects t) := by
      rw [loadValue, hlower]
      exact hv hc O
    refine ⟨hvalue, fun O => ?_, fun O onTrue onFalse => ?_, fun O v ty hO => ?_, hparts⟩
    · rw [loadAddress, hlower]
      exact ha O
    · rw [branchOn, hlower]
      exact hb hc O onTrue onFalse
    · cases hes : e.braces? t with
      | some es =>
        have hinit : (lower t e).init v ty = initAggregate t ((lowerAll t es).map (·.init)) v ty := by
          rw [hlower, helements, hes]
          rfl
        rw [hinit]
        exact initAggregate_explains (hparts es hes) hO hc hes
      | none =>
        have hinit : (lower t e).init v ty = initValue t (loadValue t e) v ty := by
          rw [loadValue, hlower, helements, hes]
          rfl
        rw [hinit]
        exact initValue_explains hvalue hO

theorem ofValue {value : EmitM Value} (hlower : lower t e = Code.ofValue t e value) (hbraces : e.braces? t = none)
    (hv : e.constant? t = none → ∀ O, Explains t N O value (e.effects t)) : Explained t N e :=
  ofNode hlower hv (fun _ => .throw _) (fun hc O _ _ => branchOnValue_explains (hv hc O) _ _)
    fun es hes => by cases hbraces.symm.trans hes

theorem ofBranch {branch : LabelId → LabelId → EmitM Unit} (hlower : lower t e = Code.ofBranch t e branch)
    (hbraces : e.braces? t = none)
    (hb : e.constant? t = none → ∀ O onTrue onFalse, Explains t N O (branch onTrue onFalse) (e.effects t)) :
    Explained t N e :=
  ofNode hlower (fun hc _ => materialize_explains (hb hc)) (fun _ => .throw _) hb
    fun es hes => by cases hbraces.symm.trans hes

theorem ofPlace {address : EmitM Value} (hlower : lower t e = Code.ofPlace t e address) (hbraces : e.braces? t = none)
    (ha : ∀ O, Explains t N O address (e.effects t)) : Explained t N e := by
  have hv (O : Objects) :
      Explains t N O (do let address ← address; Emit.load address (← t.layout e.ty)) (e.effects t) :=
    (ha O).bind_passive fun _ => (Passive.lift _).bind fun _ => .load _ _
  exact ofNode hlower (fun _ => hv) ha (fun _ O _ _ => branchOnValue_explains (hv O) _ _)
    fun es hes => by cases hbraces.symm.trans hes

end Explained

/-- An object without a place is put into a temporary. -/
theorem objectAddress_explains (hN : N e) (h : Explained t N e) (O : Objects) :
    Explains t N O (objectAddress t e (lower t e)) (e.effects t) := by
  unfold objectAddress
  refine .ite (fun _ => h.address O) fun _ => .lift_bind fun ir hir s _ s' hs hx => ?_
  obtain ⟨value, s₁, h₁, hx⟩ := Ends.bind_ok_iff.1 hx
  obtain ⟨slot, s₂, h₂, hx⟩ := Ends.bind_ok_iff.1 hx
  obtain ⟨_, _, h₃, hx⟩ := Ends.bind_ok_iff.1 hx
  obtain ⟨-, rfl⟩ := Ends.pure_iff.1 hx
  obtain ⟨L, hL⟩ := h.value O hs h₁
  obtain ⟨k, rfl, hslot⟩ := Emit.temporary_writes hL.ledger.writes.drafting h₂
  have hstore : s₂.Writes [.store value (.temp k) ir] s' := Emit.instr_writes hslot.drafting h₃
  have hmem : Instr.alloca k ir (.ptr ir) ∈
      (L ++ [⟨.compute, .alloca k ir (.ptr ir)⟩] : List Attributed).map (·.instr) := by simp
  exact ⟨_, (hL.also hslot rfl).init hs List.map_append h₁ hL.ledger.writes (by simp [Instr.acts]) hir
    (.temporary hN hir hmem) hstore⟩

theorem castValue_explains (hN : N child) (h : Explained t N child) (ty : TypeId) (O : Objects) :
    Explains t N O (castValue t child (lower t child) ty) (child.effects t) := by
  unfold castValue
  refine .ite (fun _ => (h.value O).bind_passive fun _ => .truth _ _ _) fun _ =>
    .ite (fun _ => objectAddress_explains hN h O) fun _ => .ite (fun _ => h.value O) fun _ => ?_
  refine (h.value O).bind_passive fun v => (Passive.lift _).bind fun op => ?_
  cases op with
  | some op => exact (Passive.lift _).bind fun _ => .unary _ _ _
  | none => exact .pure _

/-! ### Effects -/

/-- The operand of a step is found once, and changed where it is. -/
theorem stepValue_explains {op : UnaryOp} (hop : (op.isIncrement || op.isDecrement) = true) (h : Explained t N child)
    (O : Objects) :
    Explains t N O (stepValue t op child (lower t child)) (child.effects t ++ [.unary op child note]) := by
  intro s result s' hs hx
  unfold stepValue at hx
  obtain ⟨a, s₁, haddress, hx₁⟩ := Ends.bind_ok_iff.1 hx
  obtain ⟨ir, _, hlayout, hx₂⟩ := Ends.bind_ok_iff.1 hx₁
  obtain ⟨hir, rfl⟩ := Ends.lift_iff.1 hlayout
  obtain ⟨old, s₂, hold, hx₃⟩ := Ends.bind_ok_iff.1 hx₂
  obtain ⟨L, hL⟩ := h.address O hs haddress
  obtain ⟨k, rfl, hload⟩ := Emit.value_writes hL.ledger.writes.drafting hold
  have hstored {i : Instr} {j : TempId} {s₃ : Emitter} (hi : Stepped op k j ir i) (hw : s₂.Writes [i] s₃)
      (hend : Ends (do Emit.store (.temp j) a ir; return if op.isPostfix then .temp k else .temp j) s₃ (.ok result)
        s') :
      ∃ L, Explanation t N O s L (child.effects t ++ [.unary op child note]) s' := by
    obtain ⟨_, _, hstore, hpure⟩ := Ends.bind_ok_iff.1 hend
    obtain ⟨-, rfl⟩ := Ends.pure_iff.1 hpure
    have hlast : s₃.Writes [.store (.temp j) a ir] s' := Emit.instr_writes hw.drafting hstore
    refine ⟨_, ((hL.also hload rfl).also hw hi.acts_eq).perform hs hlast ?_⟩
    simp only [List.map_append, List.map_cons, List.map_nil, List.append_assoc, List.singleton_append]
    exact .step hop haddress hL.ledger.writes hi hir.symm
  simp only at hx₃
  split at hx₃
  · obtain ⟨element, _, htarget, hx₄⟩ := Ends.bind_ok_iff.1 hx₃
    obtain ⟨-, rfl⟩ := Ends.lift_iff.1 htarget
    obtain ⟨new, s₃, hnew, hend⟩ := Ends.bind_ok_iff.1 hx₄
    obtain ⟨j, rfl, hw⟩ := Emit.offset_writes hload.drafting hnew
    exact hstored (.pointer element) hw hend
  · obtain ⟨new, s₃, hnew, hend⟩ := Ends.bind_ok_iff.1 hx₃
    obtain ⟨j, rfl, hw⟩ := Emit.value_writes hload.drafting hnew
    exact hstored .number hw hend

theorem assignValue_explains (hl : Explained t N left) (hr : Explained t N right) (O : Objects) :
    Explains t N O (assignValue t (lower t left) (lower t right) note.ty)
      (left.effects t ++ right.effects t ++ [.binary .assign left right note]) := by
  intro s result s' hs hx
  unfold assignValue at hx
  obtain ⟨a, s₁, haddress, hx₁⟩ := Ends.bind_ok_iff.1 hx
  obtain ⟨v, s₂, hvalue, hx₂⟩ := Ends.bind_ok_iff.1 hx₁
  obtain ⟨ir, _, hlayout, hx₃⟩ := Ends.bind_ok_iff.1 hx₂
  obtain ⟨hir, rfl⟩ := Ends.lift_iff.1 hlayout
  obtain ⟨_, _, hstore, hpure⟩ := Ends.bind_ok_iff.1 hx₃
  obtain ⟨-, rfl⟩ := Ends.pure_iff.1 hpure
  obtain ⟨L, hL⟩ := hl.address O hs haddress
  obtain ⟨L', hL'⟩ := hr.value (Receives t N O (L.map (·.instr))) hL.ledger.writes.drafting hvalue
  refine ⟨_, (hL.append hL').perform hs (Emit.instr_writes hL'.ledger.writes.drafting hstore) ?_⟩
  rw [List.map_append]
  exact .assign haddress hL.ledger.writes hvalue hL'.ledger.writes hir.symm

/-- The destination of a compound assignment is found once, before the other operand is computed. -/
theorem compoundValue_explains {op base : BinaryOp} (hop : op.compoundBase? = some base) (hl : Explained t N left)
    (hr : Explained t N right) (O : Objects) :
    Explains t N O (compoundValue t base left (lower t left) right (lower t right))
      (left.effects t ++ right.effects t ++ [.binary op left right note]) := by
  intro s result s' hs hx
  unfold compoundValue at hx
  obtain ⟨a, s₁, haddress, hx₁⟩ := Ends.bind_ok_iff.1 hx
  obtain ⟨ir, _, hlayout, hx₂⟩ := Ends.bind_ok_iff.1 hx₁
  obtain ⟨hir, rfl⟩ := Ends.lift_iff.1 hlayout
  obtain ⟨old, s₂, hold, hx₃⟩ := Ends.bind_ok_iff.1 hx₂
  obtain ⟨v, s₃, hvalue, hx₄⟩ := Ends.bind_ok_iff.1 hx₃
  obtain ⟨w, s₄, hnew, hx₅⟩ := Ends.bind_ok_iff.1 hx₄
  obtain ⟨_, _, hstore, hpure⟩ := Ends.bind_ok_iff.1 hx₅
  obtain ⟨-, rfl⟩ := Ends.pure_iff.1 hpure
  obtain ⟨L, hL⟩ := hl.address O hs haddress
  obtain ⟨k, rfl, hload⟩ := Emit.value_writes hL.ledger.writes.drafting hold
  have hloaded := hL.also hload rfl
  obtain ⟨L', hL'⟩ := hr.value _ hload.drafting hvalue
  obtain ⟨K, hK, hquiet⟩ := Passive.arithmeticValue _ _ _ _ _ _ _ hL'.ledger.writes.drafting hnew
  have hcomputed := (hloaded.append hL').append (.compute hK hquiet)
  rw [List.append_nil] at hcomputed
  refine ⟨_, hcomputed.perform hs (Emit.instr_writes hK.drafting hstore) ?_⟩
  have hown : Performs t s (.binary op left right note) _ _ :=
    .compound hop haddress hL.ledger.writes hload hvalue hL'.ledger.writes hnew hK hquiet hir.symm
  simpa [Function.comp_def] using hown

theorem valuesOf_explains : ∀ {es : List Expr} {O : Objects}, (∀ x ∈ es, Explained t N x) →
    Explains t N O (valuesOf (lowerAll t es)) (effectsAll t es)
  | [], _, _ => .of_passive (.pure _)
  | x :: es, O, h => by
    refine .bind ((h x (by simp)).value O) fun v O₁ _ => ?_
    exact .bind_passive (valuesOf_explains fun y hy => h y (by simp [hy])) fun _ => .pure _

theorem callValue_explains {args : List Expr} (hcallee : Explained t N child) (hargs : ∀ x ∈ args, Explained t N x)
    (O : Objects) :
    Explains t N O (callValue t (lower t child) (lowerAll t args) note.ty)
      (child.effects t ++ effectsAll t args ++ [.call child args note]) := by
  intro s result s' hs hx
  unfold callValue at hx
  obtain ⟨f, s₁, hf, hx₁⟩ := Ends.bind_ok_iff.1 hx
  obtain ⟨vs, s₂, hvs, hx₂⟩ := Ends.bind_ok_iff.1 hx₁
  obtain ⟨ir, _, hlayout, hx₃⟩ := Ends.bind_ok_iff.1 hx₂
  obtain ⟨hir, rfl⟩ := Ends.lift_iff.1 hlayout
  obtain ⟨r, _, hcall, hpure⟩ := Ends.bind_ok_iff.1 hx₃
  obtain ⟨-, rfl⟩ := Ends.pure_iff.1 hpure
  obtain ⟨L, hL⟩ := hcallee.value O hs hf
  obtain ⟨L', hL'⟩ := valuesOf_explains (O := Receives t N O (L.map (·.instr))) hargs hL.ledger.writes.drafting hvs
  obtain ⟨k, hw⟩ := Emit.call_writes hL'.ledger.writes.drafting hcall
  refine ⟨_, (hL.append hL').perform hs hw ?_⟩
  rw [List.map_append]
  exact .call hf hL.ledger.writes hvs hL'.ledger.writes hir.symm

/-! ### Nodes -/

theorem not_explained (h : Explained t N child) : Explained t N (.unary .logicalNot child note) := by
  have hbranch (O : Objects) (onTrue onFalse : LabelId) :
      Explains t N O ((lower t child).branch onFalse onTrue) (child.effects t) := h.branch O onFalse onTrue
  have heffects : (Expr.unary .logicalNot child note).effects t = child.effects t := effects_unary rfl child note
  rw [← heffects] at hbranch
  refine .ofNode rfl (fun _ O => ?_) (fun _ => .throw _) (fun _ => hbranch) nofun
  refine .ite (fun _ => materialize_explains hbranch) fun _ => ?_
  rw [heffects]
  exact (h.value O).bind_passive fun _ => (Passive.lift _).bind fun _ => (Passive.compare _ _ _).bind fun _ =>
    (Passive.lift _).bind fun _ => .ite (.pure _) (.unary _ _ _)

theorem dereference_explained (h : Explained t N child) : Explained t N (.unary .dereference child note) := by
  have ha (O : Objects) : Explains t N O (lower t child).value (child.effects t) := h.value O
  have heffects : (Expr.unary .dereference child note).effects t = child.effects t := effects_unary rfl child note
  rw [← heffects] at ha
  have hv (O : Objects) : Explains t N O (do
      let address ← (lower t child).value
      if t.isFunction note.ty then return address else Emit.load address (← t.layout note.ty))
      ((Expr.unary .dereference child note).effects t) :=
    (ha O).bind_passive fun _ => .ite (.pure _) ((Passive.lift _).bind fun _ => .load _ _)
  exact .ofNode rfl (fun _ => hv) ha (fun _ O _ _ => branchOnValue_explains (hv O) _ _) nofun

theorem cast_explained (hN : N child) (h : Explained t N child) : Explained t N (.unary .cast child note) := by
  have hv (O : Objects) : Explains t N O (castValue t child (lower t child) note.ty)
      ((Expr.unary .cast child note).effects t) := by
    rw [effects_unary rfl]
    exact castValue_explains hN h _ O
  refine .ofNode rfl (fun _ => hv) (fun _ => .throw _) (fun _ O onTrue onFalse => ?_) fun es hes => ?_
  · split
    · rw [effects_unary rfl]
      exact h.branch O onTrue onFalse
    · exact branchOnValue_explains (hv O) _ _
  · rw [braces?] at hes
    split at hes
    · cases hes
    · exact h.parts es hes

theorem unary_explained (op : UnaryOp) (hN : N child) (h : Explained t N child) :
    Explained t N (.unary op child note) := by
  cases op with
  | cast => exact cast_explained hN h
  | logicalNot => exact not_explained h
  | dereference => exact dereference_explained h
  | explicitCast =>
    refine .ofValue rfl rfl fun _ O => ?_
    rw [effects_unary rfl]
    exact castValue_explains hN h _ O
  | minus =>
    refine .ofValue rfl rfl fun _ O => ?_
    rw [effects_unary rfl]
    exact (h.value O).bind_passive fun _ => (Passive.lift _).bind fun _ => .unary _ _ _
  | addressOf =>
    refine .ofValue rfl rfl fun _ O => ?_
    rw [effects_unary rfl]
    exact h.address O
  | preIncrement | postIncrement | preDecrement | postDecrement =>
    refine .ofValue rfl rfl fun _ O => ?_
    rw [effects_step rfl]
    exact stepValue_explains rfl h O

theorem index_explained (hN : N left) (hl : Explained t N left) (hr : Explained t N right) :
    Explained t N (.binary .index left right note) := by
  refine .ofPlace rfl rfl fun O => ?_
  rw [effects_binary rfl]
  have hend (base : Value) (O' : Objects) : Explains t N O' (do
      let index ← (lower t right).value
      Emit.elementAddress base index (← t.layout note.ty)) (right.effects t) :=
    (hr.value O').bind_passive fun _ => (Passive.lift _).bind fun _ => .elementAddress _ _ _
  refine .ite (fun _ => ?_) fun _ => ?_
  · exact (objectAddress_explains hN hl O).bind fun base O' _ => hend base O'
  · exact (hl.value O).bind fun base O' _ => hend base O'

theorem binary_explained (op : BinaryOp) (hN : N left) (hl : Explained t N left) (hr : Explained t N right) :
    Explained t N (.binary op left right note) := by
  cases op with
  | assign =>
    refine .ofValue rfl rfl fun _ O => ?_
    rw [effects_assignment rfl]
    exact assignValue_explains hl hr O
  | addAssign | subAssign | mulAssign | divAssign | modAssign =>
    refine .ofValue rfl rfl fun _ O => ?_
    rw [effects_assignment rfl]
    exact compoundValue_explains rfl hl hr O
  | add | sub | mul | div | mod =>
    refine .ofValue rfl rfl fun _ O => ?_
    rw [effects_binary rfl]
    exact (hl.value O).bind fun _ O' _ => (hr.value O').bind_passive fun _ => .arithmeticValue _ _ _ _ _ _ _
  | equal | notEqual | less | greater | lessEqual | greaterEqual =>
    refine .ofValue rfl rfl fun _ O => ?_
    rw [effects_binary rfl]
    exact (hl.value O).bind fun _ O' _ => (hr.value O').bind_passive fun _ => .comparisonValue _ _ _ _ _
  | logicalAnd =>
    refine .ofBranch rfl rfl fun _ O onTrue onFalse => ?_
    rw [effects_binary rfl]
    refine .passive_bind .createLabel fun check O₁ _ => (hl.branch O₁ check onFalse).bind fun _ O₂ _ => ?_
    exact .passive_bind (.defineLabel _) fun _ O₃ _ => hr.branch O₃ onTrue onFalse
  | logicalOr =>
    refine .ofBranch rfl rfl fun _ O onTrue onFalse => ?_
    rw [effects_binary rfl]
    refine .passive_bind .createLabel fun check O₁ _ => (hl.branch O₁ onTrue check).bind fun _ O₂ _ => ?_
    exact .passive_bind (.defineLabel _) fun _ O₃ _ => hr.branch O₃ onTrue onFalse
  | index => exact index_explained hN hl hr

theorem member_explained {name : String} {index : Nat} (hN : N child) (h : Explained t N child) :
    Explained t N (.member child name index note) := by
  refine .ofPlace rfl rfl fun O => ?_
  rw [effects]
  exact (objectAddress_explains hN h O).bind_passive fun _ => (Passive.lift _).bind fun _ =>
    (Passive.lift _).bind fun _ => .memberAddress _ _ _

theorem conditional_explained {cond a b : Expr} (hc : Explained t N cond) (ha : Explained t N a)
    (hb : Explained t N b) : Explained t N (.conditional cond a b note) := by
  refine .ofValue rfl rfl fun hnone O => ?_
  rw [effects, if_neg (by simp [isConstant, hnone])]
  refine .passive_bind .createLabel fun onTrue O₁ _ => .passive_bind .createLabel fun onFalse O₂ _ =>
    .passive_bind .createLabel fun done O₃ _ => (hc.branch O₃ onTrue onFalse).bind fun _ O₄ _ => ?_
  refine .passive_bind (.defineLabel _) fun _ O₅ _ => (ha.value O₅).bind fun _ O₆ _ =>
    .passive_bind .currentLabel fun _ O₇ _ => .passive_bind (.jump _) fun _ O₈ _ => ?_
  refine .passive_bind (.defineLabel _) fun _ O₉ _ => (hb.value O₉).bind_passive fun _ =>
    Passive.currentLabel.bind fun _ => (Passive.jump _).bind fun _ => (Passive.defineLabel _).bind fun _ => ?_
  exact .ite (.pure _) ((Passive.lift _).bind fun _ => .merge _ _)

/-- Elements in braces are put into a temporary. -/
theorem aggregate_explained {elements : List Expr} (hN : N (.aggregate elements note))
    (hes : ∀ x ∈ elements, InitExplained t N x) : Explained t N (.aggregate elements note) := by
  have hv (hc : (Expr.aggregate elements note).constant? t = none) (O : Objects) :
      Explains t N O (aggregateValue t (lowerAll t elements) note.ty) ((Expr.aggregate elements note).effects t) := by
    refine .lift_bind fun ir hir => .locates_bind (.temporary hN hir) (fun _ _ h => h) fun slot O' _ hslot => ?_
    exact (initAggregate_explains hes hslot hc rfl).bind_passive fun _ => .load _ _
  refine .ofNode rfl hv (fun _ => .throw _) (fun hc O _ _ => branchOnValue_explains (hv hc O) _ _) fun es h => ?_
  cases h
  exact hes

theorem literal_explained (value : Literal) : Explained t N (.literal value note) := by
  have hknown (hlower : lower t (.literal value note) =
      Code.ofValue t (.literal value note) (loadConstant t (.literal value note))) :
      Explained t N (.literal value note) := by
    refine .ofValue hlower rfl fun _ O => ?_
    rw [effects]
    exact .of_passive (.loadConstant t _)
  cases value with
  | string text =>
    refine .ofPlace rfl rfl fun O => ?_
    rw [effects]
    exact .of_passive (.stringLiteral text)
  | integer | float | bool | nullptr => exact hknown rfl

theorem identifier_explained (name : String) (symbol : SymbolId) (storage : Storage) (bound : Option Expr) :
    Explained t N (.identifier name symbol storage bound note) := by
  have ha (O : Objects) : Explains t N O (Emit.symbolAddress symbol name storage)
      ((Expr.identifier name symbol storage bound note).effects t) := by
    rw [effects]
    exact .of_passive (.symbolAddress symbol name storage)
  by_cases hs : storage = .function
  · refine .ofNode (by rw [lower, identifierCode, if_pos hs]) (fun _ => ha) ha ?_ nofun
    exact fun _ O _ _ => branchOnValue_explains (ha O) _ _
  · exact .ofPlace (by rw [lower, identifierCode, if_neg hs]) rfl ha

mutual

/-- The code for an expression has the effects of the expression. Temporaries are made for its own nodes only. -/
theorem lower_explained : ∀ {e : Expr}, e.All N → Explained t N e
  | .literal value _, _ => literal_explained value
  | .identifier name symbol storage bound _, _ => identifier_explained name symbol storage bound
  | .proxy target note, h => by
    have ht : Explained t N target := lower_explained h.2
    have hv (O : Objects) : Explains t N O (lower t target).value ((Expr.proxy target note).effects t) := by
      rw [effects_proxy]
      exact ht.value O
    refine .ofNode rfl (fun _ => hv) (fun O => ?_) (fun _ O onTrue onFalse => ?_) ht.parts
    · rw [effects_proxy]
      exact ht.address O
    · rw [effects_proxy]
      exact ht.branch O onTrue onFalse
  | .unary op _ _, h => unary_explained op h.2.self (lower_explained h.2)
  | .binary op _ _ _, h => binary_explained op h.2.1.self (lower_explained h.2.1) (lower_explained h.2.2)
  | .conditional .., h =>
    conditional_explained (lower_explained h.2.1) (lower_explained h.2.2.1) (lower_explained h.2.2.2)
  | .call callee args note, h => by
    refine .ofValue rfl rfl fun _ O => ?_
    rw [effects, ← List.append_assoc]
    exact callValue_explains (lower_explained h.2.1) (lowerAll_explained h.2.2) O
  | .member .., h => member_explained h.2.self (lower_explained h.2)
  | .aggregate .., h => aggregate_explained h.1 fun x hx => (lowerAll_explained h.2 x hx).init

theorem lowerAll_explained : ∀ {es : List Expr}, AllOf N es → ∀ x ∈ es, Explained t N x
  | [], _ => List.forall_mem_nil _
  | _ :: _, h => List.forall_mem_cons.2 ⟨lower_explained h.1, lowerAll_explained h.2⟩

end

end Lowering

/-! ### Calls -/

def Ir.Instr.isCall : Instr → Bool
  | .call .. => true
  | _ => false

def Expr.isCall : Expr → Bool
  | .call .. => true
  | _ => false

namespace Tally

/-- Numbers of 32 bits, and functions that return one. -/
def types : TypeM (TypeId × TypeId) := do
  let int ← TypeM.signed 32
  return (int, ← TypeM.function int [] false)

def issued : (TypeId × TypeId) × TypeTable := types (.empty 64)

def int : Note := ⟨issued.1.1, default⟩

def n : Expr := .identifier "n" 1 .automatic none int

/-- `f()` -/
def call : Expr := .call (.identifier "f" 0 .function none ⟨issued.1.2, default⟩) [] int

/-- `n++` -/
def step : Expr := .unary .postIncrement n int

/-- `1 ? 2 : f()`, which is known -/
def known : Expr :=
  .conditional (.literal (.integer 1) int) (.literal (.integer 2) int) call int

/-- `n = f() + (n++ + (1 ? 2 : f()))` -/
def e : Expr := .binary .assign n (.binary .add call (.binary .add step known int) int) int

def params : List Parameter := [⟨1, "n", .i32⟩]

/-- In a function with the parameter `n`. -/
def begun : Emitter := ((Emit.spill 0 params).run.run ((Emitter.new "m").enter "g" .void params false)).2

theorem begun_drafting : begun.Drafting :=
  (Emitter.enter_drafting (Emitter.new "m") "g" .void params false).steps (spill_grows params 0 rfl)

def loaded : Emitter := ((loadValue issued.2 e).run.run begun).2

end Tally

end TypedCore
