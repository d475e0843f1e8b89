import TypedCore.Proofs.Types.Conversions
import TypedCore.Proofs.Typing.Growth

/-!
# Expressions are typed coherently

What the rules make sure of at each node of an expression (`Expr.Ruled`): its type has been issued, and
the types of operands and result fit together, as the rule for its operator says. An expression is
`Coherent` if this holds of all its nodes, the initializers of const variables included. Later types do
not change that, nor the value of an expression.
-/

namespace TypedCore

namespace Expr

/-! ### All nodes of an expression -/

mutual

/-- Every node has the property `P`, those of bound initializers included. -/
def All (P : Expr → Prop) : Expr → Prop
  | literal value note => P (literal value note)
  | identifier name symbol storage none note => P (identifier name symbol storage none note)
  | identifier name symbol storage (some value) note =>
    P (identifier name symbol storage (some value) note) ∧ All P value
  | proxy target note => P (proxy target note) ∧ All P target
  | unary op child note => P (unary op child note) ∧ All P child
  | binary op left right note => P (binary op left right note) ∧ All P left ∧ All P right
  | conditional cond thenExpr elseExpr note =>
    P (conditional cond thenExpr elseExpr note) ∧ All P cond ∧ All P thenExpr ∧ All P elseExpr
  | call callee args note => P (call callee args note) ∧ All P callee ∧ AllOf P args
  | member object name index note => P (member object name index note) ∧ All P object
  | aggregate elements note => P (aggregate elements note) ∧ AllOf P elements

def AllOf (P : Expr → Prop) : List Expr → Prop
  | [] => True
  | e :: es => All P e ∧ AllOf P es

end

mutual

instance decidableAll (P : Expr → Prop) [DecidablePred P] : ∀ e : Expr, Decidable (e.All P)
  | literal value note => inferInstanceAs (Decidable (P (literal value note)))
  | identifier name symbol storage none note =>
    inferInstanceAs (Decidable (P (identifier name symbol storage none note)))
  | identifier _ _ _ (some value) _ =>
    have := decidableAll P value
    inferInstanceAs (Decidable (_ ∧ _))
  | proxy target _ | unary _ target _ | member target _ _ _ =>
    have := decidableAll P target
    inferInstanceAs (Decidable (_ ∧ _))
  | binary _ left right _ =>
    have := decidableAll P left
    have := decidableAll P right
    inferInstanceAs (Decidable (_ ∧ _ ∧ _))
  | conditional cond thenExpr elseExpr _ =>
    have := decidableAll P cond
    have := decidableAll P thenExpr
    have := decidableAll P elseExpr
    inferInstanceAs (Decidable (_ ∧ _ ∧ _ ∧ _))
  | call callee args _ =>
    have := decidableAll P callee
    have := decidableAllOf P args
    inferInstanceAs (Decidable (_ ∧ _ ∧ _))
  | aggregate elements _ =>
    have := decidableAllOf P elements
    inferInstanceAs (Decidable (_ ∧ _))

instance decidableAllOf (P : Expr → Prop) [DecidablePred P] : ∀ es : List Expr, Decidable (AllOf P es)
  | [] => inferInstanceAs (Decidable True)
  | e :: es =>
    have := decidableAll P e
    have := decidableAllOf P es
    inferInstanceAs (Decidable (_ ∧ _))

end

variable {P Q : Expr → Prop}

theorem All.self : ∀ {e : Expr}, e.All P → P e
  | literal .., h => h
  | identifier _ _ _ none _, h => h
  | identifier _ _ _ (some _) _, h => h.1
  | proxy .., h => h.1
  | unary .., h => h.1
  | binary .., h => h.1
  | conditional .., h => h.1
  | call .., h => h.1
  | member .., h => h.1
  | aggregate .., h => h.1

mutual

/-- A property of each node that follows from another one of all nodes below it. -/
theorem All.imp (hPQ : ∀ e : Expr, e.All P → Q e) : ∀ {e : Expr}, e.All P → e.All Q
  | literal .., h => hPQ _ h
  | identifier _ _ _ none _, h => hPQ _ h
  | identifier _ _ _ (some _) _, h => ⟨hPQ _ h, All.imp hPQ h.2⟩
  | proxy .., h => ⟨hPQ _ h, All.imp hPQ h.2⟩
  | unary .., h => ⟨hPQ _ h, All.imp hPQ h.2⟩
  | binary .., h => ⟨hPQ _ h, All.imp hPQ h.2.1, All.imp hPQ h.2.2⟩
  | conditional .., h => ⟨hPQ _ h, All.imp hPQ h.2.1, All.imp hPQ h.2.2.1, All.imp hPQ h.2.2.2⟩
  | call .., h => ⟨hPQ _ h, All.imp hPQ h.2.1, AllOf.imp hPQ h.2.2⟩
  | member .., h => ⟨hPQ _ h, All.imp hPQ h.2⟩
  | aggregate .., h => ⟨hPQ _ h, AllOf.imp hPQ h.2⟩

theorem AllOf.imp (hPQ : ∀ e : Expr, e.All P → Q e) : ∀ {es : List Expr}, AllOf P es → AllOf Q es
  | [], _ => trivial
  | _ :: _, h => ⟨All.imp hPQ h.1, AllOf.imp hPQ h.2⟩

end

theorem allOf_iff {es : List Expr} : AllOf P es ↔ ∀ e ∈ es, e.All P := by
  induction es with
  | nil => simp [AllOf]
  | cons e es ih => simp [AllOf, ih]

mutual

theorem All.forall {ι : Sort*} {R : ι → Expr → Prop} : ∀ {e : Expr}, (∀ i, e.All (R i)) → e.All fun n => ∀ i, R i n
  | literal .., h | identifier _ _ _ none _, h => h
  | identifier _ _ _ (some _) _, h | proxy .., h | unary .., h | member .., h =>
    ⟨fun i => (h i).1, All.forall fun i => (h i).2⟩
  | binary .., h => ⟨fun i => (h i).1, All.forall fun i => (h i).2.1, All.forall fun i => (h i).2.2⟩
  | conditional .., h =>
    ⟨fun i => (h i).1, All.forall fun i => (h i).2.1, All.forall fun i => (h i).2.2.1, All.forall fun i => (h i).2.2.2⟩
  | call .., h => ⟨fun i => (h i).1, All.forall fun i => (h i).2.1, AllOf.forall fun i => (h i).2.2⟩
  | aggregate .., h => ⟨fun i => (h i).1, AllOf.forall fun i => (h i).2⟩

theorem AllOf.forall {ι : Sort*} {R : ι → Expr → Prop} :
    ∀ {es : List Expr}, (∀ i, AllOf (R i) es) → AllOf (fun n => ∀ i, R i n) es
  | [], _ => trivial
  | _ :: _, h => ⟨All.forall fun i => (h i).1, AllOf.forall fun i => (h i).2⟩

end

/-- `x` is `e` or lies within it: what is true of all nodes of `e` is true of all nodes of `x`. -/
def PartOf (x e : Expr) : Prop := ∀ Q : Expr → Prop, e.All Q → x.All Q

namespace PartOf

variable {e x y : Expr}

theorem refl (e : Expr) : e.PartOf e := fun _ h => h

theorem trans (h : x.PartOf y) (h' : y.PartOf e) : x.PartOf e := fun Q hQ => h Q (h' Q hQ)

theorem all (e : Expr) : e.All (·.PartOf e) := All.forall fun _ => All.forall fun hQ => All.imp (fun _ h => h) hQ

end PartOf

/-! ### Values in later tables -/

variable {t t' : TypeTable}

/-- The type of a node has been issued. -/
def InRange (t : TypeTable) (e : Expr) : Prop := t.Has e.ty

end Expr

namespace TypeTable

variable {t t' : TypeTable} {ty src dst : TypeId}

namespace Has

theorem isUnsigned_eq (h : t.Has ty) (ht : t ≤ t') : t'.isUnsigned ty = t.isUnsigned ty := by
  rw [isUnsigned, isUnsigned, h.shape_eq ht]

theorem isPointer_eq (h : t.Has ty) (ht : t ≤ t') : t'.isPointer ty = t.isPointer ty := by
  rw [isPointer, isPointer, h.shape_eq ht]

theorem integerConstant?_eq (h : t.Has ty) (ht : t ≤ t') (v : Int64) :
    t'.integerConstant? ty v = t.integerConstant? ty v := by
  rw [integerConstant?, integerConstant?, h.shape_eq ht]

theorem floatConstant?_eq (h : t.Has ty) (ht : t ≤ t') (v : Float) :
    t'.floatConstant? ty v = t.floatConstant? ty v := by
  rw [floatConstant?, floatConstant?, h.shape_eq ht]

theorem literalConstant?_eq (h : t.Has ty) (ht : t ≤ t') (value : Literal) :
    t'.literalConstant? ty value = t.literalConstant? ty value := by
  cases value <;> simp only [literalConstant?, h.integerConstant?_eq ht, h.floatConstant?_eq ht]

theorem unaryConstant?_eq (hsrc : t.Has src) (hdst : t.Has dst) (ht : t ≤ t') (op : UnaryOp)
    (c : Constant) : t'.unaryConstant? op src dst c = t.unaryConstant? op src dst c := by
  cases op <;> simp only [unaryConstant?, convertConstant?, negateConstant?,
    hdst.integerConstant?_eq ht, hdst.shape_eq ht, hsrc.isUnsigned_eq ht]

theorem comparison?_eq (h : t.Has ty) (ht : t ≤ t') (op : BinaryOp) (a b : Constant) :
    t'.comparison? op ty a b = t.comparison? op ty a b := by
  have horder : t'.compareConstants? ty a b = t.compareConstants? ty a b := by
    cases a <;> cases b <;> simp only [compareConstants?, h.isUnsigned_eq ht]
  simp only [comparison?, horder, h.isPointer_eq ht]

theorem arithmetic?_eq (h : t.Has ty) (ht : t ≤ t') (op : BinaryOp) (a b : Constant) :
    t'.arithmetic? op ty a b = t.arithmetic? op ty a b := by
  cases a <;> cases b <;> simp only [arithmetic?, h.isUnsigned_eq ht, h.integerConstant?_eq ht,
    h.floatConstant?_eq ht]

theorem binaryConstant?_eq (hsrc : t.Has src) (hdst : t.Has dst) (ht : t ≤ t') (op : BinaryOp)
    (a b : Constant) : t'.binaryConstant? op src dst a b = t.binaryConstant? op src dst a b := by
  cases op <;> simp only [binaryConstant?, hsrc.comparison?_eq ht, hdst.arithmetic?_eq ht]

end Has

end TypeTable

namespace Expr

variable {t t' : TypeTable}

mutual

/-- The value of an expression stays the same as types are added. -/
theorem constant?_of_le (ht : t ≤ t') : ∀ {e : Expr}, e.All (InRange t) → e.constant? t' = e.constant? t
  | literal value note, h => by
    simp only [constant?]
    exact TypeTable.Has.literalConstant?_eq h ht value
  | identifier _ _ _ none _, _ => by simp only [constant?]
  | identifier _ _ _ (some value) _, h => by
    simp only [constant?]
    exact constant?_of_le ht h.2
  | proxy target _, h => by
    simp only [constant?]
    exact constant?_of_le ht h.2
  | unary op child note, h => by
    have hchild : t.Has child.ty := h.2.self
    have hty : t.Has note.ty := h.1
    simp only [constant?, constant?_of_le ht h.2, hchild.unaryConstant?_eq hty ht]
  | binary op left right note, h => by
    have hleft : t.Has left.ty := h.2.1.self
    have hty : t.Has note.ty := h.1
    simp only [constant?, constant?_of_le ht h.2.1, constant?_of_le ht h.2.2,
      hleft.binaryConstant?_eq hty ht]
  | conditional cond thenExpr elseExpr _, h => by
    simp only [constant?, constant?_of_le ht h.2.1, constant?_of_le ht h.2.2.1, constant?_of_le ht h.2.2.2]
  | call .., _ => by simp only [constant?]
  | member .., _ => by simp only [constant?]
  | aggregate elements _, h => by simp only [constant?, constants?_of_le ht h.2]

theorem constants?_of_le (ht : t ≤ t') :
    ∀ {es : List Expr}, AllOf (InRange t) es → constants? t' es = constants? t es
  | [], _ => rfl
  | e :: es, h => by simp only [constants?, constant?_of_le ht h.1, constants?_of_le ht h.2]

end

/-! ### Rules -/

/-- What the rules make sure of for an operator with one operand of type `child`. -/
def UnaryRule (t : TypeTable) (op : UnaryOp) (child ty : TypeId) : Prop :=
  match op with
  | .minus => t.shape ty = t.shape child
  | .logicalNot => t.isIntegral child = true → ty = child
  | _ => True

/-- Both operands and the result are of one type, which is that of a number and not const. -/
structure NumberRule (t : TypeTable) (left right ty : TypeId) : Prop where
  operands : t.equals left right = true
  left : t.equals left ty = true
  right : t.equals right ty = true
  number : t.isInteger ty = true ∨ t.isFloat ty = true
  isConst_eq : t.isConst ty = false

/-- Elements are counted from `base` in the size type, and they have a size. -/
structure OffsetRule (t : TypeTable) (base index : TypeId) : Prop where
  index_plain : t.Plain (.integer t.sizeBits false) index
  sized : ∃ target, t.target? base = some target ∧ t.hasSize target = true

/-- What the rules make sure of for the types of an operator with two operands. -/
def BinaryRule (t : TypeTable) (op : BinaryOp) (left right ty : TypeId) : Prop :=
  match op with
  | .add | .sub =>
    (t.isPointer left = false → NumberRule t left right ty) ∧
    (t.isPointer left = true → t.isPointer right = false →
      OffsetRule t left right ∧ t.Plain (t.shape left) ty)
  | .mul | .div | .mod => NumberRule t left right ty
  | .equal | .notEqual | .less | .greater | .lessEqual | .greaterEqual =>
    t.Plain .bool ty ∧ (t.isPointer left = false → t.equals left right = true)
  | .logicalAnd | .logicalOr => t.Plain .bool left ∧ t.Plain .bool right ∧ t.Plain .bool ty
  | .assign => t.isReadOnly left = false ∧ ty = left ∧ t.equals right left = true
  | .addAssign | .subAssign | .mulAssign | .divAssign | .modAssign =>
    t.isReadOnly left = false ∧ ty = left ∧
    (t.isPointer left = false → t.equals right left = true) ∧
    (t.isPointer left = true → OffsetRule t left right)
  | .index => t.target? left = some ty ∧ OffsetRule t left right

/-- What is computed without pointers is computed with numbers. -/
theorem BinaryRule.number {op : BinaryOp} {left right ty : TypeId} (h : BinaryRule t op left right ty)
    (hop : op ∈ [.add, .sub, .mul, .div, .mod]) (hp : t.isPointer left = false) : NumberRule t left right ty := by
  simp only [List.mem_cons, List.not_mem_nil, or_false] at hop
  obtain rfl | rfl | rfl | rfl | rfl := hop
  · exact h.1 hp
  · exact h.1 hp
  · exact h
  · exact h
  · exact h

theorem NumberRule.shapes {left right ty : TypeId} (h : NumberRule t left right ty) :
    t.shape ty = t.shape left ∧ t.shape right = t.shape left ∧ t.isBool left = false := by
  have harith : t.isArithmetic ty = true := by
    rw [TypeTable.isArithmetic, TypeTable.isIntegral, Bool.or_eq_true, Bool.or_eq_true]
    exact h.number.imp_left .inr
  have hleft := TypeTable.shape_of_equals h.left (.inr harith)
  have hright := TypeTable.shape_of_equals h.right (.inr harith)
  refine ⟨hleft.symm, hright.trans hleft.symm, ?_⟩
  rw [TypeTable.isBool, hleft, ← TypeTable.isBool]
  exact TypeTable.isBool_of_number h.number

/-- What the rules make sure of for a choice between values. -/
def ChoiceRule (t : TypeTable) (cond thenTy elseTy ty : TypeId) : Prop :=
  t.Plain .bool cond ∧ t.equals thenTy ty = true ∧ t.equals elseTy ty = true

/-- An argument is of the type of its parameter, or of that array with some dimension if the parameter is
an array without bound. -/
def Takes (t : TypeTable) (param arg : TypeId) : Prop := t.equals arg param = true ∨ ∃ dim, t.Bounds param dim arg

/-- Arguments for parameters, and further ones that are no arrays if the function is variadic. -/
structure ArgumentsRule (t : TypeTable) (params : List TypeId) (variadic : Bool) (args : List TypeId) : Prop where
  length_le : params.length ≤ args.length
  length_eq : variadic = false → args.length = params.length
  fixed : ∀ p ∈ params.zip args, Takes t p.1 p.2
  extra : ∀ a ∈ args.drop params.length, t.isArray a = false

/-- What the rules make sure of for a call: a function is called, and its result is that of the call. -/
def CallRule (t : TypeTable) (callee : TypeId) (args : List TypeId) (ty : TypeId) : Prop :=
  ∃ params variadic, t.shape callee = .function ty params variadic ∧ ArgumentsRule t params variadic args

/-- What the rules make sure of for a member, which is const if its object is. -/
def MemberRule (t : TypeTable) (object : TypeId) (name : String) (index : Nat) (ty : TypeId) : Prop :=
  ∃ ty', t.Has ty' ∧ t.member object name = .ok (index, ty') ∧
    if t.isConst object then t.Qualified ty' true ty else ty = ty'

/-- What the rules make sure of at a node. -/
def Ruled (t : TypeTable) (e : Expr) : Prop :=
  t.Has e.ty ∧ match e with
  | literal (.integer _) note => t.isInteger note.ty = true
  | literal (.bool _) note => t.isBool note.ty = true
  | identifier _ _ _ (some value) note => value.ty = note.ty
  | proxy target note => target.ty = note.ty
  | unary op child note => UnaryRule t op child.ty note.ty
  | binary op left right note => BinaryRule t op left.ty right.ty note.ty ∧
      Typing.isZeroDivision t op ⟨left, right, note.ty⟩ = false
  | conditional cond thenExpr elseExpr note => ChoiceRule t cond.ty thenExpr.ty elseExpr.ty note.ty
  | call callee args note => CallRule t callee.ty (args.map Expr.ty) note.ty
  | member object name index note => MemberRule t object.ty name index note.ty
  | _ => True

/-- The rules are kept at every node. -/
def Coherent (t : TypeTable) (e : Expr) : Prop := e.All (Ruled t)

theorem Coherent.inRange {e : Expr} (h : e.Coherent t) : e.All (InRange t) :=
  All.imp (fun _ h => h.self.1) h

theorem Coherent.has {e : Expr} (h : e.Coherent t) : t.Has e.ty := (All.self h).1

end Expr

namespace TypeTable.Has

variable {t t' : TypeTable} {ty : TypeId}

theorem isBool_eq (h : t.Has ty) (ht : t ≤ t') : t'.isBool ty = t.isBool ty := by
  rw [isBool, isBool, h.shape_eq ht]

theorem isInteger_eq (h : t.Has ty) (ht : t ≤ t') : t'.isInteger ty = t.isInteger ty := by
  rw [isInteger, isInteger, h.shape_eq ht]

theorem isIntegral_eq (h : t.Has ty) (ht : t ≤ t') : t'.isIntegral ty = t.isIntegral ty := by
  rw [isIntegral, isIntegral, h.isBool_eq ht, h.isInteger_eq ht]

theorem isFloat_eq (h : t.Has ty) (ht : t ≤ t') : t'.isFloat ty = t.isFloat ty := by
  rw [isFloat, isFloat, h.shape_eq ht]

theorem isArithmetic_eq (h : t.Has ty) (ht : t ≤ t') : t'.isArithmetic ty = t.isArithmetic ty :=
  isArithmetic_congr (h.shape_eq ht)

end TypeTable.Has

namespace Expr

variable {t t' : TypeTable}

theorem UnaryRule.mono {op : UnaryOp} {child ty : TypeId} (h : UnaryRule t op child ty)
    (hchild : t.Has child) (hty : t.Has ty) (ht : t ≤ t') : UnaryRule t' op child ty := by
  cases op with
  | minus => simpa only [UnaryRule, hchild.shape_eq ht, hty.shape_eq ht] using h
  | logicalNot => simpa only [UnaryRule, hchild.isIntegral_eq ht] using h
  | _ => trivial

theorem NumberRule.mono {left right ty : TypeId} (h : NumberRule t left right ty) (hleft : t.Has left)
    (hright : t.Has right) (hty : t.Has ty) (ht : t ≤ t') : NumberRule t' left right ty where
  operands := (hleft.equals_eq hright ht).trans h.operands
  left := (hleft.equals_eq hty ht).trans h.left
  right := (hright.equals_eq hty ht).trans h.right
  number := by
    rw [hty.isInteger_eq ht, hty.isFloat_eq ht]
    exact h.number
  isConst_eq := (hty.isConst_eq ht).trans h.isConst_eq

theorem OffsetRule.mono {base index : TypeId} (h : OffsetRule t base index) (hbase : t.Has base)
    (hindex : t.Has index) (ht : t ≤ t') : OffsetRule t' base index where
  index_plain := by
    rw [TypeTable.sizeBits_of_le ht]
    exact h.index_plain.mono hindex ht
  sized := by
    obtain ⟨target, htarget, hsize⟩ := h.sized
    exact ⟨target, (hbase.target?_eq ht).trans htarget, (hbase.target htarget).hasSize_of_le ht hsize⟩

theorem BinaryRule.mono {op : BinaryOp} {left right ty : TypeId} (h : BinaryRule t op left right ty)
    (hleft : t.Has left) (hright : t.Has right) (hty : t.Has ty) (ht : t ≤ t') :
    BinaryRule t' op left right ty := by
  have hpointer := hleft.isPointer_eq ht
  cases op with
  | add | sub =>
    refine ⟨fun hp => (h.1 (hpointer ▸ hp)).mono hleft hright hty ht, fun hp hp' => ?_⟩
    obtain ⟨hoffset, hplain⟩ := h.2 (hpointer ▸ hp) (hright.isPointer_eq ht ▸ hp')
    refine ⟨hoffset.mono hleft hright ht, ?_⟩
    rw [hleft.shape_eq ht]
    exact hplain.mono hty ht
  | mul | div | mod => exact NumberRule.mono h hleft hright hty ht
  | equal | notEqual | less | greater | lessEqual | greaterEqual =>
    exact ⟨h.1.mono hty ht, fun hp => (hleft.equals_eq hright ht).trans (h.2 (hpointer ▸ hp))⟩
  | logicalAnd | logicalOr => exact ⟨h.1.mono hleft ht, h.2.1.mono hright ht, h.2.2.mono hty ht⟩
  | assign => exact ⟨(hleft.isReadOnly_eq ht).trans h.1, h.2.1, (hright.equals_eq hleft ht).trans h.2.2⟩
  | addAssign | subAssign | mulAssign | divAssign | modAssign =>
    exact ⟨(hleft.isReadOnly_eq ht).trans h.1, h.2.1,
      fun hp => (hright.equals_eq hleft ht).trans (h.2.2.1 (hpointer ▸ hp)),
      fun hp => (h.2.2.2 (hpointer ▸ hp)).mono hleft hright ht⟩
  | index => exact ⟨(hleft.target?_eq ht).trans h.1, h.2.mono hleft hright ht⟩

theorem ChoiceRule.mono {cond thenTy elseTy ty : TypeId} (h : ChoiceRule t cond thenTy elseTy ty)
    (hcond : t.Has cond) (hthen : t.Has thenTy) (helse : t.Has elseTy) (hty : t.Has ty) (ht : t ≤ t') :
    ChoiceRule t' cond thenTy elseTy ty :=
  ⟨h.1.mono hcond ht, (hthen.equals_eq hty ht).trans h.2.1, (helse.equals_eq hty ht).trans h.2.2⟩

theorem Takes.mono {param arg : TypeId} (h : Takes t param arg) (hparam : t.Has param) (harg : t.Has arg)
    (ht : t ≤ t') : Takes t' param arg :=
  h.imp (fun heq => (harg.equals_eq hparam ht).trans heq) fun ⟨dim, hbounds⟩ =>
    ⟨dim, hbounds.mono hparam harg ht⟩

theorem ArgumentsRule.mono {params args : List TypeId} {variadic : Bool}
    (h : ArgumentsRule t params variadic args) (hparams : ∀ p ∈ params, t.Has p) (hargs : ∀ a ∈ args, t.Has a)
    (ht : t ≤ t') : ArgumentsRule t' params variadic args where
  length_le := h.length_le
  length_eq := h.length_eq
  fixed p hp := by
    obtain ⟨hparam, harg⟩ := List.of_mem_zip hp
    exact (h.fixed p hp).mono (hparams _ hparam) (hargs _ harg) ht
  extra a ha := ((hargs a (List.mem_of_mem_drop ha)).isArray_eq ht).trans (h.extra a ha)

theorem CallRule.mono {callee ty : TypeId} {args : List TypeId} (h : CallRule t callee args ty)
    (hcallee : t.Has callee) (hargs : ∀ a ∈ args, t.Has a) (ht : t ≤ t') : CallRule t' callee args ty := by
  obtain ⟨params, variadic, hs, hrule⟩ := h
  have hparams : ∀ p ∈ params, t.Has p := fun p hp => hcallee.part (by simp [hs, Shape.parts, hp])
  exact ⟨params, variadic, (hcallee.shape_eq ht).trans hs, hrule.mono hparams hargs ht⟩

theorem MemberRule.mono {object ty : TypeId} {name : String} {index : Nat}
    (h : MemberRule t object name index ty) (hobject : t.Has object) (ht : t ≤ t') :
    MemberRule t' object name index ty := by
  obtain ⟨ty', hty', hmember, hflag⟩ := h
  refine ⟨ty', hty'.mono ht, hobject.member_of_le ht hmember, ?_⟩
  rw [hobject.isConst_eq ht]
  by_cases hc : t.isConst object = true
  · rw [if_pos hc] at hflag ⊢
    exact hflag.mono hty' ht
  · rw [if_neg hc] at hflag ⊢
    exact hflag

/-- A division stays one that is not by a known zero. -/
theorem isZeroDivision_of_le (ht : t ≤ t') {op : BinaryOp} {r : Typing.Operands}
    (hl : r.left.All (InRange t)) (hr : r.right.All (InRange t)) :
    Typing.isZeroDivision t' op r = Typing.isZeroDivision t op r := by
  have hright : t.Has r.right.ty := hr.self
  simp only [Typing.isZeroDivision, isConstant, hright.isInteger_eq ht, constant?_of_le ht hl,
    constant?_of_le ht hr]

theorem Coherent.mono {e : Expr} (h : e.Coherent t) (ht : t ≤ t') : e.Coherent t' := by
  refine All.imp (fun e (h : e.Coherent t) => ⟨h.has.mono ht, ?_⟩) h
  have hrule := (All.self h).2
  cases e with
  | literal value note =>
    have hty : t.Has note.ty := h.has
    cases value with
    | integer v => exact (hty.isInteger_eq ht).trans hrule
    | bool b => exact (hty.isBool_eq ht).trans hrule
    | _ => trivial
  | identifier name symbol storage bound note =>
    cases bound with
    | none => trivial
    | some value => exact hrule
  | proxy target note => exact hrule
  | unary op child note => exact UnaryRule.mono hrule (Coherent.has h.2) h.has ht
  | binary op left right note =>
    have hl : left.Coherent t := h.2.1
    have hr : right.Coherent t := h.2.2
    exact ⟨BinaryRule.mono hrule.1 hl.has hr.has h.has ht,
      (isZeroDivision_of_le (r := ⟨left, right, note.ty⟩) ht hl.inRange hr.inRange).trans hrule.2⟩
  | conditional cond thenExpr elseExpr note =>
    exact ChoiceRule.mono hrule (Coherent.has h.2.1) (Coherent.has h.2.2.1) (Coherent.has h.2.2.2) h.has ht
  | call callee args note =>
    refine CallRule.mono hrule (Coherent.has h.2.1) (fun a ha => ?_) ht
    obtain ⟨arg, harg, rfl⟩ := List.mem_map.1 ha
    exact Coherent.has (allOf_iff.1 h.2.2 arg harg)
  | member object name index note => exact MemberRule.mono hrule (Coherent.has h.2) ht
  | aggregate elements note => trivial

end Expr

end TypedCore
