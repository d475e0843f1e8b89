import TypedCore.Proofs.Folding.Fits
import TypedCore.Proofs.Types.Matrix

/-!
# Kinds of known values

A value that is known is of the kind of its type: a number of the right sort, or the null pointer. Braces are an
exception, since they may stand where a scalar is wanted; `braced` says whether they are allowed for.
-/

namespace TypedCore

/-- A constant is of the kind that a scalar type has values of, or the value of braces. -/
def Constant.Suits (t : TypeTable) (braced : Prop) (ty : TypeId) : Constant → Prop
  | integer _ => t.isIntegral ty = true
  | float _ => t.isFloat ty = true
  | null => t.isPointer ty = true
  | aggregate _ => braced

def Expr.isAggregate : Expr → Bool
  | aggregate .. => true
  | _ => false

namespace Constant.Suits

variable {t : TypeTable} {braced : Prop} {ty src dst a b : TypeId} {c c' : Constant}

theorem congr (h : c.Suits t braced a) (hshape : t.shape b = t.shape a) : c.Suits t braced b := by
  cases c with
  | aggregate items => exact h
  | _ =>
    simpa only [Suits, TypeTable.isIntegral, TypeTable.isBool, TypeTable.isInteger, TypeTable.isFloat,
      TypeTable.isPointer, hshape] using h

/-- Kinds of values are those of every equal type. -/
theorem of_equals (h : c.Suits t braced a) (heq : t.equals a b = true) : c.Suits t braced b := by
  rcases TypeTable.equals_cases heq with hshape | ⟨x, y, ha, hb⟩ | ⟨x, y, n, ha, -⟩ | ⟨r, ps, v, ⟨_, _, _, ha⟩, -⟩
  · exact h.congr hshape
  all_goals
    cases c <;>
    simp_all [Suits, TypeTable.isIntegral, TypeTable.isBool, TypeTable.isInteger, TypeTable.isFloat,
      TypeTable.isPointer]

theorem ofBool (b : Bool) (hs : t.shape ty = .bool) : (Constant.ofBool b).Suits t braced ty :=
  TypeTable.isIntegral_iff.2 (.inl hs)

theorem integerConstant? {v : Int64} (h : t.integerConstant? ty v = some c) : c.Suits t braced ty := by
  unfold TypeTable.integerConstant? at h
  split at h
  · rename_i bits signed hs
    cases h
    exact TypeTable.isIntegral_iff.2 (.inr ⟨bits, signed, hs⟩)
  · rename_i hs
    cases h
    exact ofBool _ hs
  · cases h

theorem floatConstant? {v : Float} (h : t.floatConstant? ty v = some c) : c.Suits t braced ty := by
  unfold TypeTable.floatConstant? at h
  split at h
  · rename_i width hs
    cases h
    exact TypeTable.isFloat_iff.2 ⟨width, hs⟩
  · cases h

theorem convertConstant? (hc : c.Suits t braced src) (h : t.convertConstant? src dst c = some c') :
    c'.Suits t braced dst := by
  unfold TypeTable.convertConstant? at h
  split at h
  · cases h
  · rename_i hs
    cases h
    exact ofBool _ hs
  · rename_i v bits signed hs
    cases h
    exact TypeTable.isIntegral_iff.2 (.inr ⟨bits, signed, hs⟩)
  · rename_i v bits signed hs
    cases h
    exact TypeTable.isIntegral_iff.2 (.inr ⟨bits, signed, hs⟩)
  · rename_i v width hs
    cases h
    exact TypeTable.isFloat_iff.2 ⟨width, hs⟩
  · rename_i v width hs
    cases h
    exact TypeTable.isFloat_iff.2 ⟨width, hs⟩
  · rename_i target hs
    cases h
    exact TypeTable.isPointer_iff.2 ⟨_, hs⟩
  · cases h
    exact hc
  · cases h
    exact hc
  · cases h

theorem negateConstant? (hc : c.Suits t braced src) (hshape : t.shape ty = t.shape src)
    (h : t.negateConstant? ty c = some c') : c'.Suits t braced ty := by
  unfold TypeTable.negateConstant? at h
  split at h
  · exact integerConstant? h
  · cases h
    exact hc.congr hshape
  · cases h

theorem comparison? {op : BinaryOp} {x y : Constant} (hs : t.shape ty = .bool)
    (h : t.comparison? op src x y = some c) : c.Suits t braced ty := by
  have hfits := TypeTable.comparison?_fits hs h
  cases hfits with
  | bool hs _ => exact TypeTable.isIntegral_iff.2 (.inl hs)
  | integer hs' _ | float hs' | null hs' | array hs' _ _ | struct hs' _ _ _ => cases hs.symm.trans hs'

theorem arithmetic? {op : BinaryOp} {x y : Constant} (h : t.arithmetic? op ty x y = some c) : c.Suits t braced ty := by
  unfold TypeTable.arithmetic? at h
  split at h
  · obtain ⟨v, -, h⟩ := Option.bind_eq_some_iff.1 h
    exact integerConstant? h
  · obtain ⟨v, -, h⟩ := Option.bind_eq_some_iff.1 h
    exact floatConstant? h
  · cases h

theorem unaryConstant? {op : UnaryOp} {child : Expr} (hc : c.Suits t braced child.ty)
    (hrule : Expr.UnaryRule t op child.ty ty) (hform : Expr.OperandForm t op child ty)
    (h : t.unaryConstant? op child.ty ty c = some c') : c'.Suits t braced ty := by
  cases op with
  | cast | explicitCast => exact hc.convertConstant? h
  | minus => exact hc.negateConstant? hrule h
  | logicalNot =>
    cases h
    rcases hform with hint | hbool
    · exact (hrule hint).symm ▸ hint
    · exact ofBool _ (TypeTable.isBool_iff.1 hbool)
  | dereference | addressOf | preIncrement | postIncrement | preDecrement | postDecrement => cases h

theorem binaryConstant? {op : BinaryOp} {left right : TypeId} {x y : Constant}
    (hop : (op.isAssignment || op == .index) = false) (hrule : Expr.BinaryRule t op left right ty)
    (h : t.binaryConstant? op left ty x y = some c) : c.Suits t braced ty := by
  cases op with
  | logicalAnd | logicalOr =>
    cases h
    exact ofBool _ hrule.2.2.shape_eq
  | equal | notEqual | less | greater | lessEqual | greaterEqual =>
    simp only [TypeTable.binaryConstant?, BinaryOp.isComparison, if_true] at h
    exact comparison? hrule.1.shape_eq h
  | add | sub | mul | div | mod => exact arithmetic? h
  | assign | addAssign | subAssign | mulAssign | divAssign | modAssign | index => cases hop

end Constant.Suits

namespace Expr

variable {t : TypeTable} {braced : Prop}

/-- What the kind of a value is found from. -/
structure Kinded (t : TypeTable) (braced : Prop) (e : Expr) : Prop where
  ruled : Ruled t e
  formed : Formed t e
  aggregate : e.isAggregate = true → braced

theorem Elaborated.kinded {e : Expr} (he : e.Elaborated t) (hbraced : e.All fun n => n.isAggregate = true → braced) :
    e.All (Kinded t braced) :=
  All.imp (fun _ hn => ⟨hn.self.1.1, hn.self.1.2, hn.self.2⟩) ((he.coherent.and he.formed).and hbraced)

/-- What is known of an expression is of the kind of its type. -/
theorem suits_of_kinded : ∀ {e : Expr} {c : Constant}, e.All (Kinded t braced) → e.constant? t = some c →
    c.Suits t braced e.ty
  | literal value note, c, h, hc => by
    have hruled := h.ruled.2
    simp only [constant?] at hc
    cases value with
    | integer v => exact .integerConstant? hc
    | float v => exact .floatConstant? hc
    | bool b =>
      cases hc
      exact .ofBool b (TypeTable.isBool_iff.1 hruled)
    | nullptr =>
      cases hc
      exact h.formed
    | string text => cases hc
  | identifier _ _ _ none _, c, _, hc => by simp [constant?] at hc
  | identifier _ _ _ (some value) note, c, h, hc => by
    simp only [constant?] at hc
    have hty : value.ty = note.ty := h.1.ruled.2
    exact (suits_of_kinded h.2 hc).congr (congrArg t.shape hty.symm)
  | proxy target note, c, h, hc => by
    simp only [constant?] at hc
    have hty : target.ty = note.ty := h.1.ruled.2
    exact (suits_of_kinded h.2 hc).congr (congrArg t.shape hty.symm)
  | unary op child note, c, h, hc => by
    simp only [constant?] at hc
    obtain ⟨c', hc', hc⟩ := Option.bind_eq_some_iff.1 hc
    exact (suits_of_kinded h.2 hc').unaryConstant? h.1.ruled.2 h.1.formed hc
  | binary op left right note, c, h, hc => by
    simp only [constant?] at hc
    split at hc
    · cases hc
    · rename_i hop
      obtain ⟨a, -, hc⟩ := Option.bind_eq_some_iff.1 hc
      obtain ⟨b, -, hc⟩ := Option.bind_eq_some_iff.1 hc
      exact .binaryConstant? (Bool.eq_false_iff.2 hop) h.1.ruled.2.1 hc
  | conditional cond thenExpr elseExpr note, c, h, hc => by
    simp only [constant?] at hc
    obtain ⟨b, -, hc⟩ := Option.bind_eq_some_iff.1 hc
    obtain ⟨-, hthen, helse⟩ : ChoiceRule t cond.ty thenExpr.ty elseExpr.ty note.ty := h.1.ruled.2
    split at hc
    · exact (suits_of_kinded h.2.2.1 hc).of_equals hthen
    · exact (suits_of_kinded h.2.2.2 hc).of_equals helse
  | call .., c, _, hc => by simp [constant?] at hc
  | member .., c, _, hc => by simp [constant?] at hc
  | aggregate _ _, c, h, hc => by
    simp only [constant?] at hc
    obtain ⟨items, -, hitems⟩ := Option.map_eq_some_iff.1 hc
    cases hitems
    exact h.1.aggregate rfl

/-- Known values of integers are numbers, unless they are in braces. -/
theorem exists_integer {e : Expr} {c : Constant} {bits : Nat} {signed : Bool} (he : e.Elaborated t)
    (hplain : e.All fun n => n.isAggregate = false) (hs : t.shape e.ty = .integer bits signed)
    (hc : e.constant? t = some c) : ∃ v, c = .integer v := by
  have hbraced : e.All fun n => n.isAggregate = true → False := by
    refine All.imp ?_ hplain
    intro n hn h
    exact Bool.false_ne_true (hn.self.symm.trans h)
  have hsuits := suits_of_kinded (he.kinded hbraced) hc
  cases c with
  | integer v => exact ⟨v, rfl⟩
  | float v => simp [Constant.Suits, TypeTable.isFloat, hs] at hsuits
  | null => simp [Constant.Suits, TypeTable.isPointer, hs] at hsuits
  | aggregate items => exact hsuits.elim

/-- Known values of pointers are no numbers. -/
theorem null_or_aggregate {e : Expr} {c : Constant} (he : e.Elaborated t) (hp : t.isPointer e.ty = true)
    (hc : e.constant? t = some c) : c = .null ∨ ∃ items, c = .aggregate items := by
  have hbraced : e.All fun n => n.isAggregate = true → True := by
    refine All.imp ?_ he.coherent
    exact fun _ _ _ => trivial
  have hsuits := suits_of_kinded (he.kinded hbraced) hc
  obtain ⟨target, hs⟩ := TypeTable.isPointer_iff.1 hp
  cases c with
  | integer v => simp [Constant.Suits, TypeTable.isIntegral, TypeTable.isInteger, TypeTable.isBool, hs] at hsuits
  | float v => simp [Constant.Suits, TypeTable.isFloat, hs] at hsuits
  | null => exact .inl rfl
  | aggregate items => exact .inr ⟨items, rfl⟩

end Expr

end TypedCore
