import Mathlib.Algebra.Group.Int.Defs
import TypedCore.Proofs.Folding.Bits
import TypedCore.Proofs.Session.Elaborated

/-!
# Known values are values of their types

`t.Fits ty c`: the constant `c` is a value of the type `ty`, that is a number of its width, a float, the null
pointer, or as many items at most as there are elements or members, each a value of its type. What is known of an
expression fits its type, with three exceptions (`Expr.Regular`). Braces around the value of a scalar stay in the
constant. A conversion between arrays keeps the items as they are, whatever the elements are converted to. And an
element that is an array without bound has as many items as its braces.
-/

namespace TypedCore

/-- The numbers of a width, as they are kept in 64 bits. -/
def WithinWidth (bits : Nat) (signed : Bool) (v : Int64) : Prop :=
  if signed then -2 ^ (bits - 1) ≤ v.toInt ∧ v.toInt < 2 ^ (bits - 1) else v.toUInt64.toNat < 2 ^ bits

instance (bits : Nat) (signed : Bool) (v : Int64) : Decidable (WithinWidth bits signed v) :=
  inferInstanceAs (Decidable (if signed then _ else _))

theorem withinWidth_wrap (v : Int64) (bits : Nat) (signed : Bool) : WithinWidth bits signed (wrap v bits signed) := by
  by_cases hw : bits ≤ 64
  · rw [wrap_eq_extend hw]
    cases signed with
    | false =>
      show (extend false _).toBitVec.toNat < _
      rw [toNat_extend hw]
      exact BitVec.isLt _
    | true =>
      show _ ∧ _
      rw [toInt_extend hw]
      exact ⟨BitVec.le_toInt _, BitVec.toInt_lt⟩
  · have hwrap : wrap v bits signed = v := if_pos (by omega)
    rw [hwrap]
    cases signed with
    | false => exact Nat.lt_of_lt_of_le v.toUInt64.toNat_lt (Nat.pow_le_pow_right (by decide) (by omega))
    | true =>
      have hpow : (2 ^ 63 : Int) ≤ 2 ^ (bits - 1) := by
        exact_mod_cast Nat.pow_le_pow_right (n := 2) (by decide) (show 63 ≤ bits - 1 by omega)
      exact ⟨by have := v.le_toInt; omega, by have := v.toInt_lt; omega⟩

theorem withinWidth_ofBool {bits : Nat} (hbits : bits ∈ [8, 16, 32, 64]) (signed b : Bool) :
    WithinWidth bits signed (if b then 1 else 0) := by
  simp only [List.mem_cons, List.not_mem_nil, or_false] at hbits
  obtain rfl | rfl | rfl | rfl := hbits
  all_goals
    cases signed <;> cases b <;> decide

namespace TypeTable

/-- A constant is a value of a type. -/
inductive Fits (t : TypeTable) : TypeId → Constant → Prop
  | bool {ty : TypeId} {v : Int64} (hs : t.shape ty = .bool) (hv : v = 0 ∨ v = 1) : Fits t ty (.integer v)
  | integer {ty : TypeId} {bits : Nat} {signed : Bool} {v : Int64} (hs : t.shape ty = .integer bits signed)
      (hv : WithinWidth bits signed v) : Fits t ty (.integer v)
  | float {ty : TypeId} {width : FloatWidth} {v : Float} (hs : t.shape ty = .float width) : Fits t ty (.float v)
  | null {ty : TypeId} {target : Option TypeId} (hs : t.shape ty = .pointer target) : Fits t ty .null
  | array {ty element : TypeId} {dim : Nat} {items : List Constant} (hs : t.shape ty = .array element dim)
      (hlen : items.length ≤ dim) (hitems : ∀ c ∈ items, Fits t element c) : Fits t ty (.aggregate items)
  | struct {ty : TypeId} {id : StructId} {members : List Member} {items : List Constant}
      (hs : t.shape ty = .struct id) (hmembers : (t.struct id).members = some members)
      (hlen : items.length ≤ members.length)
      (hitems : ∀ p ∈ members.zip items, Fits t p.1.ty p.2) : Fits t ty (.aggregate items)

variable {t : TypeTable} {ty src dst a b : TypeId} {c c' : Constant}

theorem shape_eq_of_parts_nil (h : t.equals a b = true) (hparts : (t.shape a).parts = []) :
    t.shape b = t.shape a := by
  rcases equals_cases h with hshape | ⟨x, y, ha, -⟩ | ⟨x, y, n, ha, -⟩ | ⟨r, ps, v, ⟨_, _, _, ha⟩, -⟩
  · exact hshape
  all_goals
    rw [ha] at hparts
    cases hparts

namespace Fits

/-- Only the shape of the type counts. -/
theorem congr (h : t.Fits a c) (hshape : t.shape b = t.shape a) : t.Fits b c := by
  cases h with
  | bool hs hv => exact .bool (hshape.trans hs) hv
  | integer hs hv => exact .integer (hshape.trans hs) hv
  | float hs => exact .float (hshape.trans hs)
  | null hs => exact .null (hshape.trans hs)
  | array hs hlen hitems => exact .array (hshape.trans hs) hlen hitems
  | struct hs hmembers hlen hitems => exact .struct (hshape.trans hs) hmembers hlen hitems

/-- Values of a type are those of every equal one. -/
theorem of_equals (h : t.Fits a c) (heq : t.equals a b = true) : t.Fits b c := by
  induction h generalizing b with
  | @array a element dim items hs hlen hitems ih =>
    rcases equals_cases heq with hshape | ⟨x, y, ha, -⟩ | ⟨x, y, n, ha, hb, hxy⟩ | ⟨r, ps, v, ⟨_, _, _, ha⟩, -⟩
    · exact .array (hshape.trans hs) hlen hitems
    · cases hs.symm.trans ha
    · cases hs.symm.trans ha
      exact .array hb hlen fun c hc => ih c hc hxy
    · cases hs.symm.trans ha
  | @null a target hs =>
    rcases equals_cases heq with hshape | ⟨x, y, -, hb⟩ | ⟨x, y, n, ha, -⟩ | ⟨r, ps, v, ⟨_, _, _, ha⟩, -⟩
    · exact .null (hshape.trans hs)
    · exact .null hb
    · cases hs.symm.trans ha
    · cases hs.symm.trans ha
  | bool hs hv => exact congr (.bool hs hv) (shape_eq_of_parts_nil heq (by rw [hs]; rfl))
  | integer hs hv => exact congr (.integer hs hv) (shape_eq_of_parts_nil heq (by rw [hs]; rfl))
  | float hs => exact congr (.float hs) (shape_eq_of_parts_nil heq (by rw [hs]; rfl))
  | struct hs hmembers hlen hitems =>
    exact congr (.struct hs hmembers hlen hitems) (shape_eq_of_parts_nil heq (by rw [hs]; rfl))

theorem ofBool (b : Bool) (hs : t.shape ty = .bool) : t.Fits ty (.ofBool b) := by
  refine .bool hs ?_
  cases b
  · exact .inl rfl
  · exact .inr rfl

end Fits

/-! ### Deciding -/

mutual

/-- Whether a constant is a value of a type. -/
def fits? (t : TypeTable) (ty : TypeId) : Constant → Bool
  | .integer v =>
    match t.shape ty with
    | .bool => v == 0 || v == 1
    | .integer bits signed => WithinWidth bits signed v
    | _ => false
  | .float _ => t.isFloat ty
  | .null => t.isPointer ty
  | .aggregate items =>
    match t.shape ty with
    | .array element dim => fitEach? t (List.replicate dim element) items
    | .struct id => (t.struct id).members.any fun members => fitEach? t (members.map (·.ty)) items
    | _ => false

/-- Whether there is a type for each constant, and the constant is a value of it. -/
def fitEach? (t : TypeTable) : List TypeId → List Constant → Bool
  | _, [] => true
  | [], _ :: _ => false
  | ty :: types, c :: items => fits? t ty c && fitEach? t types items

end

mutual

theorem fits?_iff : ∀ {ty : TypeId} {c : Constant}, t.fits? ty c = true ↔ t.Fits ty c
  | ty, .integer v => by
    unfold fits?
    constructor
    · intro h
      split at h
      · rename_i hs
        exact .bool hs (by simpa using h)
      · rename_i bits signed hs
        exact .integer hs (by simpa using h)
      · cases h
    · rintro (⟨hs, hv⟩ | ⟨hs, hv⟩)
      · simpa [hs] using hv
      · simpa [hs] using hv
  | ty, .float v => by
    unfold fits? isFloat
    constructor
    · intro h
      split at h
      · rename_i width hs
        exact .float hs
      · cases h
    · intro h
      cases h with
      | float hs => rw [hs]
  | ty, .null => by
    unfold fits?
    rw [isPointer_iff]
    exact ⟨fun ⟨target, hs⟩ => .null hs, fun h => by cases h with | null hs => exact ⟨_, hs⟩⟩
  | ty, .aggregate items => by
    unfold fits?
    constructor
    · intro h
      split at h
      · rename_i element dim hs
        obtain ⟨hlen, hitems⟩ := fitEach?_iff.1 h
        rw [List.length_replicate] at hlen
        refine .array hs hlen fun c hc => ?_
        obtain ⟨i, hi, rfl⟩ := List.getElem_of_mem hc
        refine hitems (element, items[i]) (List.mem_iff_getElem.2 ⟨i, by simp; omega, ?_⟩)
        simp
      · rename_i id hs
        obtain ⟨members, hmembers, h⟩ := (Option.any_eq_true _ _).1 h
        obtain ⟨hlen, hitems⟩ := fitEach?_iff.1 h
        rw [List.length_map] at hlen
        refine .struct hs hmembers hlen fun p hp => hitems (p.1.ty, p.2) ?_
        rw [List.zip_map_left]
        exact List.mem_map_of_mem hp
      · cases h
    · intro h
      cases h with
      | array hs hlen hitems =>
        simp only [hs]
        refine fitEach?_iff.2 ⟨by simpa using hlen, fun p hp => ?_⟩
        obtain ⟨helement, hc⟩ := List.of_mem_zip hp
        rw [List.eq_of_mem_replicate helement]
        exact hitems _ hc
      | struct hs hmembers hlen hitems =>
        simp only [hs, hmembers, Option.any_some]
        refine fitEach?_iff.2 ⟨by simpa using hlen, fun p hp => ?_⟩
        rw [List.zip_map_left] at hp
        obtain ⟨q, hq, rfl⟩ := List.mem_map.1 hp
        exact hitems q hq

theorem fitEach?_iff : ∀ {types : List TypeId} {items : List Constant},
    t.fitEach? types items = true ↔ items.length ≤ types.length ∧ ∀ p ∈ types.zip items, t.Fits p.1 p.2
  | types, [] => by simp [fitEach?]
  | [], c :: items => by simp [fitEach?]
  | ty :: types, c :: items => by
    rw [fitEach?, Bool.and_eq_true, fits?_iff, fitEach?_iff]
    simp only [List.length_cons, Nat.add_le_add_iff_right, List.zip_cons_cons, List.forall_mem_cons]
    exact and_left_comm

end

instance decidableFits (t : TypeTable) (ty : TypeId) (c : Constant) : Decidable (t.Fits ty c) :=
  decidable_of_iff _ fits?_iff

/-! ### Operations on constants -/

theorem integerConstant?_fits {v : Int64} (h : t.integerConstant? ty v = some c) : t.Fits ty c := by
  unfold integerConstant? at h
  split at h
  · rename_i bits signed hs
    cases h
    exact .integer hs (withinWidth_wrap v bits signed)
  · rename_i hs
    cases h
    exact .ofBool _ hs
  · cases h

theorem floatConstant?_fits {v : Float} (h : t.floatConstant? ty v = some c) : t.Fits ty c := by
  unfold floatConstant? at h
  split at h
  · rename_i width hs
    cases h
    exact .float hs
  · cases h

/-- Every value of `f` is one of `g`. -/
def Includes (t : TypeTable) (g f : TypeId) : Prop := ∀ c, t.Fits f c → t.Fits g c

/-- Items of arrays stay as they are. -/
theorem convertConstant?_fits (hc : t.Fits src c) (hcarries : t.Carries src dst)
    (hitems : ∀ f g n, t.shape src = .array f n → t.shape dst = .array g n → t.Includes g f)
    (h : t.convertConstant? src dst c = some c') : t.Fits dst c' := by
  unfold convertConstant? at h
  split at h
  · cases h
  · rename_i hs
    cases h
    exact .ofBool _ hs
  · rename_i v bits signed hs
    cases h
    exact .integer hs (withinWidth_wrap v bits signed)
  · rename_i v bits signed hs
    cases h
    exact .integer hs (withinWidth_wrap _ bits signed)
  · rename_i v width hs
    cases h
    exact .float hs
  · rename_i v width hs
    cases h
    exact .float hs
  · rename_i target hs
    cases h
    exact .null hs
  · rename_i items g n hs
    cases h
    obtain ⟨f, hsrc⟩ := hcarries.array g n hs
    cases hc with
    | array hs' hlen hfits =>
      cases hsrc.symm.trans hs'
      exact .array hs hlen fun c hc => hitems f g n hsrc hs c (hfits c hc)
    | struct hs' => cases hsrc.symm.trans hs'
  · rename_i items id hs
    cases h
    exact hc.congr (hs.trans (hcarries.struct id hs).symm)
  · cases h

theorem negateConstant?_fits (hc : t.Fits src c) (hshape : t.shape ty = t.shape src)
    (h : t.negateConstant? ty c = some c') : t.Fits ty c' := by
  unfold negateConstant? at h
  split at h
  · exact integerConstant?_fits h
  · cases h
    cases hc with
    | float hs => exact .float (hshape.trans hs)
  · cases h

theorem comparison?_fits {op : BinaryOp} {a b : Constant} (hty : t.shape ty = .bool)
    (h : t.comparison? op src a b = some c) : t.Fits ty c := by
  obtain ⟨order, -, h⟩ := Option.bind_eq_some_iff.1 h
  have hordered {r : Bool} (h : (if t.isPointer src then none else some (Constant.ofBool r)) = some c) :
      t.Fits ty c := by
    split at h
    · cases h
    · cases h
      exact .ofBool r hty
  split at h
  · cases h
    exact .ofBool _ hty
  · cases h
    exact .ofBool _ hty
  all_goals exact hordered h

theorem arithmetic?_fits {op : BinaryOp} {a b : Constant} (h : t.arithmetic? op ty a b = some c) : t.Fits ty c := by
  unfold arithmetic? at h
  split at h
  · obtain ⟨v, -, h⟩ := Option.bind_eq_some_iff.1 h
    exact integerConstant?_fits h
  · obtain ⟨v, -, h⟩ := Option.bind_eq_some_iff.1 h
    exact floatConstant?_fits h
  · cases h

theorem unaryConstant?_fits {op : UnaryOp} {child : Expr} (hc : t.Fits child.ty c)
    (hrule : Expr.UnaryRule t op child.ty ty) (hform : Expr.OperandForm t op child ty)
    (hwidth : ∀ bits signed, t.shape ty = .integer bits signed → bits ∈ [8, 16, 32, 64])
    (hitems : op = .cast ∨ op = .explicitCast →
      ∀ f g n, t.shape child.ty = .array f n → t.shape ty = .array g n → t.Includes g f)
    (h : t.unaryConstant? op child.ty ty c = some c') : t.Fits ty c' := by
  cases op with
  | cast => exact convertConstant?_fits hc hform (hitems (.inl rfl)) h
  | explicitCast => exact convertConstant?_fits hc hform (hitems (.inr rfl)) h
  | minus => exact negateConstant?_fits hc hrule h
  | logicalNot =>
    cases h
    rcases hform with hint | hbool
    · obtain rfl : ty = child.ty := hrule hint
      rcases isIntegral_iff.1 hint with hs | ⟨bits, signed, hs⟩
      · exact .ofBool _ hs
      · exact .integer hs (withinWidth_ofBool (hwidth bits signed hs) signed _)
    · exact .ofBool _ (isBool_iff.1 hbool)
  | dereference | addressOf | preIncrement | postIncrement | preDecrement | postDecrement => cases h

theorem binaryConstant?_fits {op : BinaryOp} {left right : TypeId} {a b : Constant}
    (hop : (op.isAssignment || op == .index) = false) (hrule : Expr.BinaryRule t op left right ty)
    (h : t.binaryConstant? op left ty a b = some c) : t.Fits ty c := by
  cases op with
  | logicalAnd | logicalOr =>
    cases h
    exact .ofBool _ hrule.2.2.shape_eq
  | equal | notEqual | less | greater | lessEqual | greaterEqual =>
    simp only [binaryConstant?, BinaryOp.isComparison, if_true] at h
    exact comparison?_fits hrule.1.shape_eq h
  | add | sub | mul | div | mod => exact arithmetic?_fits h
  | assign | addAssign | subAssign | mulAssign | divAssign | modAssign | index => cases hop

end TypeTable

/-! ### Expressions -/

namespace Expr

variable {t : TypeTable}

/-- Whether the type of a node has one of the usual widths, if it is that of an integer. -/
def hasUsualWidth (t : TypeTable) (e : Expr) : Bool :=
  match t.shape e.ty with
  | .integer bits _ => bits ∈ [8, 16, 32, 64]
  | _ => true

/-- Braces are those of a struct or of an array whose elements have a bound, and between arrays only elements
are converted that stay as they are. -/
def Regular (t : TypeTable) : Expr → Prop
  | unary op child note => op = .cast ∨ op = .explicitCast →
      ∀ f g n, t.shape child.ty = .array f n → t.shape note.ty = .array g n → t.Includes g f
  | aggregate _ note =>
    match t.shape note.ty with
    | .array element _ => t.isUnboundArray element = false
    | .struct _ => True
    | _ => False
  | _ => True

/-- What the value of a node is found from. -/
structure Sensible (t : TypeTable) (e : Expr) : Prop where
  ruled : Ruled t e
  formed : Formed t e
  width : e.hasUsualWidth t = true
  regular : Regular t e

/-- A part that is no array without bound gets a value of its type. -/
theorem Takes.fits {part x : TypeId} {c : Constant} (h : Takes t part x) (hpart : t.isUnboundArray part = false)
    (hc : t.Fits x c) : t.Fits part c := by
  rcases h with heq | ⟨dim, element, hs, -⟩
  · exact hc.of_equals heq
  · simp [TypeTable.isUnboundArray, hs] at hpart

theorem isUnboundArray_of_hasSize {ty : TypeId} (h : t.hasSize ty = true) : t.isUnboundArray ty = false := by
  unfold TypeTable.isUnboundArray
  split
  · rename_i element dim hs
    simp only [TypeTable.hasSize_eq t ty, hs, Bool.and_eq_true, decide_eq_true_eq] at h
    exact beq_false_of_ne (Nat.ne_of_gt h.1)
  · rfl

/-- As many values as there are types, each of them one of its type. -/
structure FitEach (t : TypeTable) (types : List TypeId) (items : List Constant) : Prop where
  length_eq : items.length = types.length
  fits : ∀ p ∈ types.zip items, t.Fits p.1 p.2

/-- Values of the elements make up a value of what stands in braces. -/
theorem aggregate_fits {elements : List Expr} {note : Note} {items : List Constant} (hroomy : t.Roomy)
    (hform : BracesRule t note.ty (elements.map Expr.ty)) (hregular : Regular t (.aggregate elements note))
    (hitems : FitEach t (elements.map Expr.ty) items) : t.Fits note.ty (.aggregate items) := by
  generalize elements.map Expr.ty = types at hform hitems
  -- the type of the element that an item is the value of
  have htype {i : Nat} {c : Constant} (hc : items[i]? = some c) : ∃ x, types[i]? = some x ∧ t.Fits x c := by
    obtain ⟨hi, -⟩ := List.getElem?_eq_some_iff.1 hc
    have hi' : i < types.length := hitems.length_eq ▸ hi
    have hx : types[i]? = some types[i] := List.getElem?_eq_getElem hi'
    refine ⟨_, hx, hitems.fits (types[i], c) (List.mem_iff_getElem?.2 ⟨i, ?_⟩)⟩
    exact List.getElem?_zip_eq_some.2 ⟨hx, hc⟩
  unfold BracesRule at hform
  unfold Regular at hregular
  cases hs : t.shape note.ty with
  | array element dim =>
    simp only [hs] at hform hregular
    refine .array hs (hitems.length_eq ▸ hform.1) fun c hc => ?_
    obtain ⟨i, hc⟩ := List.mem_iff_getElem?.1 hc
    obtain ⟨x, hx, hfits⟩ := htype hc
    exact (hform.2 x (List.mem_of_getElem? hx)).fits hregular hfits
  | struct id =>
    simp only [hs] at hform
    obtain ⟨ms, hms, -, hle, htakes⟩ := hform
    refine .struct hs hms (hitems.length_eq ▸ hle) fun p hp => ?_
    obtain ⟨i, hp⟩ := List.mem_iff_getElem?.1 hp
    obtain ⟨hm, hc⟩ := List.getElem?_zip_eq_some.1 hp
    obtain ⟨x, hx, hfits⟩ := htype hc
    have hmem : (p.1.ty, x) ∈ (ms.map (·.ty)).zip types :=
      List.mem_iff_getElem?.2 ⟨i, List.getElem?_zip_eq_some.2 ⟨by simp [hm], hx⟩⟩
    have hsize := hroomy id ms hms p.1 (List.mem_of_getElem? hm)
    exact (htakes _ hmem).fits (isUnboundArray_of_hasSize hsize) hfits
  | _ =>
    simp only [hs] at hregular

mutual

theorem fits_of_sensible (hroomy : t.Roomy) : ∀ {e : Expr} {c : Constant}, e.All (Sensible t) →
    e.constant? t = some c → t.Fits e.ty c
  | literal value note, c, h, hc => by
    have hruled := h.ruled.2
    simp only [constant?] at hc
    cases value with
    | integer v => exact TypeTable.integerConstant?_fits hc
    | float v => exact TypeTable.floatConstant?_fits hc
    | bool b =>
      cases hc
      exact .ofBool b (TypeTable.isBool_iff.1 hruled)
    | nullptr =>
      cases hc
      obtain ⟨target, hs⟩ := TypeTable.isPointer_iff.1 h.formed
      exact .null hs
    | string text => cases hc
  | identifier _ _ _ none _, c, _, hc => by simp [constant?] at hc
  | identifier _ _ _ (some value) note, c, h, hc => by
    simp only [constant?] at hc
    have hty : value.ty = note.ty := h.1.ruled.2
    exact (fits_of_sensible hroomy h.2 hc).congr (congrArg t.shape hty.symm)
  | proxy target note, c, h, hc => by
    simp only [constant?] at hc
    have hty : target.ty = note.ty := h.1.ruled.2
    exact (fits_of_sensible hroomy h.2 hc).congr (congrArg t.shape hty.symm)
  | unary op child note, c, h, hc => by
    simp only [constant?] at hc
    obtain ⟨c', hc', hc⟩ := Option.bind_eq_some_iff.1 hc
    have hwidth := h.1.width
    refine TypeTable.unaryConstant?_fits (fits_of_sensible hroomy h.2 hc') h.1.ruled.2 h.1.formed
      (fun bits signed hs => ?_) h.1.regular hc
    replace hs : t.shape (unary op child note).ty = .integer bits signed := hs
    simpa only [hasUsualWidth, hs, decide_eq_true_eq] using hwidth
  | binary op left right note, c, h, hc => by
    simp only [constant?] at hc
    split at hc
    · cases hc
    · rename_i hop
      obtain ⟨a, -, hc⟩ := Option.bind_eq_some_iff.1 hc
      obtain ⟨b, -, hc⟩ := Option.bind_eq_some_iff.1 hc
      exact TypeTable.binaryConstant?_fits (Bool.eq_false_iff.2 hop) h.1.ruled.2.1 hc
  | conditional cond thenExpr elseExpr note, c, h, hc => by
    simp only [constant?] at hc
    obtain ⟨b, -, hc⟩ := Option.bind_eq_some_iff.1 hc
    obtain ⟨-, hthen, helse⟩ : ChoiceRule t cond.ty thenExpr.ty elseExpr.ty note.ty := h.1.ruled.2
    split at hc
    · exact (fits_of_sensible hroomy h.2.2.1 hc).of_equals hthen
    · exact (fits_of_sensible hroomy h.2.2.2 hc).of_equals helse
  | call .., c, _, hc => by simp [constant?] at hc
  | member .., c, _, hc => by simp [constant?] at hc
  | aggregate elements note, c, h, hc => by
    simp only [constant?] at hc
    obtain ⟨items, hitems, rfl⟩ := Option.map_eq_some_iff.1 hc
    exact aggregate_fits hroomy h.1.formed h.1.regular (all_fit_of_sensible hroomy h.2 hitems)

theorem all_fit_of_sensible (hroomy : t.Roomy) : ∀ {es : List Expr} {cs : List Constant}, AllOf (Sensible t) es →
    constants? t es = some cs → FitEach t (es.map Expr.ty) cs
  | [], cs, _, hcs => by
    cases hcs
    exact ⟨rfl, nofun⟩
  | e :: es, cs, h, hcs => by
    simp only [constants?] at hcs
    obtain ⟨c, hc, hcs⟩ := Option.bind_eq_some_iff.1 hcs
    obtain ⟨cs', hcs', hcs⟩ := Option.bind_eq_some_iff.1 hcs
    cases hcs
    have hrest := all_fit_of_sensible hroomy h.2 hcs'
    exact ⟨congrArg Nat.succ hrest.length_eq, List.forall_mem_cons.2 ⟨fits_of_sensible hroomy h.1 hc, hrest.fits⟩⟩

end

end Expr

/-- Whether a node is regular for the plain reason that elements are converted to elements of the same shape, if
arrays are. -/
def Expr.keepsElements (t : TypeTable) : Expr → Bool
  | unary _ child note =>
    match t.shape child.ty, t.shape note.ty with
    | .array f _, .array g _ => t.shape g == t.shape f
    | _, _ => true
  | aggregate _ note =>
    match t.shape note.ty with
    | .array element _ => !t.isUnboundArray element
    | .struct _ => true
    | _ => false
  | _ => true

theorem Expr.regular_of_keepsElements {t : TypeTable} {e : Expr} (h : e.keepsElements t = true) : e.Regular t := by
  cases e with
  | unary op child note =>
    intro hop f g n hs hs' c hc
    simp only [keepsElements, hs, hs', beq_iff_eq] at h
    exact hc.congr h
  | aggregate elements note =>
    cases hs : t.shape note.ty with
    | array element dim => simpa [keepsElements, Regular, hs] using h
    | struct id => simp only [Regular, hs]
    | _ => simp [keepsElements, hs] at h
  | _ => trivial

/-- What a session knows of an expression is a value of its type: integers are in range, and aggregates have
items that are values of the elements or members, of which there are as many at least. This holds of expressions
all of whose nodes are regular. -/
theorem known_value_fits_type {s : Session} {es : List Expr} (h : s.Reachable es) {e : Expr} (he : e ∈ es)
    (hwidth : e.All fun n => n.hasUsualWidth s.types = true) (hregular : e.All (Expr.Regular s.types)) {c : Constant}
    (hc : e.constant? s.types = some c) : s.types.Fits e.ty c := by
  have helaborated := h.elaborated e he
  obtain ⟨sizeBits, hsteps⟩ := h.steps
  have hsensible : e.All (Expr.Sensible s.types) :=
    Expr.All.imp (fun n hn => ⟨hn.self.1.1, hn.self.1.2, hn.self.2.1, hn.self.2.2⟩)
      ((helaborated.coherent.and helaborated.formed).and (hwidth.and hregular))
  exact Expr.fits_of_sensible (TypeTable.roomy_of_steps hsteps) hsensible hc

namespace Braces

/-- Pairs of numbers, of const numbers and of bytes, and a row of numbers without bound. A pair of numbers is converted
to the other pairs, a number is put in braces, and the pair in a row. -/
def history : Session.History := .run
  [.types [.integer 32 true, .array ⟨0⟩ 2, .const ⟨0⟩, .array ⟨2⟩ 2, .integer 8 false, .array ⟨4⟩ 2, .array ⟨0⟩ 0,
      .array ⟨6⟩ 1],
    .integer 300, .aggregate [0, 0] ⟨1⟩, .implicitCast 1 ⟨3⟩, .implicitCast 1 ⟨5⟩, .aggregate [0] ⟨0⟩,
    .aggregate [1] ⟨7⟩]

def types : TypeTable := history.session.types

/-- `{300, 300}`, as const numbers -/
def kept : Expr := history.expr 2

/-- The pair, converted to bytes. -/
def cut : Expr := history.expr 3

/-- `{300}` for a number -/
def braced : Expr := history.expr 4

/-- `{{300, 300}}` for a row without bound -/
def rows : Expr := history.expr 5

end Braces

open Braces in
/-- The numbers of a pair are values of const numbers too. -/
theorem kept_pair_fits : history.session.Reachable history.exprs ∧ kept ∈ history.exprs ∧
    (kept.All fun n => n.hasUsualWidth types = true) ∧ kept.All (Expr.Regular types) ∧
    ∃ c, kept.constant? types = some c ∧ types.Fits kept.ty c := by
  have hmem : kept ∈ history.exprs := Session.History.expr_mem (by decide +kernel)
  have hwidth : kept.All fun n => n.hasUsualWidth types = true := by decide +kernel
  have hkeeps : kept.All fun n => n.keepsElements types = true := by decide +kernel
  have hregular : kept.All (Expr.Regular types) :=
    Expr.All.imp (fun n hn => Expr.regular_of_keepsElements hn.self) hkeeps
  have hknown : (kept.constant? types).isSome = true := by decide +kernel
  obtain ⟨c, hc⟩ := Option.isSome_iff_exists.1 hknown
  have hreachable : history.session.Reachable history.exprs := Session.History.run_reachable _
  exact ⟨hreachable, hmem, hwidth, hregular, c, hc, known_value_fits_type hreachable hmem hwidth hregular hc⟩

open Braces in
/-- None of these expressions has a value of its type: a number in braces, a pair of numbers that is converted to
bytes, and a row whose only element has no bound. -/
theorem irregular_values_do_not_fit : history.session.Reachable history.exprs ∧
    ∀ e ∈ [braced, cut, rows], e ∈ history.exprs ∧ (e.All fun n => n.hasUsualWidth types = true) ∧
      ∃ c, e.constant? types = some c ∧ ¬ types.Fits e.ty c := by
  refine ⟨Session.History.run_reachable _, fun e he => ⟨?_, ?_, ?_⟩⟩
  · simp only [List.mem_cons, List.not_mem_nil, or_false] at he
    rcases he with rfl | rfl | rfl <;> exact Session.History.expr_mem (by decide +kernel)
  · have hall : ∀ e ∈ [braced, cut, rows], e.All fun n => n.hasUsualWidth types = true := by decide +kernel
    exact hall e he
  · have hall : ∀ e ∈ [braced, cut, rows],
        (e.constant? types).any (fun c => ¬ types.Fits e.ty c) = true := by decide +kernel
    obtain ⟨c, hc, hno⟩ := (Option.any_eq_true _ _).1 (hall e he)
    exact ⟨c, hc, of_decide_eq_true hno⟩

end TypedCore
