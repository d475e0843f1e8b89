/-!
# Types of the intermediate representation

Machine types: integers by width, floats, typed pointers, arrays, structs and signatures. They know
neither signs nor const.
-/

namespace TypedCore.Ir

inductive Ty where
  | void
  | i1
  | i8
  | i16
  | i32
  | i64
  | f32
  | f64
  | ptr (target : Ty)
  | array (size : Nat) (element : Ty)
  | function (ret : Ty) (params : List Ty) (variadic : Bool)
  /-- A named struct is written by its name; behind a pointer its fields are left out. -/
  | struct (name : Option String) (fields : List Ty)
  | label
deriving Inhabited

namespace Ty

/-! ### Equality -/

mutual

def beq : Ty → Ty → Bool
  | void, void | i1, i1 | i8, i8 | i16, i16 | i32, i32 | i64, i64 | f32, f32 | f64, f64 => true
  | ptr a, ptr b => beq a b
  | array m a, array n b => m == n && beq a b
  | function r ps v, function s qs w => beq r s && beqAll ps qs && v == w
  | struct m as, struct n bs => m == n && beqAll as bs
  | label, label => true
  | _, _ => false

def beqAll : List Ty → List Ty → Bool
  | [], [] => true
  | a :: as, b :: bs => beq a b && beqAll as bs
  | _, _ => false

end

mutual

theorem eq_of_beq : ∀ a b : Ty, beq a b = true → a = b
  | void, b, h | i1, b, h | i8, b, h | i16, b, h | i32, b, h | i64, b, h | f32, b, h | f64, b, h
  | label, b, h => by cases b <;> simp_all [beq]
  | ptr a, b, h => by
    cases b <;> simp_all [beq]
    exact eq_of_beq _ _ h
  | array m a, b, h => by
    cases b <;> simp_all [beq]
    exact eq_of_beq _ _ h.2
  | function r ps v, b, h => by
    cases b <;> simp_all [beq]
    exact ⟨eq_of_beq _ _ h.1.1, eq_of_beqAll _ _ h.1.2⟩
  | struct m as, b, h => by
    cases b <;> simp_all [beq]
    exact eq_of_beqAll _ _ h.2

theorem eq_of_beqAll : ∀ as bs : List Ty, beqAll as bs = true → as = bs
  | [], bs, h => by cases bs <;> simp_all [beqAll]
  | a :: as, bs, h => by
    cases bs <;> simp_all [beqAll]
    exact ⟨eq_of_beq _ _ h.1, eq_of_beqAll _ _ h.2⟩

end

mutual

theorem beq_self : ∀ a : Ty, beq a a = true
  | void | i1 | i8 | i16 | i32 | i64 | f32 | f64 | label => rfl
  | ptr a => by simp [beq, beq_self a]
  | array _ a => by simp [beq, beq_self a]
  | function r ps _ => by simp [beq, beq_self r, beqAll_self ps]
  | struct _ as => by simp [beq, beqAll_self as]

theorem beqAll_self : ∀ as : List Ty, beqAll as as = true
  | [] => rfl
  | a :: as => by simp [beqAll, beq_self a, beqAll_self as]

end

instance : DecidableEq Ty := fun a b =>
  decidable_of_iff (beq a b = true) ⟨eq_of_beq a b, fun h => h ▸ beq_self a⟩

/-! ### Size and kind -/

/-- The integer type for a width. Widths that the representation does not have take 64 bits. -/
def int (bits : Nat) : Ty :=
  match bits with
  | 1 => i1
  | 8 => i8
  | 16 => i16
  | 32 => i32
  | _ => i64

mutual

/-- Bytes that a value takes up. Fields follow each other without gaps, and a single bit takes up a
byte. -/
def size? : Ty → Option Nat
  | void => none
  | i1 => some 1
  | i8 => some 1
  | i16 => some 2
  | i32 => some 4
  | f32 => some 4
  | i64 => some 8
  | f64 => some 8
  | ptr _ => some 8
  | array n element => element.size?.map (· * n)
  | function .. => none
  | struct _ fields => sizes? fields
  | label => none

def sizes? : List Ty → Option Nat
  | [] => some 0
  | field :: rest => do
    let n ← field.size?
    let m ← sizes? rest
    return n + m

end

/-- Width of integers and floats. -/
def bits? : Ty → Option Nat
  | i1 => some 1
  | i8 => some 8
  | i16 => some 16
  | i32 => some 32
  | f32 => some 32
  | i64 => some 64
  | f64 => some 64
  | _ => none

def isInteger : Ty → Bool
  | i1 | i8 | i16 | i32 | i64 => true
  | _ => false

def isFloat : Ty → Bool
  | f32 | f64 => true
  | _ => false

def isPointer : Ty → Bool
  | ptr _ => true
  | _ => false

/-- What a pointer points to or an array consists of. -/
def element? : Ty → Option Ty
  | ptr target => some target
  | array _ element => some element
  | _ => none

end Ty

end TypedCore.Ir
