/-!
# JSON values

Values of the JSON data format. Numbers keep the form in which they are written, and the fields of
an object keep their order and may repeat a key.
-/

namespace TypedCore

/-- Text of a JSON string. The grammar allows escapes that leave a surrogate unpaired; such a string
has no text. -/
abbrev Json.Text := Option String

inductive Json where
  | null
  | bool (value : Bool)
  | number (literal : String)
  | string (text : Json.Text)
  | array (items : List Json)
  | object (fields : List (Json.Text × Json))
deriving Inhabited

namespace Json

def str (s : String) : Json := .string (some s)

def nat (n : Nat) : Json := .number (toString n)

def int (n : Int) : Json := .number (toString n)

def obj (fields : List (String × Json)) : Json :=
  .object (fields.map fun (key, value) => (some key, value))

/-- `null` stands for what is absent. -/
def option {α : Type} (f : α → Json) : Option α → Json
  | none => .null
  | some a => f a

/-- The first field of an object that has this key. -/
def field? (j : Json) (key : String) : Option Json :=
  match j with
  | .object fields => (fields.find? fun (k, _) => k == some key).map (·.2)
  | _ => none

def string? : Json → Option String
  | .string text => text
  | _ => none

def bool? : Json → Option Bool
  | .bool b => some b
  | _ => none

def array? : Json → Option (List Json)
  | .array items => some items
  | _ => none

/-- Value of a run of decimal digits. -/
def digitsValue (digits : List Char) : Nat :=
  digits.foldl (fun n c => 10 * n + (c.toNat - '0'.toNat)) 0

/-- A number written with digits alone. -/
def nat? : Json → Option Nat
  | .number literal =>
    let digits := literal.toList
    if digits.all Char.isDigit then some (digitsValue digits) else none
  | _ => none

/-- A number written without fraction and exponent. -/
def int? : Json → Option Int
  | .number literal =>
    match literal.toList with
    | '-' :: digits => if digits.all Char.isDigit then some (-(digitsValue digits : Int)) else none
    | digits => if digits.all Char.isDigit then some (digitsValue digits : Int) else none
  | _ => none

/-! ### Fields of a known kind -/

/-- The field of an object, where null stands for what is absent. -/
def present? (j : Json) (key : String) : Option Json :=
  match j.field? key with
  | some .null => none
  | found => found

def stringAt? (j : Json) (key : String) : Option String := (j.field? key).bind string?

def boolAt? (j : Json) (key : String) : Option Bool := (j.field? key).bind bool?

def natAt? (j : Json) (key : String) : Option Nat := (j.field? key).bind nat?

def arrayAt? (j : Json) (key : String) : Option (List Json) := (j.field? key).bind array?

/-! ### Parts are smaller than the whole -/

theorem sizeOf_field? {j v : Json} {key : String} (h : j.field? key = some v) :
    sizeOf v < sizeOf j := by
  cases j with
  | object fields =>
    obtain ⟨⟨k, w⟩, found, rfl⟩ := Option.map_eq_some_iff.1 h
    have := List.sizeOf_lt_of_mem (List.mem_of_find?_eq_some found)
    simp only [Prod.mk.sizeOf_spec, object.sizeOf_spec] at *
    omega
  | _ => simp [field?] at h

theorem sizeOf_arrayAt? {j : Json} {items : List Json} {key : String}
    (h : j.arrayAt? key = some items) : sizeOf items < sizeOf j := by
  obtain ⟨v, found, isArray⟩ := Option.bind_eq_some_iff.1 h
  have := sizeOf_field? found
  cases v <;> simp [array?] at isArray
  subst isArray
  simp only [array.sizeOf_spec] at this
  omega

end Json

end TypedCore
