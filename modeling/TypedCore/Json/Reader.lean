import TypedCore.Json.Basic

/-!
# Reading JSON

A reader for exactly one JSON value with blanks around it. It accepts the strict grammar: no
comments, no trailing commas, no leading zeros, no control characters inside strings.
-/

namespace TypedCore.Json

def isBlank (c : Char) : Bool := c == ' ' || c == '\t' || c == '\n' || c == '\r'

def skipBlanks (s : List Char) : List Char := s.dropWhile isBlank

/-! ### Strings -/

/-- What stands in a string: a character, or a 16-bit unit written as a hexadecimal escape. -/
inductive Piece where
  | char (c : Char)
  | unit (n : Nat)

def hexValue? (c : Char) : Option Nat :=
  if c.isDigit then some (c.toNat - '0'.toNat)
  else if 'a' ≤ c && c ≤ 'f' then some (c.toNat - 'a'.toNat + 10)
  else if 'A' ≤ c && c ≤ 'F' then some (c.toNat - 'A'.toNat + 10)
  else none

def hexUnit? (digits : List Char) : Option Nat :=
  (digits.mapM hexValue?).map fun ds => ds.foldl (fun n d => 16 * n + d) 0

/-- The character that a one-letter escape means. -/
def escaped? : Char → Option Char
  | '"' => some '"'
  | '\\' => some '\\'
  | '/' => some '/'
  | 'b' => some (Char.ofNat 8)
  | 'f' => some (Char.ofNat 12)
  | 'n' => some '\n'
  | 'r' => some '\r'
  | 't' => some '\t'
  | _ => none

/-- The pieces of a string up to its closing quote, and what follows the quote. -/
def pieces? : List Char → Option (List Piece × List Char)
  | [] => none
  | '"' :: rest => some ([], rest)
  | '\\' :: 'u' :: a :: b :: c :: d :: rest => do
    let n ← hexUnit? [a, b, c, d]
    let (ps, rest) ← pieces? rest
    some (.unit n :: ps, rest)
  | '\\' :: e :: rest => do
    let c ← escaped? e
    let (ps, rest) ← pieces? rest
    some (.char c :: ps, rest)
  | c :: rest =>
    if c.toNat < 32 then
      none
    else do
      let (ps, rest) ← pieces? rest
      some (.char c :: ps, rest)

def isHighSurrogate (n : Nat) : Bool := 0xD800 ≤ n && n < 0xDC00

def isLowSurrogate (n : Nat) : Bool := 0xDC00 ≤ n && n < 0xE000

/-- The characters that the pieces denote: two units that form a surrogate pair are one character,
and a surrogate without its partner denotes none. -/
def chars? : List Piece → Option (List Char)
  | [] => some []
  | .char c :: rest => (c :: ·) <$> chars? rest
  | .unit h :: .unit l :: rest =>
    if isHighSurrogate h then
      if isLowSurrogate l then
        (Char.ofNat (0x10000 + (h - 0xD800) * 0x400 + (l - 0xDC00)) :: ·) <$> chars? rest
      else none
    else if isLowSurrogate h then none
    else (Char.ofNat h :: ·) <$> chars? (.unit l :: rest)
  | .unit n :: rest =>
    if isHighSurrogate n || isLowSurrogate n then none
    else (Char.ofNat n :: ·) <$> chars? rest

/-- A string after its opening quote. -/
def stringTail? (s : List Char) : Option (Text × List Char) :=
  (pieces? s).map fun (ps, rest) => ((chars? ps).map String.ofList, rest)

/-! ### Numbers -/

def digits (s : List Char) : List Char × List Char := s.span Char.isDigit

/-- A run of at least one digit. -/
def digits1? (s : List Char) : Option (List Char × List Char) :=
  match digits s with
  | ([], _) => none
  | found => some found

/-- The part before the point: a zero alone, or digits that start with another. -/
def whole? : List Char → Option (List Char × List Char)
  | '0' :: rest => some (['0'], rest)
  | s => digits1? s

def fraction? : List Char → Option (List Char × List Char)
  | '.' :: rest => (digits1? rest).map fun (ds, rest) => ('.' :: ds, rest)
  | s => some ([], s)

def sign : List Char → List Char × List Char
  | '+' :: rest => (['+'], rest)
  | '-' :: rest => (['-'], rest)
  | s => ([], s)

def exponent? : List Char → Option (List Char × List Char)
  | c :: rest =>
    if c == 'e' || c == 'E' then
      let (sgn, rest) := sign rest
      (digits1? rest).map fun (ds, rest) => (c :: sgn ++ ds, rest)
    else some ([], c :: rest)
  | [] => some ([], [])

def number? (s : List Char) : Option (String × List Char) := do
  let (minus, s) := match s with
    | '-' :: rest => (['-'], rest)
    | s => ([], s)
  let (w, s) ← whole? s
  let (f, s) ← fraction? s
  let (e, s) ← exponent? s
  some (String.ofList (minus ++ w ++ f ++ e), s)

/-! ### Values -/

mutual

/-- A value and the text after it. Two calls in a row read a character, so fuel above twice the
length of the text is never used up. -/
def value? : Nat → List Char → Option (Json × List Char)
  | 0, _ => none
  | fuel + 1, s =>
    match skipBlanks s with
    | 'n' :: 'u' :: 'l' :: 'l' :: rest => some (.null, rest)
    | 't' :: 'r' :: 'u' :: 'e' :: rest => some (.bool true, rest)
    | 'f' :: 'a' :: 'l' :: 's' :: 'e' :: rest => some (.bool false, rest)
    | '"' :: rest => (stringTail? rest).map fun (text, rest) => (.string text, rest)
    | '[' :: rest =>
      match skipBlanks rest with
      | ']' :: rest => some (.array [], rest)
      | rest => (items? fuel rest).map fun (items, rest) => (.array items, rest)
    | '\x7b' :: rest =>
      match skipBlanks rest with
      | '\x7d' :: rest => some (.object [], rest)
      | rest => (fields? fuel rest).map fun (fields, rest) => (.object fields, rest)
    | s => (number? s).map fun (literal, rest) => (.number literal, rest)

/-- The items of an array up to its closing bracket. -/
def items? : Nat → List Char → Option (List Json × List Char)
  | 0, _ => none
  | fuel + 1, s => do
    let (item, s) ← value? fuel s
    match skipBlanks s with
    | ',' :: rest =>
      let (items, rest) ← items? fuel rest
      some (item :: items, rest)
    | ']' :: rest => some ([item], rest)
    | _ => none

/-- The fields of an object up to its closing brace. -/
def fields? : Nat → List Char → Option (List (Text × Json) × List Char)
  | 0, _ => none
  | fuel + 1, s =>
    match skipBlanks s with
    | '"' :: rest => do
      let (key, s) ← stringTail? rest
      match skipBlanks s with
      | ':' :: rest => do
        let (value, s) ← value? fuel rest
        match skipBlanks s with
        | ',' :: rest =>
          let (fields, rest) ← fields? fuel rest
          some ((key, value) :: fields, rest)
        | '\x7d' :: rest => some ([(key, value)], rest)
        | _ => none
      | _ => none
    | _ => none

end

/-- The value that a text consists of. -/
def parse? (text : String) : Option Json := do
  let s := text.toList
  let (j, rest) ← value? (2 * s.length + 2) s
  if (skipBlanks rest).isEmpty then some j else none

end TypedCore.Json
