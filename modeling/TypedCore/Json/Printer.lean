import TypedCore.Json.Basic

/-!
# JSON text

Two printers: `Json.compact` writes a value without blanks, `Json.pretty` one item to a line with
two blanks to a level. Both keep the order of the fields.
-/

namespace TypedCore.Json

def hexDigit (n : Nat) : Char := Nat.digitChar n

/-- A character inside a string: the quote, the backslash and the control characters are escaped,
all others stand for themselves. -/
def escapeChar (c : Char) : String :=
  match c with
  | '"' => "\\\""
  | '\\' => "\\\\"
  | '\n' => "\\n"
  | '\r' => "\\r"
  | '\t' => "\\t"
  | c =>
    if c.toNat = 8 then "\\b"
    else if c.toNat = 12 then "\\f"
    else if c.toNat < 32 then
      "\\u00" ++ String.ofList [hexDigit (c.toNat / 16), hexDigit (c.toNat % 16)]
    else c.toString

def quote (s : String) : String :=
  "\"" ++ String.join (s.toList.map escapeChar) ++ "\""

/-- A string without text is written as the empty one. -/
def quoteText (text : Text) : String := quote (text.getD "")

mutual

def compact : Json → String
  | .null => "null"
  | .bool true => "true"
  | .bool false => "false"
  | .number literal => literal
  | .string text => quoteText text
  | .array items => "[" ++ ",".intercalate (compactItems items) ++ "]"
  | .object fields => "\x7b" ++ ",".intercalate (compactFields fields) ++ "\x7d"

def compactItems : List Json → List String
  | [] => []
  | item :: rest => item.compact :: compactItems rest

def compactFields : List (Text × Json) → List String
  | [] => []
  | (key, value) :: rest => (quoteText key ++ ":" ++ value.compact) :: compactFields rest

end

/-- The break before an item `level` levels deep. -/
def newline (level : Nat) : String :=
  "\n" ++ String.ofList (List.replicate (2 * level) ' ')

/-- Items between brackets, one to a line; nothing stands between the brackets of an empty list. -/
def block (level : Nat) (opening closing : String) (items : List String) : String :=
  if items.isEmpty then
    opening ++ closing
  else
    opening ++ newline (level + 1) ++ ("," ++ newline (level + 1)).intercalate items
      ++ newline level ++ closing

mutual

/-- A value that stands `level` levels deep. -/
def prettyAt (level : Nat) : Json → String
  | .null => "null"
  | .bool true => "true"
  | .bool false => "false"
  | .number literal => literal
  | .string text => quoteText text
  | .array items => block level "[" "]" (prettyItems (level + 1) items)
  | .object fields => block level "\x7b" "\x7d" (prettyFields (level + 1) fields)

def prettyItems (level : Nat) : List Json → List String
  | [] => []
  | item :: rest => prettyAt level item :: prettyItems level rest

def prettyFields (level : Nat) : List (Text × Json) → List String
  | [] => []
  | (key, value) :: rest =>
    (quoteText key ++ ": " ++ prettyAt level value) :: prettyFields level rest

end

def pretty (j : Json) : String := prettyAt 0 j

end TypedCore.Json
