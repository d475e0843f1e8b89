import TypedCore.Text.Printable

/-!
# Quoted text

A text between double quotes in which every character is visible: the quote, the backslash and the
usual control characters have short escapes, other characters that do not print are written by
their code point.
-/

namespace TypedCore.Text

/-- The code point of a character in lower-case hexadecimal. -/
def codePoint (c : Char) : String :=
  String.ofList (Nat.toDigits 16 c.toNat)

def quotedChar (c : Char) : String :=
  match c with
  | '"' => "\\\""
  | '\\' => "\\\\"
  | '\n' => "\\n"
  | '\r' => "\\r"
  | '\t' => "\\t"
  | c =>
    if c.toNat = 0 then "\\0"
    else if isPrintable c then c.toString
    else "\\u\x7b" ++ codePoint c ++ "\x7d"

def quoted (s : String) : String :=
  "\"" ++ String.join (s.toList.map quotedChar) ++ "\""

end TypedCore.Text
