import TypedCore.Json.Basic

/-!
# Values of JSON numbers
-/

namespace TypedCore.Json

/-- Split the literal of a number into whether it is negative, its digits, and the power of ten that
scales them. -/
def scientific (literal : String) : Bool × List Char × Int :=
  let (negative, unsigned) := match literal.toList with
    | '-' :: rest => (true, rest)
    | rest => (false, rest)
  let (whole, rest) := unsigned.span Char.isDigit
  let (fraction, rest) := match rest with
    | '.' :: rest => rest.span Char.isDigit
    | rest => ([], rest)
  let exponent : Int := match rest with
    | _ :: '-' :: digits => -(digitsValue digits : Int)
    | _ :: '+' :: digits => digitsValue digits
    | _ :: digits => digitsValue digits
    | [] => 0
  (negative, whole ++ fraction, exponent - fraction.length)

/-- The nearest floating point number. A zero keeps its sign. -/
def float? : Json → Option Float
  | .number literal =>
    let (negative, digits, scale) := scientific literal
    let magnitude := Float.ofScientific (digitsValue digits) (scale < 0) scale.natAbs
    some (if negative then -magnitude else magnitude)
  | _ => none

end TypedCore.Json
