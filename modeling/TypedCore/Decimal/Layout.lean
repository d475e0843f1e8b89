import TypedCore.Decimal.Shortest

/-!
# Decimal text of floating point numbers

How the digits of a finite number are laid out: with a point and at least one digit after it while
the exponent of the leading digit is small, else with an exponent.
-/

namespace TypedCore.Decimal

structure Layout where
  /-- Numbers whose leading digit has an exponent from `plainFrom` up to, but not including,
  `plainBelow` are written without exponent. -/
  plainFrom : Int
  plainBelow : Int
  /-- A positive exponent has a plus sign. -/
  exponentPlus : Bool
  tie : Tie

namespace Layout

def zeros (n : Nat) : String := String.ofList (List.replicate n '0')

/-- The digits with a point after the one with exponent 0; `e` is the exponent of the first. -/
def positional (digits : List Char) (e : Int) : String :=
  if e < 0 then
    "0." ++ zeros (-e - 1).toNat ++ String.ofList digits
  else
    let whole := digits.take (e.toNat + 1)
    let fraction := digits.drop (e.toNat + 1)
    String.ofList whole ++ zeros (e.toNat + 1 - digits.length) ++ "."
      ++ (if fraction.isEmpty then "0" else String.ofList fraction)

def scientific (layout : Layout) (digits : List Char) (e : Int) : String :=
  let fraction := digits.drop 1
  String.ofList (digits.take 1)
    ++ (if fraction.isEmpty then "" else "." ++ String.ofList fraction)
    ++ "e" ++ (if layout.exponentPlus && 0 ≤ e then "+" else "") ++ toString e

/-- A positive decimal whose digits do not end in zero. -/
def decimal (layout : Layout) (d : Numeral) : String :=
  let digits := Nat.toDigits 10 d.digits
  let e := d.exponent + digits.length - 1
  if layout.plainFrom ≤ e && e < layout.plainBelow then
    positional digits e
  else
    layout.scientific digits e

/-- A finite number; the sign of zero is kept. -/
def finite (layout : Layout) (x : Float) : String :=
  let bits := x.toBits
  let sign := if bits >>> 63 == 1 then "-" else ""
  let magnitude := Dyadic.ofBits bits
  sign ++ if magnitude.mantissa = 0 then "0.0"
    else layout.decimal (magnitude.shortest layout.tie)

end Layout

end TypedCore.Decimal
