/-!
# Shortest decimals

`Dyadic.shortest` gives the decimal with the fewest digits that reads back to a binary floating
point number, and of those the nearest to it. All comparisons are made in natural numbers.
-/

namespace TypedCore.Decimal

/-- A positive number `mantissa * 2 ^ exponent` of the binary format with 53 bits. -/
structure Dyadic where
  mantissa : Nat
  exponent : Int
  /-- The gap to the number below is half the gap to the number above. -/
  narrowBelow : Bool

/-- The magnitude that the bits of a finite number denote. -/
def Dyadic.ofBits (bits : UInt64) : Dyadic :=
  let exponent := ((bits >>> 52) &&& 0x7FF).toNat
  let fraction := (bits &&& 0xFFFFFFFFFFFFF).toNat
  if exponent = 0 then
    ⟨fraction, -1074, false⟩
  else
    ⟨0x10000000000000 + fraction, (exponent : Int) - 1075, fraction == 0 && exponent > 1⟩

/-- The number `digits * 10 ^ exponent`. -/
structure Numeral where
  digits : Nat
  exponent : Int
deriving DecidableEq

/-- Which of two equally near decimals is taken. -/
inductive Tie where
  /-- the one with an even last digit -/
  | toEven
  /-- the greater one -/
  | up
deriving DecidableEq

/-- `n` times `base` to the power `k`, or `n` itself for a negative power. -/
def scaled (n base : Nat) (k : Int) : Nat := n * Nat.pow base k.toNat

/-- Compare `a * 10 ^ i` with `n * 2 ^ j`, a negative power of one side being a positive power of the
other. -/
def compareScaled (a : Nat) (i : Int) (n : Nat) (j : Int) : Ordering :=
  compare (scaled (scaled a 10 i) 2 (-j)) (scaled (scaled n 2 j) 10 (-i))

namespace Dyadic

/-- `d` lies among the reals that round to `x`: between the midpoints to the two neighbours, which
belong to `x` when its mantissa is even. -/
def readsBack (x : Dyadic) (d : Numeral) : Bool :=
  let low := if x.narrowBelow then 4 * x.mantissa - 1 else 4 * x.mantissa - 2
  let high := 4 * x.mantissa + 2
  let closed := x.mantissa % 2 == 0
  let atLow := compareScaled d.digits d.exponent low (x.exponent - 2)
  let atHigh := compareScaled d.digits d.exponent high (x.exponent - 2)
  (atLow == .gt || (closed && atLow == .eq)) && (atHigh == .lt || (closed && atHigh == .eq))

/-- The least `k` with `x < 10 ^ k`, near the estimate that the binary logarithm gives. -/
def scale (x : Dyadic) : Int :=
  let estimate := ((Nat.log2 x.mantissa : Int) + x.exponent) * 30103 / 100000
  let candidates := [estimate - 1, estimate, estimate + 1, estimate + 2]
  (candidates.find? fun k => compareScaled 1 k x.mantissa x.exponent == .gt).getD (estimate + 3)

/-- The greatest multiple of `10 ^ e` that is not above `x`, as the factor. -/
def floorAt (x : Dyadic) (e : Int) : Nat :=
  scaled (scaled x.mantissa 2 x.exponent) 10 (-e) / scaled (scaled 1 2 (-x.exponent)) 10 e

/-- The nearer of `n * 10 ^ e` and `(n + 1) * 10 ^ e` to `x`. -/
def nearer (x : Dyadic) (tie : Tie) (n : Nat) (e : Int) : Nat :=
  match compareScaled (2 * n + 1) e (2 * x.mantissa) x.exponent with
  | .gt => n
  | .lt => n + 1
  | .eq => match tie with
    | .up => n + 1
    | .toEven => if n % 2 = 0 then n else n + 1

/-- The multiple of `10 ^ e` that reads back to `x`, if one of the two around it does. -/
def onGrid? (x : Dyadic) (tie : Tie) (e : Int) : Option Numeral :=
  let n := x.floorAt e
  match x.readsBack ⟨n, e⟩, x.readsBack ⟨n + 1, e⟩ with
  | true, true => some ⟨x.nearer tie n e, e⟩
  | true, false => some ⟨n, e⟩
  | false, true => some ⟨n + 1, e⟩
  | false, false => none

/-- The exact decimal value. -/
def exact (x : Dyadic) : Numeral :=
  if 0 ≤ x.exponent then
    ⟨scaled x.mantissa 2 x.exponent, 0⟩
  else
    ⟨scaled x.mantissa 5 (-x.exponent), x.exponent⟩

end Dyadic

/-- Move trailing zeros of the digits into the exponent. -/
def Numeral.strip (d : Numeral) : Numeral :=
  if d.digits ≠ 0 ∧ d.digits % 10 = 0 then
    Numeral.strip ⟨d.digits / 10, d.exponent + 1⟩
  else d
termination_by d.digits
decreasing_by exact Nat.div_lt_self (by omega) (by omega)

/-- The decimal with the fewest digits that reads back to `x`: seventeen digits always do. -/
def Dyadic.shortest (x : Dyadic) (tie : Tie) : Numeral :=
  let k := x.scale
  (((List.range 17).findSome? fun i => x.onGrid? tie (k - (i + 1 : Nat))).getD x.exact).strip

end TypedCore.Decimal
