/-!
Doubles as exact numbers. A finite double is `significand * 2 ^ exponent` with a significand below
`2 ^ 53`; this module takes one apart and finds the one nearest to a quotient of naturals.
-/
set_option autoImplicit false

namespace ObjectTracking.Decimal

inductive Magnitude where
  | nan
  | infinite
  /-- The number `significand * 2 ^ exponent`. -/
  | finite (significand : Nat) (exponent : Int)
  deriving DecidableEq, Repr

def isNegative (d : Float) : Bool := d.toBits.toNat / Nat.pow 2 63 == 1

def magnitude (d : Float) : Magnitude :=
  let bits := d.toBits.toNat % Nat.pow 2 63
  let field := bits / Nat.pow 2 52
  let fraction := bits % Nat.pow 2 52
  if field == 2047 then
    if fraction == 0 then .infinite else .nan
  else if field == 0 then .finite fraction (-1074)
  else .finite (Nat.pow 2 52 + fraction) (Int.ofNat field - 1075)

/-- Rounds a quotient to the nearest natural number, a tie to the even one. -/
def roundDiv (num den : Nat) : Nat :=
  let q := num / den
  let r := num % den
  if 2 * r < den || (2 * r == den && q % 2 == 0) then q else q + 1

/-- The quotient `num / den` measured in units of `2 ^ e`, as a quotient. -/
def inUnits (num den : Nat) (e : Int) : Nat × Nat :=
  (num * Nat.pow 2 (-e).toNat, den * Nat.pow 2 e.toNat)

/-- The largest `e` with `2 ^ e ≤ num / den`, for a positive quotient. -/
def binaryOrder (num den : Nat) : Int :=
  let e := Int.ofNat num.log2 - Int.ofNat den.log2
  let (n, d) := inUnits num den e
  if n < d then e - 1 else e

/-- The double nearest to `num / den`, a tie to the even significand; past the largest double it is
infinite. The significand may carry into the exponent, which the encoding turns into the next
power of two. -/
def nearest (negative : Bool) (num den : Nat) : Float :=
  let bits :=
    if num == 0 then 0
    else
      let exponent := max (binaryOrder num den - 52) (-1074)
      let (n, d) := inUnits num den exponent
      min ((exponent + 1074).toNat * Nat.pow 2 52 + roundDiv n d) (2047 * Nat.pow 2 52)
  Float.ofBits (UInt64.ofNat (if negative then Nat.pow 2 63 + bits else bits))

def infinity (negative : Bool) : Float := nearest negative (Nat.pow 2 1024) 1

def notANumber : Float := Float.ofBits (UInt64.ofNat (2047 * Nat.pow 2 52 + Nat.pow 2 51))

end ObjectTracking.Decimal
