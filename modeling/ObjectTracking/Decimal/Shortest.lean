import ObjectTracking.Decimal.Binary64
import ObjectTracking.Text.Digits
/-!
The shortest decimal text of a double: the fewest digits that read back as the same double, and
of those the nearest to it, an exact tie going up. The search walks decimal grids from coarse to
fine in exact arithmetic and stops at the first grid with a point in the interval of numbers that
round to the double.
-/
set_option autoImplicit false

namespace ObjectTracking.Decimal
open Text

/-- The interval of the numbers that round to a double, over a common denominator. -/
structure Interval where
  low : Nat
  value : Nat
  high : Nat
  den : Nat
  /-- Whether the ends belong to it, as they do for an even significand. -/
  closed : Bool

/-- The numbers that round to `m * 2 ^ e`. Below a power of two the doubles lie closer. -/
def Interval.around (m : Nat) (e : Int) : Interval :=
  let unit := Nat.pow 2 (e - 2).toNat
  let below := if m == Nat.pow 2 52 && e != -1074 then 1 else 2
  { low := (4 * m - below) * unit
    value := 4 * m * unit
    high := (4 * m + 2) * unit
    den := Nat.pow 2 (2 - e).toNat
    closed := m % 2 == 0 }

def Interval.holds (i : Interval) (c : Nat) (k : Int) : Bool :=
  let scale := Nat.pow 10 (-k).toNat
  let point := c * i.den * Nat.pow 10 k.toNat
  if i.closed then i.low * scale ≤ point && point ≤ i.high * scale
  else i.low * scale < point && point < i.high * scale

/-- The point of the grid of step `10 ^ k` that lies in the interval, the one nearer to the value
if both neighbours do. -/
def Interval.pick? (i : Interval) (k : Int) : Option Nat :=
  let num := i.value * Nat.pow 10 (-k).toNat
  let den := i.den * Nat.pow 10 k.toNat
  let c := num / den
  match i.holds c k, i.holds (c + 1) k with
  | true, true => some (if 2 * (num % den) < den then c else c + 1)
  | true, false => some c
  | false, true => some (c + 1)
  | false, false => none

/-- A decimal number `0.d₁d₂… * 10 ^ point`. -/
structure Digits where
  digits : List Char
  point : Int
  deriving DecidableEq, Repr

def dropZeros (ds : List Char) : List Char := (ds.reverse.dropWhile (· == '0')).reverse

/-- The shortest digits of the positive number `m * 2 ^ e`. The first grid is coarser than the
number, and seventeen digits always suffice. -/
def shortest (m : Nat) (e : Int) : Digits :=
  let i := Interval.around m e
  let top : Int := Int.fdiv ((Int.ofNat m.log2 + e) * 30103) 100000 + 1
  let pick (n : Nat) : Option Digits :=
    let k := top - Int.ofNat n
    (i.pick? k).map fun c =>
      let ds := Text.digits c
      ⟨dropZeros ds, k + Int.ofNat ds.length⟩
  ((List.range 20).findSome? pick).getD ⟨['0'], 1⟩

/-- Positional notation; `tail` stands after an integral number. -/
def Digits.positional (d : Digits) (tail : List Char) : List Char :=
  let len := Int.ofNat d.digits.length
  if d.point ≤ 0 then
    ['0', '.'] ++ List.replicate (-d.point).toNat '0' ++ d.digits
  else if len ≤ d.point then
    d.digits ++ List.replicate (d.point - len).toNat '0' ++ tail
  else d.digits.take d.point.toNat ++ '.' :: d.digits.drop d.point.toNat

/-- Scientific notation: one digit before the point, and the exponent after an `e`. -/
def Digits.scientific (d : Digits) : List Char :=
  match d.digits with
  | [] => []
  | first :: rest =>
    let fraction := if rest.isEmpty then [] else '.' :: rest
    first :: fraction ++ 'e' :: signed (d.point - 1)

structure Style where
  /-- Stands after an integral number in positional notation. -/
  integralTail : String
  /-- Numbers whose point lies in this range are written positionally. -/
  positionalFrom : Option Int
  positionalTo : Option Int

/-- On the wire every finite number is written positionally. -/
def Style.wire : Style := ⟨"", none, none⟩

/-- In debugging output integral numbers keep a fraction, and numbers below `1e-4` or from `1e16`
on are written scientifically. -/
def Style.debug : Style := ⟨".0", some (-3), some 16⟩

def Style.isPositional (s : Style) (point : Int) : Bool :=
  s.positionalFrom.all (· ≤ point) && s.positionalTo.all (point ≤ ·)

def render (s : Style) (d : Float) : String :=
  let sign := if isNegative d then ['-'] else []
  match magnitude d with
  | .nan => "NaN"
  | .infinite => String.ofList (sign ++ ['i', 'n', 'f'])
  | .finite 0 _ => String.ofList (sign ++ '0' :: s.integralTail.toList)
  | .finite m e =>
    let ds := shortest m e
    String.ofList (sign ++
      if s.isPositional ds.point then ds.positional s.integralTail.toList else ds.scientific)

end ObjectTracking.Decimal
