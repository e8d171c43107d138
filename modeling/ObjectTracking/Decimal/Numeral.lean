import ObjectTracking.Decimal.Binary64
import ObjectTracking.Text.Digits
/-!
Reading decimal numerals as doubles: an optional sign, digits with an optional point, an optional
exponent, or one of the words `inf`, `infinity` and `nan` in any case. The result is the nearest
double, whatever the number of digits.
-/
set_option autoImplicit false

namespace ObjectTracking.Decimal
open Text

/-- Splits an optional sign off; true for a minus. -/
def splitSign : List Char → Bool × List Char
  | '-' :: cs => (true, cs)
  | '+' :: cs => (false, cs)
  | cs => (false, cs)

/-- The number `m * 10 ^ e` as the nearest double. Exponents far outside the range of doubles are
decided by the order of magnitude alone. -/
def nearestScaled (negative : Bool) (m : Nat) (e : Int) : Float :=
  let order := e + Int.ofNat (digits m).length
  if m == 0 || order < -330 then nearest negative 0 1
  else if order > 330 then infinity negative
  else nearest negative (m * Nat.pow 10 e.toNat) (Nat.pow 10 (-e).toNat)

/-- The exponent after the digits of a numeral: nothing, or `e` and an integer. -/
def exponent? : List Char → Option Int
  | [] => some 0
  | c :: cs => if c == 'e' || c == 'E' then integer? cs else none

/-- A numeral without sign: digits, at least one before or after the optional point. -/
def unsigned? (negative : Bool) (cs : List Char) : Option Float :=
  let (whole, rest) := digitRun cs
  let (fraction, rest) := match rest with
    | '.' :: rest => digitRun rest
    | rest => ([], rest)
  if whole.isEmpty && fraction.isEmpty then none
  else (exponent? rest).map fun e =>
    nearestScaled negative (number (whole ++ fraction)) (e - Int.ofNat fraction.length)

def read? (cs : List Char) : Option Float :=
  let (negative, body) := splitSign cs
  let word := body.map Char.toLower
  if word == "inf".toList || word == "infinity".toList then some (infinity negative)
  else if word == "nan".toList then some notANumber
  else unsigned? negative body

end ObjectTracking.Decimal
