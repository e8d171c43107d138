/-!
Runs of decimal digits, the part that every number format of this library shares. A run is read
by `Nat.ofDigitChars` and written by `Nat.toDigits`.
-/
set_option autoImplicit false

namespace ObjectTracking.Text

/-- Splits off the digits a text begins with. -/
def digitRun (cs : List Char) : List Char × List Char := cs.span Char.isDigit

/-- The number a run of digits denotes; leading zeros are allowed. -/
def number (ds : List Char) : Nat := Nat.ofDigitChars 10 ds 0

def isDigits (cs : List Char) : Bool := !cs.isEmpty && cs.all Char.isDigit

def number? (cs : List Char) : Option Nat :=
  if isDigits cs then some (number cs) else none

def digits (n : Nat) : List Char := Nat.toDigits 10 n

/-- The decimal digits of a number, with zeros in front up to `width`. -/
def padded (width n : Nat) : List Char :=
  List.replicate (width - (digits n).length) '0' ++ digits n

/-- The decimal text of an integer: a minus sign only below zero. -/
def signed (i : Int) : List Char :=
  if i < 0 then '-' :: digits i.natAbs else digits i.natAbs

/-- Reads a natural number: an optional plus sign, then at least one digit. -/
def natural? : List Char → Option Nat
  | '+' :: ds => number? ds
  | ds => number? ds

/-- Reads an integer: an optional sign, then at least one digit. -/
def integer? : List Char → Option Int
  | '+' :: ds => (number? ds).map Int.ofNat
  | '-' :: ds => (number? ds).map fun n => -Int.ofNat n
  | ds => (number? ds).map Int.ofNat

/-- The value of a hexadecimal digit, of either case. -/
def hexValue? (c : Char) : Option Nat :=
  if c.isDigit then some (c.toNat - '0'.toNat)
  else if 'a' ≤ c ∧ c ≤ 'f' then some (c.toNat - 'a'.toNat + 10)
  else if 'A' ≤ c ∧ c ≤ 'F' then some (c.toNat - 'A'.toNat + 10)
  else none

def hexNumber? (cs : List Char) : Option Nat :=
  if cs.isEmpty then none
  else cs.foldlM (fun n c => (hexValue? c).map (16 * n + ·)) 0

end ObjectTracking.Text
