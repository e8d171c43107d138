/-!
Binary data as base64 text in the standard alphabet. Writing always pads; reading takes the
padding as optional and names the byte at fault when it refuses a text.
-/
set_option autoImplicit false

namespace ObjectTracking.Base64

def letter (v : Nat) : Char :=
  if v < 26 then Char.ofNat (0x41 + v)
  else if v < 52 then Char.ofNat (0x61 + (v - 26))
  else if v < 62 then Char.ofNat (0x30 + (v - 52))
  else if v = 62 then '+' else '/'

def value? (b : UInt8) : Option Nat :=
  let n := b.toNat
  if 0x41 ≤ n ∧ n ≤ 0x5A then some (n - 0x41)
  else if 0x61 ≤ n ∧ n ≤ 0x7A then some (n - 0x61 + 26)
  else if 0x30 ≤ n ∧ n ≤ 0x39 then some (n - 0x30 + 52)
  else if n = 0x2B then some 62
  else if n = 0x2F then some 63
  else none

def padding : UInt8 := 0x3D

/-- The text of a sequence of bytes, three bytes to four letters. -/
def encode : List UInt8 → List Char
  | [] => []
  | [a] =>
    let n := a.toNat * 16
    [letter (n / 64), letter (n % 64), '=', '=']
  | [a, b] =>
    let n := (a.toNat * 256 + b.toNat) * 4
    [letter (n / 4096), letter (n / 64 % 64), letter (n % 64), '=']
  | a :: b :: c :: rest =>
    let n := (a.toNat * 256 + b.toNat) * 256 + c.toNat
    letter (n / 262144) :: letter (n / 4096 % 64) :: letter (n / 64 % 64) :: letter (n % 64) ::
      encode rest

inductive Refusal where
  /-- One letter is left over, which is too few for a byte. -/
  | looseLetter
  | badByte (byte : UInt8) (offset : Nat)
  /-- The last letter carries bits that belong to no byte. -/
  | badLastLetter (byte : UInt8) (offset : Nat)
  deriving DecidableEq, Repr

def Refusal.message : Refusal → String
  | .looseLetter => "Encoded text cannot have a 6-bit remainder."
  | .badByte b offset => s!"Invalid byte {b.toNat}, offset {offset}."
  | .badLastLetter b offset => s!"Invalid last symbol {b.toNat}, offset {offset}."

/-- Reads the letters from `offset` on. Padding may stand in the last block of eight, which begins
at `final`, in the second half of a group of four, and only at the end; padding that is followed by
something is refused where it began. -/
def sextets (final : Nat) : Nat → Option Nat → List UInt8 → Except Refusal (List Nat)
  | _, _, [] => .ok []
  | offset, padded, b :: rest =>
    if b == padding then
      if offset < final || offset % 4 < 2 then .error (.badByte padding (padded.getD offset))
      else sextets final (offset + 1) (some (padded.getD offset)) rest
    else
      match padded, value? b with
      | some start, _ => .error (.badByte padding start)
      | none, none => .error (.badByte b offset)
      | none, some v => (v :: ·) <$> sextets final (offset + 1) none rest

/-- Packs sextets into bytes, four to three. The flag tells whether bits are left over. -/
def pack : List Nat → List UInt8 × Bool
  | a :: b :: c :: d :: rest =>
    let n := ((a * 64 + b) * 64 + c) * 64 + d
    let (bytes, loose) := pack rest
    (UInt8.ofNat (n / 65536) :: UInt8.ofNat (n / 256 % 256) :: UInt8.ofNat (n % 256) :: bytes,
      loose)
  | [a, b, c] =>
    let n := (a * 64 + b) * 64 + c
    ([UInt8.ofNat (n / 1024), UInt8.ofNat (n / 4 % 256)], n % 4 != 0)
  | [a, b] =>
    let n := a * 64 + b
    ([UInt8.ofNat (n / 16)], n % 16 != 0)
  | _ => ([], false)

/-- Reads a text, given by its bytes. -/
def decode (bytes : List UInt8) : Except Refusal (List UInt8) :=
  if bytes.length % 4 == 1 then .error .looseLetter
  else do
    let vs ← sextets ((bytes.length - 1) / 8 * 8) 0 none bytes
    let (out, loose) := pack vs
    if loose then
      let last := vs.length - 1
      .error (.badLastLetter (bytes.getD last 0) last)
    else .ok out

end ObjectTracking.Base64
