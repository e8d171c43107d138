/-!
Reading bytes as UTF-8. A refusal says where the first bad sequence begins and how many of its
bytes could be the beginning of a character, or that the bytes end within one.
-/
set_option autoImplicit false

namespace ObjectTracking.Text

inductive Utf8Fault where
  | invalid (length index : Nat)
  | incomplete (index : Nat)
  deriving DecidableEq, Repr

def Utf8Fault.message : Utf8Fault → String
  | .invalid length index => s!"invalid utf-8 sequence of {length} bytes from index {index}"
  | .incomplete index => s!"incomplete utf-8 byte sequence from index {index}"

/-- The bytes that may follow the first byte of a character of three or four bytes. -/
def secondRange (first : Nat) : Nat × Nat :=
  if first == 0xE0 then (0xA0, 0xBF)
  else if first == 0xED then (0x80, 0x9F)
  else if first == 0xF0 then (0x90, 0xBF)
  else if first == 0xF4 then (0x80, 0x8F)
  else (0x80, 0xBF)

/-- How many bytes a character takes that begins with this byte; none begins with some bytes. -/
def utf8Width (first : Nat) : Nat :=
  if first < 0x80 then 1
  else if first < 0xC2 then 0
  else if first < 0xE0 then 2
  else if first < 0xF0 then 3
  else if first < 0xF5 then 4
  else 0

/-- Checks the `count` bytes that continue a character, of which `seen` bytes are read. The first of
them lies in `range`; the others are plain continuation bytes. -/
def continuation (index : Nat) : Nat → Nat → Nat × Nat → Nat → List UInt8 → Except Utf8Fault Nat
  | 0, _, _, code, _ => .ok code
  | _ + 1, _, _, _, [] => .error (.incomplete index)
  | count + 1, seen, range, code, b :: rest =>
    if range.1 ≤ b.toNat && b.toNat ≤ range.2 then
      continuation index count (seen + 1) (0x80, 0xBF) (code * 64 + b.toNat % 64) rest
    else .error (.invalid seen index)

/-- Reads the characters of bytes that stand at `index`; `skip` bytes belong to a character that is
already read. -/
def charsFrom : Nat → Nat → List UInt8 → Except Utf8Fault (List Char)
  | _, _, [] => .ok []
  | index, skip + 1, _ :: rest => charsFrom (index + 1) skip rest
  | index, 0, b :: rest =>
    let width := utf8Width b.toNat
    if width == 0 then .error (.invalid 1 index)
    else do
      let lead := if width == 1 then b.toNat else b.toNat % Nat.pow 2 (7 - width)
      let code ← continuation index (width - 1) 1 (secondRange b.toNat) lead rest
      let cs ← charsFrom (index + 1) (width - 1) rest
      .ok (Char.ofNat code :: cs)

def ofUtf8 (bytes : List UInt8) : Except Utf8Fault String :=
  String.ofList <$> charsFrom 0 0 bytes

def toUtf8 (cs : List Char) : List UInt8 := cs.flatMap String.utf8EncodeChar

end ObjectTracking.Text
