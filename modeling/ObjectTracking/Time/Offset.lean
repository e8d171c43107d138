import ObjectTracking.Text.Blank
import ObjectTracking.Text.Digits
import ObjectTracking.Text.Slice
/-!
Offsets of time zones from UTC, less than a day to either side, and the spelling of a session's
zone in a configuration: `UTC`, `Z`, or a sign with hours and optional minutes.
-/
set_option autoImplicit false

namespace ObjectTracking.Time
open Text

/-- How far a zone is ahead of UTC. -/
structure Offset where
  /-- Seconds east of UTC. -/
  seconds : Int
  bounded : -86400 < seconds ∧ seconds < 86400
  deriving DecidableEq

namespace Offset

/-- The offset of a number of seconds east, if that is less than a day. -/
def east? (seconds : Int) : Option Offset :=
  if h : -86400 < seconds ∧ seconds < 86400 then some ⟨seconds, h⟩ else none

theorem east?_eq_some_iff {n : Int} {o : Offset} : east? n = some o ↔ o.seconds = n := by
  unfold east?
  split
  · rw [Option.some.injEq]
    exact ⟨fun h => h ▸ rfl, fun h => by cases o; cases h; rfl⟩
  · rename_i hbounded
    simp only [reduceCtorEq, false_iff]
    exact fun h => hbounded (h ▸ o.bounded)

def utc : Offset := ⟨0, by decide⟩

def opposite (o : Offset) : Offset := ⟨-o.seconds, by have := o.bounded; omega⟩

/-- Debugging text: sign, hours and minutes, and the seconds unless they are zero. -/
def debug (o : Offset) : String :=
  let n := o.seconds.natAbs
  let sign := if o.seconds < 0 then '-' else '+'
  let tail := if n % 60 == 0 then [] else ':' :: padded 2 (n % 60)
  String.ofList (sign :: padded 2 (n / 3600) ++ ':' :: padded 2 (n / 60 % 60) ++ tail)

/-- Reads a run of digits, which must fit into 32 bits. -/
def digits32 (cs : List Char) : Attempt Int := do
  let n ← .ofOption (number? cs)
  .narrowed 32 n

/-- Splits the part after the sign into hours and minutes: at the colon, or in the middle of four
bytes; any other text is hours alone. -/
def splitHours (cs : List Char) : Attempt (List Char × List Char) :=
  match offsetOf? (· == ':') cs with
  | some colon => do return (← before colon cs, ← after (colon + 1) cs)
  | none =>
    match cut? 2 cs with
    | some (h, m) => return if byteLength cs = 4 then (h, m) else (cs, ['0'])
    | none => return (cs, ['0'])

/-- The seconds in hours up to 14 and minutes below 60, on the side of UTC that the sign tells. -/
def ofClock (sign h m : Int) : Attempt Int :=
  if 14 < h ∨ 60 ≤ m then .refused
  else do
    let n ← .within 32 ((← .within 32 (h * 3600)) + (← .within 32 (m * 60)))
    .within 32 (sign * n)

def readClock (sign : Int) (cs : List Char) : Attempt Int := do
  let (h, m) ← splitHours cs
  ofClock sign (← digits32 h) (← digits32 m)

def sign? (b : UInt8) : Option Int :=
  match Char.ofUInt8 b with
  | '+' => some 1
  | '-' => some (-1)
  | _ => none

def read (s : List Char) : Attempt Offset :=
  let cs := trim s
  if cs.map Char.toLower == ['u', 't', 'c'] || cs == ['Z'] then .ofOption (east? 0)
  else do
    let sign ← .ofOption ((toUtf8 cs).head? >>= sign?)
    let n ← readClock sign (← after 1 cs)
    .ofOption (east? n)

def parse? (s : List Char) : Option Offset := (read s).value?

end Offset

end ObjectTracking.Time
