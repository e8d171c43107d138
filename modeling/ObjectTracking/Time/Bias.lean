import ObjectTracking.Time.Offset
import ObjectTracking.Decimal.Numeral
/-!
Biases: the offset of a zone written as a duration. A bias runs against the offset, since it is
what must be added to local time to reach UTC: eight hours west of UTC is `PT8H`.

A duration is read part by part, each one a double that is cut to whole seconds.
-/
set_option autoImplicit false

namespace ObjectTracking.Time.Bias
open Text

/-- The seconds in one of a unit; days stand before the `T`, the other units after it. -/
def unit? (inTime : Bool) (b : UInt8) : Option Float :=
  match inTime, Char.ofUInt8 b with
  | false, 'D' => some 86400.0
  | true, 'H' => some 3600.0
  | true, 'M' => some 60.0
  | true, 'S' => some 1.0
  | _, _ => none

def isNumeral (c : Char) : Bool := c.isDigit || c == '.'

/-- The whole seconds in a number of units, which are refused beyond `2 ^ 31 - 1`. -/
def wholeSeconds (n unit : Float) : Attempt Int :=
  let part := n * unit
  if !part.isFinite || 2147483647.0 < part then .refused else .done part.toUInt64.toNat

/-- Adds the part that a text begins with to a sum of seconds, which must stay within 64 bits. -/
def step (inTime : Bool) (sum : Int) (cs : List Char) : Attempt (Int × List Char) :=
  let stop := (offsetOf? (fun c => !isNumeral c) cs).getD (byteLength cs)
  if stop = 0 ∨ stop = byteLength cs then .refused
  else do
    let n ← .ofOption (Decimal.unsigned? false (← before stop cs))
    let unit ← .ofOption (unit? inTime (← byteAt stop cs))
    let sum ← .narrowed 64 (sum + (← wholeSeconds n unit))
    return (sum, ← after (stop + 1) cs)

theorem length_lt_of_step {inTime : Bool} {sum sum' : Int} {cs rest : List Char}
    (h : step inTime sum cs = .done (sum', rest)) : rest.length < cs.length := by
  simp only [step] at h
  split at h
  · cases h
  · simp only [Attempt.bind_eq_done_iff] at h
    obtain ⟨_, _, _, _, _, _, _, _, _, _, _, _, _, hrest, h⟩ := h
    cases h
    exact length_lt_of_after hrest

/-- Adds the parts from here on to a sum of seconds; true if there has been any part. -/
def scan (inTime : Bool) (sum : Int) (any : Bool) (cs : List Char) : Attempt (Int × Bool) :=
  match cs with
  | [] => .done (sum, any)
  | 'T' :: rest => if inTime then .refused else scan true sum any rest
  | c :: cs =>
    match _h : step inTime sum (c :: cs) with
    | .done (sum, rest) => scan inTime sum true rest
    | .refused => .refused
    | .trapped t => .trapped t
termination_by cs.length
decreasing_by
  · simp
  · exact length_lt_of_step _h

/-- The offset that a sum of seconds implies as a bias, if it is less than a day. -/
def ofSum (negative : Bool) (sum : Int) : Attempt Offset := do
  let bias ← if negative then .within 64 (-sum) else pure sum
  let seconds ← .narrowed 32 (← .within 64 (-bias))
  .ofOption (Offset.east? seconds)

/-- Reads a bias without its sign; it has at least one part. -/
def unsigned (negative : Bool) : List Char → Attempt Offset
  | 'P' :: cs => do
    let (sum, any) ← scan false 0 false cs
    if any then ofSum negative sum else .refused
  | _ => .refused

def read (s : List Char) : Attempt Offset :=
  match trim s with
  | '-' :: cs => unsigned true cs
  | cs => unsigned false cs

def parse? (s : List Char) : Option Offset := (read s).value?

/-- Writes an offset as a bias. Parts that are zero are left out, but never all of them. -/
def format (o : Offset) : List Char :=
  let n := o.seconds.natAbs
  let h := n / 3600
  let m := n / 60 % 60
  let s := n % 60
  let sign := if 0 < o.seconds then ['-'] else []
  let hours := if 0 < h ∨ (m = 0 ∧ s = 0) then digits h ++ ['H'] else []
  let minutes := if 0 < m then digits m ++ ['M'] else []
  let seconds := if 0 < s then digits s ++ ['S'] else []
  sign ++ ['P', 'T'] ++ hours ++ minutes ++ seconds

end ObjectTracking.Time.Bias
