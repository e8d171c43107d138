import ObjectTracking.Time.WallClock
/-!
Date-times as they stand on the wire. One with a zone names an instant; one without is a wall clock
time whose zone the reader has to know.

The two grammars differ. An instant has fixed widths: four digits of year and two of all else. A
time without a zone takes fewer digits, blanks before them, and a sign before a year of any length.
-/
set_option autoImplicit false

namespace ObjectTracking.Time
open Text

inductive Stamp where
  /-- An instant, given as the wall clock time in UTC, with the zone it was written in. -/
  | absolute (utc : WallClock) (zone : Offset)
  | unspecified (wall : WallClock)
  deriving DecidableEq

namespace Stamp

/-- Reads exactly `width` digits. -/
def fixed? (width : Nat) (cs : List Char) : Option (Nat × List Char) :=
  let ds := cs.take width
  if ds.length == width && ds.all Char.isDigit then some (number ds, cs.drop width) else none

/-- Reads one or more digits, at most `width`. -/
def upTo? (width : Nat) (cs : List Char) : Option (Nat × List Char) :=
  let ds := (cs.take width).takeWhile Char.isDigit
  if ds.isEmpty then none else some (number ds, cs.drop ds.length)

def char? (c : Char) : List Char → Option (List Char)
  | d :: cs => if d == c then some cs else none
  | [] => none

/-- Reads an optional fraction of a second in nanoseconds; digits past the ninth are dropped. -/
def fraction? : List Char → Option (Nat × List Char)
  | '.' :: cs =>
    let (ds, rest) := digitRun cs
    if ds.isEmpty then none
    else some (number ((ds ++ List.replicate 9 '0').take 9), rest)
  | cs => some (0, cs)

/-- Reads the zone of an instant: `Z`, or a sign with hours and minutes of two digits. -/
def zone? : List Char → Option (Offset × List Char)
  | [] => none
  | c :: cs =>
    if c == 'Z' || c == 'z' then some (Offset.utc, cs)
    else do
      let negative ←
        if c == '+' then some false
        else if c == '-' || c == '\u2212' then some true
        else none
      let (h, cs) ← fixed? 2 cs
      let cs ← char? ':' cs
      let (m, cs) ← fixed? 2 cs
      if h < 24 ∧ m < 60 then
        let n : Int := h * 3600 + m * 60
        (Offset.east? (if negative then -n else n)).map (·, cs)
      else none

def separator? : List Char → Option (List Char)
  | c :: cs => if c == 'T' || c == 't' || c == ' ' then some cs else none
  | [] => none

def readAbsolute? (cs : List Char) : Option Stamp := do
  let (year, cs) ← fixed? 4 cs
  let cs ← char? '-' cs
  let (month, cs) ← fixed? 2 cs
  let cs ← char? '-' cs
  let (day, cs) ← fixed? 2 cs
  let cs ← separator? cs
  let (hour, cs) ← fixed? 2 cs
  let cs ← char? ':' cs
  let (minute, cs) ← fixed? 2 cs
  let cs ← char? ':' cs
  let (second, cs) ← fixed? 2 cs
  let (nanos, cs) ← fraction? cs
  let (zone, cs) ← zone? cs
  if cs.isEmpty then
    let date ← Date.of? year month day
    let wall ← WallClock.ofReading? date hour minute second nanos
    let utc ← wall.ahead? zone.opposite
    some (.absolute utc zone)
  else none

/-- Reads a year: up to four digits, or any number of them after a sign. -/
def year? (cs : List Char) : Option (Int × List Char) :=
  match trimStart cs with
  | '-' :: cs => (upTo? cs.length cs).map fun (y, cs) => (-(y : Int), cs)
  | '+' :: cs => (upTo? cs.length cs).map fun (y, cs) => ((y : Int), cs)
  | cs => (upTo? 4 cs).map fun (y, cs) => ((y : Int), cs)

/-- Reads one or two digits after blanks. -/
def field? (cs : List Char) : Option (Nat × List Char) := upTo? 2 (trimStart cs)

def readUnspecified? (cs : List Char) : Option Stamp := do
  let (year, cs) ← year? cs
  let cs ← char? '-' cs
  let (month, cs) ← field? cs
  let cs ← char? '-' cs
  let (day, cs) ← field? cs
  let cs ← char? 'T' cs
  let (hour, cs) ← field? cs
  let cs ← char? ':' cs
  let (minute, cs) ← field? cs
  let cs ← char? ':' cs
  let (second, cs) ← field? cs
  let (nanos, cs) ← fraction? cs
  if cs.isEmpty then
    let date ← Date.of? year month day
    (WallClock.ofReading? date hour minute second nanos).map .unspecified
  else none

/-- Reads a date-time, blanks around it ignored: an instant, or else a time without a zone. -/
def parse? (s : List Char) : Option Stamp :=
  let cs := trim s
  (readAbsolute? cs).or (readUnspecified? cs)

/-- The wall clock time in `zone`. A time without a zone is taken to be local there already. -/
def localTime? (zone : Offset) : Stamp → Option WallClock
  | .absolute utc _ => utc.ahead? zone
  | .unspecified wall => some wall

end Stamp

/-- The instant of a wall clock time in `zone`, as text in UTC. -/
def WallClock.scopedText? (t : WallClock) (zone : Offset) : Option (List Char) :=
  (t.ahead? zone.opposite).map fun utc => utc.text ++ ['Z']

end ObjectTracking.Time
