import ObjectTracking.Time.Date
import ObjectTracking.Time.Offset
/-!
Wall clock times: a date and a time of day with nanoseconds, in no particular zone. A leap second
is counted as a second more of nanoseconds in the second before it.
-/
set_option autoImplicit false

namespace ObjectTracking.Time
open Text

structure WallClock where
  date : Date
  /-- Seconds since midnight. -/
  second : Nat
  /-- Nanoseconds; from a billion on, they lie in the leap second that follows. -/
  nanos : Nat
  second_lt : second < 86400
  nanos_lt : nanos < 2000000000
  deriving DecidableEq

namespace WallClock

def of? (date : Date) (hour minute second nanos : Nat) : Option WallClock :=
  if h : hour < 24 ∧ minute < 60 ∧ second < 60 ∧ nanos < 2000000000 then
    some ⟨date, hour * 3600 + minute * 60 + second, nanos, by omega, h.2.2.2⟩
  else none

/-- A time read from a text, where a leap second is the sixtieth. -/
def ofReading? (date : Date) (hour minute second nanos : Nat) : Option WallClock :=
  if second = 60 then of? date hour minute 59 (1000000000 + nanos)
  else of? date hour minute second nanos

def hour (t : WallClock) : Nat := t.second / 3600
def minute (t : WallClock) : Nat := t.second / 60 % 60

def secondOfMinute (t : WallClock) : Nat := t.second % 60

def ofNumbers? : List Int → Option WallClock
  | [year, month, day, hour, minute, second, nanos] => do
    let date ← Date.of? year month.toNat day.toNat
    of? date hour.toNat minute.toNat second.toNat nanos.toNat
  | _ => none

def numbers (t : WallClock) : List Int :=
  [t.date.year, t.date.month, t.date.day, t.hour, t.minute, t.secondOfMinute, t.nanos]

/-- The time `o` ahead of this one. It stays within a day, so that at most the date next to it is
needed; nanoseconds are kept. -/
def ahead? (t : WallClock) (o : Offset) : Option WallClock :=
  let total := (t.second : Int) + o.seconds
  let at? (date : Option Date) (second : Int) : Option WallClock :=
    if h : 0 ≤ second ∧ second < 86400 then
      date.map fun d => ⟨d, second.toNat, t.nanos, by omega, t.nanos_lt⟩
    else none
  if total < 0 then at? t.date.previous? (total + 86400)
  else if total < 86400 then at? (some t.date) total
  else at? t.date.next? (total - 86400)

/-- The year has four digits; outside 0 to 9999 it is signed. -/
def yearText (y : Int) : List Char :=
  if 0 ≤ y ∧ y ≤ 9999 then padded 4 y.toNat
  else (if y < 0 then '-' else '+') :: padded 4 y.natAbs

/-- The fraction of a second with as many of 3, 6 or 9 digits as it needs; none if it is zero. -/
def fractionText (nanos : Nat) : List Char :=
  let n := nanos % 1000000000
  if n == 0 then []
  else if n % 1000000 == 0 then '.' :: padded 3 (n / 1000000)
  else if n % 1000 == 0 then '.' :: padded 6 (n / 1000)
  else '.' :: padded 9 n

def text (t : WallClock) : List Char :=
  yearText t.date.year ++ '-' :: padded 2 t.date.month ++ '-' :: padded 2 t.date.day ++
    'T' :: padded 2 t.hour ++ ':' :: padded 2 t.minute ++
    ':' :: padded 2 (t.secondOfMinute + t.nanos / 1000000000) ++ fractionText t.nanos

end WallClock

end ObjectTracking.Time
