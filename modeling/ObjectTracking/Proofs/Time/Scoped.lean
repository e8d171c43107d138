import ObjectTracking.Proofs.Time.Calendar
import ObjectTracking.Proofs.Time.Stamp
/-!
Date-times on the wire, scoped to a zone or to none. One without a zone is read again as such: it is
no instant, since its text ends where the zone would stand.
-/
set_option autoImplicit false

namespace ObjectTracking.Time
open Text

namespace Stamp
open WallClock
variable {t : WallClock}

theorem upTo?_padded {width n : Nat} (hwidth : 0 < width) (h : n < 10 ^ width) (rest : List Char) :
    upTo? width (padded width n ++ rest) = some (n, rest) := by
  have hlength := length_padded hwidth h
  have hdigits : ((padded width n ++ rest).take width).takeWhile Char.isDigit = padded width n := by
    have hrun := takeWhile_append_of_ends (all_isDigit_padded width n) (ends_nil Char.isDigit)
    rw [List.append_nil] at hrun
    rw [List.take_left' hlength, hrun]
  have hfilled : (padded width n).isEmpty = false := by
    rw [List.isEmpty_eq_false_iff, ← List.length_pos_iff]
    omega
  rw [upTo?, hdigits]
  simp only [hfilled, Bool.false_eq_true, if_false, number_padded, List.drop_left]

theorem field?_padded {n : Nat} (h : n < 10 ^ 2) (rest : List Char) :
    field? (padded 2 n ++ rest) = some (n, rest) := by
  rw [field?, trimStart_padded, upTo?_padded (by decide) h]

/-- A year of four digits has no sign. -/
theorem year?_padded {n : Nat} (h : n < 10 ^ 4) (rest : List Char) :
    year? (padded 4 n ++ rest) = some ((n : Int), rest) := by
  obtain ⟨c, ds, hpadded, hdigit⟩ := padded_eq_cons 4 n
  have hread : upTo? 4 (padded 4 n ++ rest) = some (n, rest) := upTo?_padded (by decide) h rest
  rw [year?, trimStart_padded]
  rw [hpadded, List.cons_append] at hread ⊢
  split
  · rename_i heq
    obtain ⟨rfl, -⟩ := List.cons.inj heq
    exact absurd hdigit (by decide)
  · rename_i heq
    obtain ⟨rfl, -⟩ := List.cons.inj heq
    exact absurd hdigit (by decide)
  · rw [hread, Option.map_some]

theorem readUnspecified?_numbers {year month day hour minute second nanos : Nat}
    {fraction : List Char} {date : Date} (hyear : year < 10 ^ 4) (hmonth : month < 10 ^ 2)
    (hday : day < 10 ^ 2) (hhour : hour < 10 ^ 2) (hminute : minute < 10 ^ 2)
    (hsecond : second < 10 ^ 2) (hfraction : fraction? fraction = some (nanos, []))
    (hdate : Date.of? year month day = some date)
    (ht : ofReading? date hour minute second nanos = some t) :
    readUnspecified? (padded 4 year ++ '-' :: (padded 2 month ++ '-' :: (padded 2 day ++ 'T' ::
      (padded 2 hour ++ ':' :: (padded 2 minute ++ ':' :: (padded 2 second ++ fraction)))))) =
      some (.unspecified t) := by
  refine bind_of_eq_some (year?_padded hyear _) ?_
  refine bind_of_eq_some (char?_cons _ _) ?_
  refine bind_of_eq_some (field?_padded hmonth _) ?_
  refine bind_of_eq_some (char?_cons _ _) ?_
  refine bind_of_eq_some (field?_padded hday _) ?_
  refine bind_of_eq_some (char?_cons _ _) ?_
  refine bind_of_eq_some (field?_padded hhour _) ?_
  refine bind_of_eq_some (char?_cons _ _) ?_
  refine bind_of_eq_some (field?_padded hminute _) ?_
  refine bind_of_eq_some (char?_cons _ _) ?_
  refine bind_of_eq_some (field?_padded hsecond _) ?_
  refine bind_of_eq_some hfraction ?_
  refine bind_of_eq_some hdate ?_
  rw [ht, Option.map_some]

theorem readUnspecified?_text (h : t.Writable) :
    readUnspecified? t.text = some (.unspecified t) := by
  obtain ⟨hyear, hmonth, hday, hhour, hminute, hsecond⟩ := h.widths
  have hfraction := fraction?_fractionText t.nanos (ends_nil Char.isDigit) rfl
  rw [List.append_nil] at hfraction
  rw [text_eq h]
  exact readUnspecified?_numbers hyear hmonth hday hhour hminute hsecond hfraction h.date
    (ofReading?_numbers h.leap)

theorem readAbsolute?_unspecified (h : t.Writable) : readAbsolute? t.text = none := by
  have hread := readAbsolute?_text_append h (ends_nil Char.isDigit) rfl
  rwa [List.append_nil] at hread

/-- A time without a zone that was written is read again. -/
theorem parse?_unspecified (h : t.Writable) : parse? t.text = some (.unspecified t) := by
  rw [parse?, trim_eq_self_of_all (isBlank_of_mem_text h), readAbsolute?_unspecified h,
    Option.none_or, readUnspecified?_text h]

/-- A date-time as it is written: an instant with the letter of UTC, any other time alone. -/
def text : Stamp → List Char
  | absolute utc _ => utc.text ++ ['Z']
  | unspecified wall => wall.text

def wallClock : Stamp → WallClock
  | absolute utc _ => utc
  | unspecified wall => wall

/-- What a wall clock time is sent as: the instant that it shows in a zone, in UTC, or the time
itself without any zone. -/
inductive Scoped (t : WallClock) : Option Offset → Stamp → Prop where
  | instant {zone : Offset} {utc : WallClock} (shows : IsInstant zone t utc) :
    Scoped t (some zone) (.absolute utc Offset.utc)
  | bare : Scoped t none (.unspecified t)

theorem Scoped.unique {zone? : Option Offset} {stamp stamp' : Stamp} (h : Scoped t zone? stamp)
    (h' : Scoped t zone? stamp') : stamp' = stamp := by
  cases h with
  | instant hshows =>
    cases h' with
    | instant hshows' => rw [hshows'.unique hshows]
  | bare =>
    cases h'
    rfl

/-- What is sent is read again. -/
theorem Scoped.parse?_text {zone? : Option Offset} {stamp : Stamp} (h : Scoped t zone? stamp)
    (hwritable : stamp.wallClock.Writable) : parse? stamp.text = some stamp := by
  cases h with
  | instant => exact Stamp.parse?_text hwritable
  | bare => exact parse?_unspecified hwritable

end Stamp

end ObjectTracking.Time
