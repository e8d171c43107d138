import ObjectTracking.Property.Scoping
import ObjectTracking.Proofs.Time.Stamp
/-!
A date-time that was written in the zone of a session is read again in that zone.
-/
set_option autoImplicit false

namespace ObjectTracking.Scoping
open Time Text

/-- A wall clock time that can be written in a zone: as an instant its year has four digits, and a
leap second, which is the last of its minute, must be that in UTC too. -/
structure Writable (zone : Offset) (t : WallClock) : Prop where
  instant : ∃ utc, t.ahead? zone.opposite = some utc ∧ 0 ≤ utc.date.year ∧ utc.date.year ≤ 9999
  leap : 1000000000 ≤ t.nanos → t.secondOfMinute = 59 ∧ zone.seconds % 60 = 0

variable {zone : Offset} {t : WallClock}

theorem Writable.scopedText? (h : Writable zone t) : ∃ utc : WallClock,
    t.scopedText? zone = some (utc.text ++ ['Z']) ∧ utc.Writable ∧ utc.ahead? zone = some t := by
  obtain ⟨utc, hutc, hyear⟩ := h.instant
  refine ⟨utc, ?_, ⟨hyear, ?_⟩, WallClock.ahead?_opposite hutc⟩
  · rw [WallClock.scopedText?, hutc, Option.map_some]
  · intro hleap
    have hnanos : utc.nanos = t.nanos := (WallClock.ahead?_eq_some_iff.mp hutc).1
    rw [hnanos] at hleap
    obtain ⟨hlast, hminutes⟩ := h.leap hleap
    rw [WallClock.secondOfMinute_of_ahead? hutc hminutes, hlast]

/-- A date-time that was written is read again. -/
theorem decode_encode (h : Writable zone t) : ∃ text, ∀ property,
    encode property (.scalar (.dateTime t)) (some zone) = .ok (some text) ∧
      decode property text zone = .ok (.scalar (.dateTime t)) := by
  obtain ⟨utc, htext, hutc, hback⟩ := h.scopedText?
  refine ⟨String.ofList (utc.text ++ ['Z']), ?_⟩
  intro property
  refine ⟨?_, ?_⟩
  · simp only [encode, htext]
  · have hfilled : (utc.text ++ ['Z']).isEmpty = false := by simp
    simp only [decode, String.toList_ofList, Stamp.trim_text hutc, hfilled, Bool.false_eq_true,
      if_false, Stamp.parse?_text hutc, Option.bind_some, Stamp.localTime?, hback]

/-- A date-time inside the calendar is written, scoped to whatever zone or to none. -/
theorem encode_of_inside (h : t.date.Inside) (property : String) (zone? : Option Offset) :
    ∃ text, encode property (.scalar (.dateTime t)) zone? = .ok (some text) := by
  cases zone? with
  | none => exact ⟨_, rfl⟩
  | some zone =>
    obtain ⟨utc, hutc⟩ := WallClock.ahead?_of_inside h zone.opposite
    have htext : t.scopedText? zone = some (utc.text ++ ['Z']) := by
      rw [WallClock.scopedText?, hutc, Option.map_some]
    exact ⟨String.ofList (utc.text ++ ['Z']), by simp only [encode, htext]⟩

end ObjectTracking.Scoping
