import ObjectTracking.Proofs.Property.Scoped
/-!
Date-times that are written in one zone and read in another. They name the same instant, with one
exception that the spelling makes: a leap second is written as the sixtieth of its minute, so that one
within a minute has the text of the second after it.
-/
set_option autoImplicit false

namespace ObjectTracking
open Time

namespace Time.WallClock
variable {t t' utc : WallClock} {zone : Offset}

/-- The year is written with four digits and no sign. -/
def HasPlainYear (t : WallClock) : Prop := 0 ≤ t.date.year ∧ t.date.year ≤ 9999

instance (t : WallClock) : Decidable t.HasPlainYear :=
  inferInstanceAs (Decidable (0 ≤ t.date.year ∧ t.date.year ≤ 9999))

/-- The time is in no leap second, or in one that is the last of its minute. -/
def EndsMinute (t : WallClock) : Prop := 1000000000 ≤ t.nanos → t.secondOfMinute = 59

instance (t : WallClock) : Decidable t.EndsMinute :=
  inferInstanceAs (Decidable (1000000000 ≤ t.nanos → t.secondOfMinute = 59))

def asRead (t : WallClock) : WallClock :=
  if h : t.EndsMinute then t
  else
    { date := t.date
      second := t.second + 1
      nanos := t.nanos - 1000000000
      second_lt := by
        have hlt := t.second_lt
        unfold EndsMinute secondOfMinute at h
        omega
      nanos_lt := by
        have hlt := t.nanos_lt
        omega }

theorem asRead_of_endsMinute (h : t.EndsMinute) : t.asRead = t := dif_pos h

theorem asRead_of_not_endsMinute (h : ¬t.EndsMinute) :
    t.asRead.date = t.date ∧ t.asRead.second = t.second + 1 ∧
      t.asRead.nanos + 1000000000 = t.nanos := by
  have hleap : 1000000000 ≤ t.nanos := by
    unfold EndsMinute at h
    omega
  unfold asRead
  rw [dif_neg h]
  exact ⟨rfl, rfl, Nat.sub_add_cancel hleap⟩

/-- A time and the one that its text denotes are written alike. -/
theorem text_asRead (t : WallClock) : t.asRead.text = t.text := by
  by_cases h : t.EndsMinute
  · rw [asRead_of_endsMinute h]
  · obtain ⟨hdate, hsecond, hnanos⟩ := asRead_of_not_endsMinute h
    have hlt := t.nanos_lt
    have hinside : t.second % 60 ≠ 59 := fun hlast => h fun _ => hlast
    have hhour : t.asRead.hour = t.hour := by
      unfold hour
      omega
    have hminute : t.asRead.minute = t.minute := by
      unfold minute
      omega
    have hshown : t.asRead.secondOfMinute + t.asRead.nanos / 1000000000 =
        t.secondOfMinute + t.nanos / 1000000000 := by
      unfold secondOfMinute
      omega
    have hfraction : fractionText t.asRead.nanos = fractionText t.nanos := by
      have hrest : t.asRead.nanos % 1000000000 = t.nanos % 1000000000 := by omega
      unfold fractionText
      rw [hrest]
    unfold text
    rw [hdate, hhour, hminute, hshown, hfraction]

theorem writable_asRead (h : t.HasPlainYear) : t.asRead.Writable := by
  by_cases hends : t.EndsMinute
  · rw [asRead_of_endsMinute hends]
    exact ⟨h, hends⟩
  · obtain ⟨hdate, -, hnanos⟩ := asRead_of_not_endsMinute hends
    have hlt := t.nanos_lt
    refine ⟨?_, ?_⟩
    · rw [hdate]
      exact h
    · intro hleap
      omega

theorem asRead_eq_self_iff : t.asRead = t ↔ t.EndsMinute := by
  refine ⟨?_, asRead_of_endsMinute⟩
  intro heq
  by_contra h
  obtain ⟨-, hsecond, -⟩ := asRead_of_not_endsMinute h
  rw [heq] at hsecond
  omega

theorem IsInstant.ahead? (h : IsInstant zone t utc) : utc.ahead? zone = some t :=
  ahead?_eq_some_iff_count.mpr ⟨h.count.symm, h.nanos.symm⟩

/-- The text of an instant denotes that instant if a leap second ends its minute, and another one
otherwise. -/
theorem IsInstant.ahead?_asRead (h : IsInstant zone t utc) :
    utc.asRead.ahead? zone = some t ↔ utc.EndsMinute := by
  constructor
  · intro hread
    by_contra hends
    obtain ⟨-, -, hnanos⟩ := asRead_of_not_endsMinute hends
    have hkept := (ahead?_eq_some_iff_count.mp hread).2
    have hgiven := h.nanos
    omega
  · intro hends
    rw [asRead_of_endsMinute hends]
    exact h.ahead?

/-- An instant is shown by one time of a zone. -/
theorem IsInstant.local_unique (h : IsInstant zone t utc) (h' : IsInstant zone t' utc) : t' = t :=
  eq_of_count (h'.count.symm.trans h.count) (h'.nanos.symm.trans h.nanos)

end Time.WallClock

namespace Time.Stamp
variable {t : WallClock} {zone? : Option Offset} {stamp : Stamp}

def asRead : Stamp → Stamp
  | absolute utc zone => .absolute utc.asRead zone
  | unspecified wall => .unspecified wall.asRead

theorem Scoped.parse?_asRead (h : Scoped t zone? stamp) (hyear : stamp.wallClock.HasPlainYear) :
    Text.trim stamp.text = stamp.text ∧ parse? stamp.text = some stamp.asRead := by
  have hwritable := WallClock.writable_asRead hyear
  cases h with
  | instant =>
    rw [wallClock] at hwritable
    rw [text, asRead, ← WallClock.text_asRead]
    exact ⟨trim_text hwritable, Stamp.parse?_text hwritable⟩
  | bare =>
    rw [wallClock] at hwritable
    rw [text, asRead, ← WallClock.text_asRead]
    exact ⟨Text.trim_eq_self_of_all (WallClock.isBlank_of_mem_text hwritable),
      parse?_unspecified hwritable⟩

end Time.Stamp

namespace Scoping
open Time.WallClock
variable {t t' : WallClock} {session : Offset}

/-- What is read of the text that a date-time is sent as. -/
theorem decode_scoped {zone? : Option Offset} {stamp : Stamp} (h : Stamp.Scoped t zone? stamp)
    (hyear : stamp.wallClock.HasPlainYear) (property : String) :
    decode property (String.ofList stamp.text) session = .ok (.scalar (.dateTime t')) ↔
      stamp.asRead.localTime? session = some t' := by
  obtain ⟨htrim, hparse⟩ := h.parse?_asRead hyear
  have hfilled : stamp.text.isEmpty = false := by
    cases hempty : stamp.text with
    | nil =>
      rw [hempty] at hparse
      cases hparse
    | cons c cs => rfl
  simp only [decode, String.toList_ofList, htrim, hfilled, hparse, Bool.false_eq_true, if_false,
    Option.bind_some]
  cases stamp.asRead.localTime? session <;> simp

/-- A date-time that is written scoped to a zone is read in the zone of a session as the same
instant, and one that is written without any zone as it was; a leap second must be the last of its
minute in the text. -/
theorem decode_encode_iff (t : WallClock) (session : Offset) (property : String) :
    (∀ (zone : Offset) (utc t' : WallClock), IsInstant zone t utc → IsInstant session t' utc →
      utc.HasPlainYear → t'.nanos = t.nanos ∧ (zone = session → t' = t) ∧
        ∃ text, encode property (.scalar (.dateTime t)) (some zone) = .ok (some text) ∧
          (decode property text session = .ok (.scalar (.dateTime t')) ↔ utc.EndsMinute)) ∧
    (t.HasPlainYear →
      ∃ text, encode property (.scalar (.dateTime t)) none = .ok (some text) ∧
        (decode property text session = .ok (.scalar (.dateTime t)) ↔ t.EndsMinute)) := by
  constructor
  · intro zone utc t' hzone hsession hyear
    have hscoped : Stamp.Scoped t (some zone) (.absolute utc Offset.utc) := .instant hzone
    refine ⟨hsession.nanos.symm.trans hzone.nanos, ?_, _, encode_scoped hscoped property, ?_⟩
    · rintro rfl
      exact hzone.local_unique hsession
    · rw [decode_scoped hscoped hyear]
      exact hsession.ahead?_asRead
  · intro hyear
    have hscoped : Stamp.Scoped t none (.unspecified t) := .bare
    refine ⟨_, encode_scoped hscoped property, ?_⟩
    rw [decode_scoped hscoped hyear, Stamp.asRead, Stamp.localTime?, Option.some.injEq]
    exact asRead_eq_self_iff

def lastDay (second nanos : Nat) (hsecond : second < 86400) (hnanos : nanos < 2000000000) :
    WallClock where
  date := ⟨2016, 12, 31, by decide, by decide, by decide⟩
  second := second
  nanos := nanos
  second_lt := hsecond
  nanos_lt := hnanos

/-- The end of the leap second after 2016 in UTC. -/
def yearEnd : WallClock := lastDay 86399 1999999999 (by decide) (by decide)

/-- The same where clocks are five hours behind. -/
def yearEndWest : WallClock := lastDay 68399 1999999999 (by decide) (by decide)

/-- The same where clocks are two hours ahead, in the new year. -/
def yearEndEast : WallClock where
  date := yearEnd.date.next?.get (by decide)
  second := 7199
  nanos := yearEnd.nanos
  second_lt := by decide
  nanos_lt := yearEnd.nanos_lt

theorem yearEnd_survives :
    IsInstant ⟨7200, by decide⟩ yearEndEast yearEnd ∧
      IsInstant ⟨-18000, by decide⟩ yearEndWest yearEnd ∧ yearEnd.HasPlainYear ∧
      yearEnd.EndsMinute ∧ yearEndEast.HasPlainYear ∧ yearEndEast.EndsMinute ∧
      (∃ text, encode "Start" (.scalar (.dateTime yearEndEast)) (some ⟨7200, by decide⟩) =
          .ok (some text) ∧
        decode "Start" text ⟨-18000, by decide⟩ = .ok (.scalar (.dateTime yearEndWest))) ∧
      ∃ text, encode "Start" (.scalar (.dateTime yearEndEast)) none = .ok (some text) ∧
        decode "Start" text ⟨-18000, by decide⟩ = .ok (.scalar (.dateTime yearEndEast)) := by
  have heast : IsInstant ⟨7200, by decide⟩ yearEndEast yearEnd := ⟨by decide, rfl⟩
  have hwest : IsInstant ⟨-18000, by decide⟩ yearEndWest yearEnd := ⟨by decide, rfl⟩
  have hends : yearEnd.EndsMinute := by decide
  have hendsEast : yearEndEast.EndsMinute := by decide
  obtain ⟨hscoped, hbare⟩ := decode_encode_iff yearEndEast ⟨-18000, by decide⟩ "Start"
  obtain ⟨-, -, text, htext, hread⟩ := hscoped _ yearEnd yearEndWest heast hwest (by decide)
  obtain ⟨bare, hbaretext, hbareread⟩ := hbare (by decide)
  exact ⟨heast, hwest, by decide, hends, by decide, hendsEast, ⟨text, htext, hread.mpr hends⟩, bare,
    hbaretext, hbareread.mpr hendsEast⟩

/-- A leap second half a minute before the end of the year. -/
def leapWithin : WallClock := lastDay 86369 1000000000 (by decide) (by decide)

/-- It has the text of the second after it. -/
theorem leapWithin_reads_later :
    IsInstant Offset.utc leapWithin leapWithin ∧ leapWithin.HasPlainYear ∧
      Offset.utc.seconds % 60 = 0 ∧
      encode "Start" (.scalar (.dateTime leapWithin)) (some Offset.utc) =
        .ok (some "2016-12-31T23:59:30Z") ∧
      decode "Start" "2016-12-31T23:59:30Z" Offset.utc =
        .ok (.scalar (.dateTime (lastDay 86370 0 (by decide) (by decide)))) ∧
      lastDay 86370 0 (by decide) (by decide) ≠ leapWithin :=
  ⟨⟨rfl, rfl⟩, by decide, rfl, rfl, rfl, fun h => absurd (congrArg nanos h) (by decide)⟩

end Scoping

end ObjectTracking
