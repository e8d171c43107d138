import ObjectTracking.Proofs.Time.WallClock
import ObjectTracking.Time.Stamp
/-!
Instants as counts of seconds. A date has its number among the days since the first of January of the
year 1, and to shift a wall clock time is to add to its count.
-/
set_option autoImplicit false

namespace ObjectTracking.Time

namespace Date
variable {d d' : Date} {year year' : Int} {month month' day : Nat}

/-- The days from the beginning of the year 1 to that of a year. Every fourth year has a day more,
except for full centuries that are not divisible by 400. -/
def daysBeforeYear (year : Int) : Int :=
  365 * (year - 1) + (year - 1) / 4 - (year - 1) / 100 + (year - 1) / 400

/-- The days of a year before a month. -/
def daysBeforeMonth (year : Int) : Nat → Nat
  | 0 | 1 => 0
  | month + 2 => daysBeforeMonth year (month + 1) + daysIn year (month + 1)

/-- The number of a date; the first of January of the year 1 has number 1. -/
def number (d : Date) : Int :=
  daysBeforeYear d.year + daysBeforeMonth d.year d.month + d.day

theorem daysIn_pos (year : Int) (month : Nat) : 1 ≤ daysIn year month := by
  unfold daysIn
  split
  · split <;> decide
  · split <;> decide

theorem daysBeforeMonth_succ (year : Int) (h : 1 ≤ month) :
    daysBeforeMonth year (month + 1) = daysBeforeMonth year month + daysIn year month := by
  obtain ⟨m, rfl⟩ := Nat.exists_eq_add_of_le' h
  rfl

theorem daysBeforeMonth_mono (year : Int) (h : 1 ≤ month) (hle : month ≤ month') :
    daysBeforeMonth year month ≤ daysBeforeMonth year month' := by
  induction hle with
  | refl => exact Nat.le_refl _
  | step hle ih =>
    rw [daysBeforeMonth_succ year (Nat.le_trans h hle)]
    exact Nat.le_trans ih (Nat.le_add_right _ _)

/-- The twelve months are as long as the year. -/
theorem daysBeforeYear_succ (year : Int) :
    daysBeforeYear (year + 1) = daysBeforeYear year + daysBeforeMonth year 13 := by
  have hmonths : daysBeforeMonth year 13 = 337 + daysIn year 2 := by
    simp [daysBeforeMonth, daysIn]
    omega
  have hfebruary : daysIn year 2 = if isLeapYear year then 29 else 28 := rfl
  rw [hmonths, hfebruary]
  unfold daysBeforeYear
  cases hleap : isLeapYear year with
  | true =>
    simp only [isLeapYear, Bool.and_eq_true, Bool.or_eq_true, beq_iff_eq, bne_iff_ne] at hleap
    simp only [if_true]
    omega
  | false =>
    simp only [isLeapYear, Bool.and_eq_false_iff, Bool.or_eq_false_iff, beq_eq_false_iff_ne,
      bne_eq_false_iff_eq] at hleap
    simp only [Bool.false_eq_true, if_false]
    omega

theorem daysBeforeYear_mono (h : year ≤ year') : daysBeforeYear year ≤ daysBeforeYear year' := by
  unfold daysBeforeYear
  omega

theorem number_le_month (d : Date) :
    d.number ≤ daysBeforeYear d.year + daysBeforeMonth d.year (d.month + 1) := by
  have hday := d.day_le
  rw [daysBeforeMonth_succ d.year d.month_le.1, number]
  omega

theorem number_le_year (d : Date) : d.number ≤ daysBeforeYear (d.year + 1) := by
  have hmonth := d.month_le
  have hmonths : daysBeforeMonth d.year (d.month + 1) ≤ daysBeforeMonth d.year 13 :=
    daysBeforeMonth_mono d.year (Nat.le_add_left 1 d.month) (by omega)
  have hnumber := d.number_le_month
  rw [daysBeforeYear_succ]
  omega

theorem number_lt_of_year (h : d.year < d'.year) : d.number < d'.number := by
  have hday := d'.day_le
  have hyears := daysBeforeYear_mono (Int.add_one_le_of_lt h)
  have hnumber := d.number_le_year
  have hnumber' : d'.number = daysBeforeYear d'.year + daysBeforeMonth d'.year d'.month + d'.day := rfl
  omega

theorem number_lt_of_month (hyear : d.year = d'.year) (h : d.month < d'.month) :
    d.number < d'.number := by
  have hday := d'.day_le
  have hmonths := daysBeforeMonth_mono d.year (Nat.le_add_left 1 d.month) h
  have hnumber := d.number_le_month
  have hnumber' : d'.number = daysBeforeYear d.year + daysBeforeMonth d.year d'.month + d'.day := by
    rw [number, hyear]
  omega

/-- Different dates have different numbers. -/
theorem number_inj : d.number = d'.number ↔ d = d' := by
  refine ⟨?_, congrArg number⟩
  intro h
  have hyear : d.year = d'.year := by
    rcases Int.lt_trichotomy d.year d'.year with hlt | heq | hgt
    · exact absurd h (Int.ne_of_lt (number_lt_of_year hlt))
    · exact heq
    · exact absurd h.symm (Int.ne_of_lt (number_lt_of_year hgt))
  have hmonth : d.month = d'.month := by
    rcases Nat.lt_trichotomy d.month d'.month with hlt | heq | hgt
    · exact absurd h (Int.ne_of_lt (number_lt_of_month hyear hlt))
    · exact heq
    · exact absurd h.symm (Int.ne_of_lt (number_lt_of_month hyear.symm hgt))
  have hday : d.day = d'.day := by
    unfold number at h
    rw [hyear, hmonth] at h
    omega
  cases d
  cases d'
  simp_all

theorem number_next? (h : d.next? = some d') : d'.number = d.number + 1 := by
  have hday := d.day_le
  have hmonth := d.month_le
  unfold next? at h
  unfold number
  split at h
  · obtain ⟨hy, hm, hd⟩ := of?_eq_some_iff.mp h
    rw [hy, hm, hd]
    omega
  · split at h
    · obtain ⟨hy, hm, hd⟩ := of?_eq_some_iff.mp h
      rw [hy, hm, hd, daysBeforeMonth_succ d.year hmonth.1]
      omega
    · obtain ⟨hy, hm, hd⟩ := of?_eq_some_iff.mp h
      have htwelve : d.month = 12 := by omega
      have hyear := daysBeforeYear_succ d.year
      rw [daysBeforeMonth_succ d.year (by decide : 1 ≤ 12), ← htwelve] at hyear
      have hjanuary : daysBeforeMonth (d.year + 1) 1 = 0 := rfl
      rw [hy, hm, hd, hjanuary]
      omega

theorem of?_eq_none (h : of? year month day = none) (hyear : firstYear ≤ year)
    (hmonth : 1 ≤ month ∧ month ≤ 12) (hday : 1 ≤ day ∧ day ≤ daysIn year month) :
    lastYear < year := by
  unfold of? at h
  split at h
  · cases h
  · rename_i hoff
    exact Int.not_le.mp fun hle => hoff ⟨⟨hyear, hle⟩, hmonth, hday⟩

/-- Only the last date of all has none after it. -/
theorem number_le_of_next? (h : d.next? = none) (d' : Date) : d'.number ≤ d.number := by
  have hyear := d.year_le
  have hmonth := d.month_le
  have hday := d.day_le
  -- Within a year the calendar has every date, so that it can only end with the last year.
  have hlast : d'.year ≤ d.year ∧ d.month = 12 ∧ d.day = daysIn d.year 12 := by
    unfold next? at h
    split at h
    · have := of?_eq_none h hyear.1 hmonth (by omega)
      omega
    · split at h
      · have := of?_eq_none h hyear.1 (by omega) ⟨Nat.le_refl 1, daysIn_pos _ _⟩
        omega
      · have := of?_eq_none h (by omega) (by decide) ⟨Nat.le_refl 1, daysIn_pos _ _⟩
        have htwelve : d.month = 12 := by omega
        have hle := d'.year_le
        rw [htwelve] at hday
        refine ⟨by omega, htwelve, ?_⟩
        rename_i hfull _
        rw [htwelve] at hfull
        omega
  obtain ⟨hle, htwelve, hfull⟩ := hlast
  have hyears := daysBeforeYear_mono (Int.add_le_add_right hle 1)
  have hnumber := d'.number_le_year
  have hmonths := daysBeforeYear_succ d.year
  rw [daysBeforeMonth_succ d.year (by decide : 1 ≤ 12)] at hmonths
  have hnumber' : d.number = daysBeforeYear d.year + daysBeforeMonth d.year 12 + daysIn d.year 12 := by
    rw [number, htwelve, hfull]
  omega

/-- The date after is the one with the next number. -/
theorem next?_eq_some_iff : d.next? = some d' ↔ d'.number = d.number + 1 := by
  refine ⟨number_next?, ?_⟩
  intro h
  cases hnext : d.next? with
  | none =>
    have hle := number_le_of_next? hnext d'
    omega
  | some d'' =>
    have hnumber := number_next? hnext
    exact congrArg some (number_inj.mp (by omega))

theorem previous?_eq_some_iff : d.previous? = some d' ↔ d.number = d'.number + 1 := by
  rw [← next?_eq_some_iff]
  exact ⟨next?_of_previous?, previous?_of_next?⟩

end Date

namespace WallClock
variable {t t' utc utc' : WallClock} {zone : Offset}

/-- The seconds that a wall clock time is after the midnight before the first of January of the year
1; nanoseconds are not counted. -/
def count (t : WallClock) : Int := t.date.number * 86400 + t.second

theorem eq_of_count (hcount : t.count = t'.count) (hnanos : t.nanos = t'.nanos) : t = t' := by
  have hlt := t.second_lt
  have hlt' := t'.second_lt
  unfold count at hcount
  have hdate : t.date = t'.date := Date.number_inj.mp (by omega)
  have hsecond : t.second = t'.second := by
    rw [hdate] at hcount
    omega
  cases t
  cases t'
  simp_all

/-- To shift a time is to add to its count, wherever the calendar has the sum. -/
theorem ahead?_eq_some_iff_count :
    t.ahead? zone = some t' ↔ t'.count = t.count + zone.seconds ∧ t'.nanos = t.nanos := by
  have hlt := t.second_lt
  have hlt' := t'.second_lt
  have hbound := zone.bounded
  rw [ahead?_eq_some_iff, Date.next?_eq_some_iff, Date.previous?_eq_some_iff, ← Date.number_inj]
  unfold count
  omega

/-- When clocks in a zone show `t`, those in UTC show `utc`. -/
structure IsInstant (zone : Offset) (t utc : WallClock) : Prop where
  count : utc.count + zone.seconds = t.count
  nanos : utc.nanos = t.nanos

theorem isInstant_iff : IsInstant zone t utc ↔ t.ahead? zone.opposite = some utc := by
  have hopposite : zone.opposite.seconds = -zone.seconds := rfl
  rw [ahead?_eq_some_iff_count, hopposite]
  constructor
  · rintro ⟨hcount, hnanos⟩
    exact ⟨by omega, hnanos⟩
  · rintro ⟨hcount, hnanos⟩
    exact ⟨by omega, hnanos⟩

/-- A time shows one instant. -/
theorem IsInstant.unique (h : IsInstant zone t utc) (h' : IsInstant zone t utc') : utc = utc' :=
  eq_of_count (by have := h.count; have := h'.count; omega) (h.nanos.trans h'.nanos.symm)

theorem IsInstant.scopedText? (h : IsInstant zone t utc) :
    t.scopedText? zone = some (utc.text ++ ['Z']) := by
  rw [WallClock.scopedText?, isInstant_iff.mp h, Option.map_some]

end WallClock

end ObjectTracking.Time
