import ObjectTracking.Time.WallClock
/-!
Shifting a wall clock time by an offset and back. The dates next to each other are each other's
neighbours.
-/
set_option autoImplicit false

namespace ObjectTracking.Time

namespace Date
variable {d d' : Date} {year : Int} {month day : Nat}

theorem of?_eq_some_iff :
    of? year month day = some d ↔ d.year = year ∧ d.month = month ∧ d.day = day := by
  unfold of?
  split
  · constructor
    · rintro h
      cases h
      exact ⟨rfl, rfl, rfl⟩
    · rintro ⟨rfl, rfl, rfl⟩
      rfl
  · rename_i h
    constructor
    · rintro ⟨⟩
    · rintro ⟨rfl, rfl, rfl⟩
      exact absurd ⟨d.year_le, d.month_le, d.day_le⟩ h

theorem daysIn_le (year : Int) (month : Nat) : daysIn year month ≤ 31 := by
  unfold daysIn
  split
  · split <;> decide
  · split <;> decide

theorem daysIn_twelve (year : Int) : daysIn year 12 = 31 := rfl

theorem previous?_of_next? (h : d.next? = some d') : d'.previous? = some d := by
  have hday := d.day_le
  have hmonth := d.month_le
  unfold next? at h
  unfold previous?
  split at h
  · obtain ⟨hy, hm, hd⟩ := of?_eq_some_iff.mp h
    rw [if_pos (by omega), of?_eq_some_iff, hy, hm, hd]
    exact ⟨rfl, rfl, rfl⟩
  · split at h
    · obtain ⟨hy, hm, hd⟩ := of?_eq_some_iff.mp h
      rw [if_neg (by omega), if_pos (by omega), of?_eq_some_iff, hy, hm, Nat.add_sub_cancel]
      exact ⟨rfl, rfl, by omega⟩
    · obtain ⟨hy, hm, hd⟩ := of?_eq_some_iff.mp h
      have htwelve : d.month = 12 := by omega
      have hlast := daysIn_twelve d.year
      rw [htwelve] at hday
      rename_i hfull _
      rw [htwelve] at hfull
      rw [if_neg (by omega), if_neg (by omega), of?_eq_some_iff]
      exact ⟨by omega, htwelve, by omega⟩

theorem next?_of_previous? (h : d.previous? = some d') : d'.next? = some d := by
  have hday := d.day_le
  have hmonth := d.month_le
  unfold previous? at h
  unfold next?
  split at h
  · obtain ⟨hy, hm, hd⟩ := of?_eq_some_iff.mp h
    rw [hy, hm, hd, if_pos (by omega), of?_eq_some_iff]
    exact ⟨rfl, rfl, by omega⟩
  · split at h
    · obtain ⟨hy, hm, hd⟩ := of?_eq_some_iff.mp h
      rw [hy, hm, hd, if_neg (by omega), if_pos (by omega), of?_eq_some_iff]
      exact ⟨rfl, by omega, by omega⟩
    · obtain ⟨hy, hm, hd⟩ := of?_eq_some_iff.mp h
      rw [hy, hm, hd, if_neg (by rw [daysIn_twelve]; omega), if_neg (by omega), of?_eq_some_iff]
      exact ⟨by omega, by omega, by omega⟩

/-- Two days or more inside the calendar, seen from either end of it. -/
def Inside (d : Date) : Prop :=
  (d.previous?.bind Date.previous?).isSome = true ∧ (d.next?.bind Date.next?).isSome = true

end Date

namespace WallClock
variable {t t' : WallClock} {o : Offset}

theorem at_eq_some_iff {date : Option Date} {second : Int} {nanos : Nat}
    (hnanos : nanos < 2000000000) (h : 0 ≤ second ∧ second < 86400) :
    (if _ : 0 ≤ second ∧ second < 86400 then
        date.map fun d => (⟨d, second.toNat, nanos, by omega, hnanos⟩ : WallClock)
      else none) = some t' ↔
      date = some t'.date ∧ (t'.second : Int) = second ∧ t'.nanos = nanos := by
  rw [dif_pos h, Option.map_eq_some_iff]
  constructor
  · rintro ⟨d, hd, rfl⟩
    exact ⟨hd, Int.toNat_of_nonneg h.1, rfl⟩
  · rintro ⟨hd, hs, rfl⟩
    refine ⟨t'.date, hd, ?_⟩
    obtain ⟨date', second', nanos', hsecond', hnanos'⟩ := t'
    have hs : (second' : Int) = second := hs
    have hsecond : second.toNat = second' := by omega
    subst hsecond
    rfl

/-- A time that is shifted stays on its date or comes to one next to it. -/
theorem ahead?_eq_some_iff : t.ahead? o = some t' ↔ t'.nanos = t.nanos ∧
    ((t.second + o.seconds < 0 ∧ t.date.previous? = some t'.date ∧
        (t'.second : Int) = t.second + o.seconds + 86400) ∨
      (0 ≤ t.second + o.seconds ∧ t.second + o.seconds < 86400 ∧ t.date = t'.date ∧
        (t'.second : Int) = t.second + o.seconds) ∨
      (86400 ≤ t.second + o.seconds ∧ t.date.next? = some t'.date ∧
        (t'.second : Int) = t.second + o.seconds - 86400)) := by
  have hsecond := t.second_lt
  have hbound := o.bounded
  unfold ahead?
  dsimp only
  split
  · rw [at_eq_some_iff t.nanos_lt (by omega)]
    constructor
    · rintro ⟨hd, hs, hn⟩
      exact ⟨hn, .inl ⟨by omega, hd, hs⟩⟩
    · rintro ⟨hn, ⟨_, hd, hs⟩ | ⟨_, _, _, _⟩ | ⟨_, _, _⟩⟩
      · exact ⟨hd, hs, hn⟩
      · omega
      · omega
  · split
    · rw [at_eq_some_iff t.nanos_lt (by omega), Option.some.injEq]
      constructor
      · rintro ⟨hd, hs, hn⟩
        exact ⟨hn, .inr (.inl ⟨by omega, by omega, hd, hs⟩)⟩
      · rintro ⟨hn, ⟨_, _, _⟩ | ⟨_, _, hd, hs⟩ | ⟨_, _, _⟩⟩
        · omega
        · exact ⟨hd, hs, hn⟩
        · omega
    · rw [at_eq_some_iff t.nanos_lt (by omega)]
      constructor
      · rintro ⟨hd, hs, hn⟩
        exact ⟨hn, .inr (.inr ⟨by omega, hd, hs⟩)⟩
      · rintro ⟨hn, ⟨_, _, _⟩ | ⟨_, _, _, _⟩ | ⟨_, hd, hs⟩⟩
        · omega
        · omega
        · exact ⟨hd, hs, hn⟩

/-- Inside the calendar a time can be shifted by every offset. -/
theorem ahead?_of_inside (h : t.date.Inside) (o : Offset) : ∃ t', t.ahead? o = some t' := by
  obtain ⟨before, hprevious⟩ :=
    Option.isSome_iff_exists.mp (Option.isSome_of_isSome_bind h.1)
  obtain ⟨after, hnext⟩ := Option.isSome_iff_exists.mp (Option.isSome_of_isSome_bind h.2)
  have hsecond := t.second_lt
  have hbound := o.bounded
  unfold ahead?
  dsimp only
  split
  · rw [dif_pos (by omega), hprevious]
    exact ⟨_, rfl⟩
  · split
    · rw [dif_pos (by omega)]
      exact ⟨_, rfl⟩
    · rw [dif_pos (by omega), hnext]
      exact ⟨_, rfl⟩

/-- A time that was shifted is shifted back by the opposite offset. -/
theorem ahead?_opposite (h : t.ahead? o.opposite = some t') : t'.ahead? o = some t := by
  have hsecond := t.second_lt
  have hsecond' := t'.second_lt
  have hopposite : o.opposite.seconds = -o.seconds := rfl
  rw [ahead?_eq_some_iff, hopposite] at h
  rw [ahead?_eq_some_iff]
  obtain ⟨hn, ⟨_, hd, hs⟩ | ⟨_, _, hd, hs⟩ | ⟨_, hd, hs⟩⟩ := h
  · exact ⟨hn.symm, .inr (.inr ⟨by omega, Date.next?_of_previous? hd, by omega⟩)⟩
  · exact ⟨hn.symm, .inr (.inl ⟨by omega, by omega, hd.symm, by omega⟩)⟩
  · exact ⟨hn.symm, .inl ⟨by omega, Date.previous?_of_next? hd, by omega⟩⟩

/-- Shifting by whole minutes keeps the seconds within the minute. -/
theorem secondOfMinute_of_ahead? (h : t.ahead? o.opposite = some t') (ho : o.seconds % 60 = 0) :
    t'.secondOfMinute = t.secondOfMinute := by
  have hopposite : o.opposite.seconds = -o.seconds := rfl
  rw [ahead?_eq_some_iff, hopposite] at h
  unfold secondOfMinute
  obtain ⟨_, ⟨_, _, hs⟩ | ⟨_, _, _, hs⟩ | ⟨_, _, hs⟩⟩ := h <;> omega

end WallClock

end ObjectTracking.Time
