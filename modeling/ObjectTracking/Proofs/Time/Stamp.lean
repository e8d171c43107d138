import Mathlib.Data.List.TakeDrop
import ObjectTracking.Proofs.Text.Digits
import ObjectTracking.Proofs.Time.WallClock
import ObjectTracking.Time.Stamp
/-!
An instant that was written is read again, if its year has four digits and a leap second is the last
of its minute.
-/
set_option autoImplicit false

namespace ObjectTracking.Time
open Text

namespace Stamp

theorem fixed?_append {ds : List Char} {width : Nat} (hlength : ds.length = width)
    (hdigits : ds.all Char.isDigit = true) (rest : List Char) :
    fixed? width (ds ++ rest) = some (number ds, rest) := by
  subst hlength
  simp [fixed?, hdigits]

theorem fixed?_padded {width n : Nat} (hwidth : 0 < width) (h : n < 10 ^ width) (rest : List Char) :
    fixed? width (padded width n ++ rest) = some (n, rest) := by
  rw [fixed?_append (length_padded hwidth h) (all_isDigit_padded width n), number_padded]

@[simp] theorem char?_cons (c : Char) (rest : List Char) : char? c (c :: rest) = some rest := by
  simp [char?]

theorem fraction?_padded {width n : Nat} (hwidth : 0 < width) (hnine : width ≤ 9)
    (h : n < 10 ^ width) {rest : List Char} (hrest : Ends Char.isDigit rest) :
    fraction? ('.' :: padded width n ++ rest) = some (n * 10 ^ (9 - width), rest) := by
  have hlength := length_padded hwidth h
  have htake : (padded width n ++ List.replicate 9 '0').take 9 =
      padded width n ++ List.replicate (9 - width) '0' := by
    rw [List.take_append, hlength, List.take_of_length_le (by omega), List.take_replicate,
      Nat.min_eq_left (by omega)]
  have hne : (padded width n).isEmpty = false := by
    rw [List.isEmpty_eq_false_iff, ← List.length_pos_iff]
    omega
  simp only [List.cons_append, fraction?, digitRun_append (all_isDigit_padded width n) hrest, hne,
    Bool.false_eq_true, if_false, htake, number_replicate_zero, number_padded]

theorem fraction?_fractionText (nanos : Nat) {rest : List Char} (hrest : Ends Char.isDigit rest)
    (hnone : fraction? rest = some (0, rest)) :
    fraction? (WallClock.fractionText nanos ++ rest) = some (nanos % 1000000000, rest) := by
  unfold WallClock.fractionText
  dsimp only
  split
  · rename_i h
    rw [beq_iff_eq] at h
    rw [h]
    exact hnone
  · split
    · rename_i h
      rw [beq_iff_eq] at h
      rw [fraction?_padded (by decide) (by decide) (by omega) hrest, Option.some.injEq, Prod.mk.injEq]
      exact ⟨by omega, rfl⟩
    · split
      · rename_i h
        rw [beq_iff_eq] at h
        rw [fraction?_padded (by decide) (by decide) (by omega) hrest, Option.some.injEq,
          Prod.mk.injEq]
        exact ⟨by omega, rfl⟩
      · rw [fraction?_padded (by decide) (by decide) (by omega) hrest, Option.some.injEq,
          Prod.mk.injEq]
        exact ⟨by omega, rfl⟩

end Stamp

namespace WallClock
variable {t : WallClock}

theorem of?_numbers (t : WallClock) :
    of? t.date t.hour t.minute t.secondOfMinute t.nanos = some t := by
  have hsecond := t.second_lt
  have hhour : t.hour < 24 := by
    unfold hour
    omega
  have hminute : t.minute < 60 := Nat.mod_lt _ (by decide)
  have hseconds : t.secondOfMinute < 60 := Nat.mod_lt _ (by decide)
  have hsum : t.hour * 3600 + t.minute * 60 + t.secondOfMinute = t.second := by
    unfold hour minute secondOfMinute
    omega
  unfold of?
  rw [dif_pos ⟨hhour, hminute, hseconds, t.nanos_lt⟩]
  simp only [hsum]

/-- A leap second that is the last of its minute is read from the sixtieth. -/
theorem ofReading?_numbers (h : 1000000000 ≤ t.nanos → t.secondOfMinute = 59) :
    ofReading? t.date t.hour t.minute (t.secondOfMinute + t.nanos / 1000000000)
      (t.nanos % 1000000000) = some t := by
  have hnanos := t.nanos_lt
  have hsecond : t.secondOfMinute < 60 := Nat.mod_lt _ (by decide)
  unfold ofReading?
  by_cases hleap : 1000000000 ≤ t.nanos
  · have hlast := h hleap
    have hsixty : t.secondOfMinute + t.nanos / 1000000000 = 60 := by omega
    have hcount : 1000000000 + t.nanos % 1000000000 = t.nanos := by omega
    rw [if_pos hsixty, hcount, ← hlast]
    exact of?_numbers t
  · have hnone : t.secondOfMinute + t.nanos / 1000000000 = t.secondOfMinute := by omega
    have hcount : t.nanos % 1000000000 = t.nanos := by omega
    rw [hnone, if_neg (by omega), hcount]
    exact of?_numbers t

theorem ahead?_utc (t : WallClock) : t.ahead? Offset.utc.opposite = some t := by
  rw [ahead?_eq_some_iff]
  have := t.second_lt
  have hzero : Offset.utc.opposite.seconds = 0 := rfl
  exact ⟨rfl, .inr (.inl ⟨by omega, by omega, rfl, by omega⟩)⟩

/-- A time that an instant can be written for: its year has four digits, and a leap second is the
last of its minute. -/
structure Writable (t : WallClock) : Prop where
  year : 0 ≤ t.date.year ∧ t.date.year ≤ 9999
  leap : 1000000000 ≤ t.nanos → t.secondOfMinute = 59

theorem Writable.date (h : t.Writable) :
    Date.of? (t.date.year.toNat : Int) t.date.month t.date.day = some t.date := by
  have hyear := h.year
  exact Date.of?_eq_some_iff.mpr ⟨by omega, rfl, rfl⟩

/-- The numbers of a time fit into the widths that they are written in. -/
theorem Writable.widths (h : t.Writable) : t.date.year.toNat < 10 ^ 4 ∧ t.date.month < 10 ^ 2 ∧
    t.date.day < 10 ^ 2 ∧ t.hour < 10 ^ 2 ∧ t.minute < 10 ^ 2 ∧
      t.secondOfMinute + t.nanos / 1000000000 < 10 ^ 2 := by
  have hyear := h.year
  have hmonth := t.date.month_le
  have hday := t.date.day_le
  have hlast := Date.daysIn_le t.date.year t.date.month
  have hsecond := t.second_lt
  have hnanos := t.nanos_lt
  unfold hour minute secondOfMinute
  omega

theorem text_eq (h : t.Writable) : t.text = padded 4 t.date.year.toNat ++ '-' ::
    (padded 2 t.date.month ++ '-' :: (padded 2 t.date.day ++ 'T' :: (padded 2 t.hour ++ ':' ::
      (padded 2 t.minute ++ ':' :: (padded 2 (t.secondOfMinute + t.nanos / 1000000000) ++
        fractionText t.nanos))))) := by
  simp [text, yearText, h.year]

theorem isBlank_of_mem_fractionText {nanos : Nat} :
    ∀ c ∈ fractionText nanos, isBlank c = false := by
  have hfraction : ∀ width n, ∀ c ∈ '.' :: padded width n, isBlank c = false := fun width n =>
    List.forall_mem_cons.mpr ⟨by decide, fun _ => isBlank_of_mem_padded⟩
  unfold fractionText
  dsimp only
  split
  · exact List.forall_mem_nil _
  · split
    · exact hfraction _ _
    · split
      · exact hfraction _ _
      · exact hfraction _ _

theorem isBlank_of_mem_text (h : t.Writable) : ∀ c ∈ t.text, isBlank c = false := by
  have hminus : isBlank '-' = false := by decide
  have hcolon : isBlank ':' = false := by decide
  have hpadded : ∀ width n, ∀ c ∈ padded width n, isBlank c = false :=
    fun _ _ _ => isBlank_of_mem_padded
  rw [text_eq h]
  simp only [List.forall_mem_append, List.forall_mem_cons]
  exact ⟨hpadded _ _, hminus, hpadded _ _, hminus, hpadded _ _, by decide, hpadded _ _, hcolon,
    hpadded _ _, hcolon, hpadded _ _, isBlank_of_mem_fractionText⟩

end WallClock

namespace Stamp
open WallClock
variable {t : WallClock}

theorem bind_of_eq_some {α β : Type} {x : Option α} {a : α} {f : α → Option β} {r : Option β}
    (hx : x = some a) (hf : f a = r) : x >>= f = r := by
  rw [hx]
  exact hf

/-- What is read of numbers in their widths is up to the zone that follows. -/
theorem readAbsolute?_numbers {year month day hour minute second nanos : Nat}
    {fraction rest : List Char} {date : Date} (hyear : year < 10 ^ 4) (hmonth : month < 10 ^ 2)
    (hday : day < 10 ^ 2) (hhour : hour < 10 ^ 2) (hminute : minute < 10 ^ 2)
    (hsecond : second < 10 ^ 2) (hfraction : fraction? (fraction ++ rest) = some (nanos, rest))
    (hdate : Date.of? year month day = some date)
    (ht : ofReading? date hour minute second nanos = some t) :
    readAbsolute? (padded 4 year ++ '-' :: (padded 2 month ++ '-' :: (padded 2 day ++ 'T' ::
      (padded 2 hour ++ ':' :: (padded 2 minute ++ ':' :: (padded 2 second ++
        (fraction ++ rest))))))) =
      (zone? rest).bind fun x =>
        if x.2.isEmpty then (t.ahead? x.1.opposite).map (.absolute · x.1) else none := by
  have hread : ∀ x : Offset × List Char,
      (if x.2.isEmpty then do
        let date ← Date.of? year month day
        let wall ← ofReading? date hour minute second nanos
        let utc ← wall.ahead? x.1.opposite
        some (Stamp.absolute utc x.1)
      else none) =
        if x.2.isEmpty then (t.ahead? x.1.opposite).map (Stamp.absolute · x.1) else none := by
    intro x
    refine if_congr Iff.rfl ?_ rfl
    refine bind_of_eq_some hdate (bind_of_eq_some ht ?_)
    cases t.ahead? x.1.opposite <;> rfl
  refine bind_of_eq_some (fixed?_padded (by decide) hyear _) ?_
  refine bind_of_eq_some (char?_cons _ _) ?_
  refine bind_of_eq_some (fixed?_padded (by decide) hmonth _) ?_
  refine bind_of_eq_some (char?_cons _ _) ?_
  refine bind_of_eq_some (fixed?_padded (by decide) hday _) ?_
  refine bind_of_eq_some (a := padded 2 hour ++ ':' :: (padded 2 minute ++ ':' ::
    (padded 2 second ++ (fraction ++ rest)))) rfl ?_
  refine bind_of_eq_some (fixed?_padded (by decide) hhour _) ?_
  refine bind_of_eq_some (char?_cons _ _) ?_
  refine bind_of_eq_some (fixed?_padded (by decide) hminute _) ?_
  refine bind_of_eq_some (char?_cons _ _) ?_
  refine bind_of_eq_some (fixed?_padded (by decide) hsecond _) ?_
  refine bind_of_eq_some hfraction ?_
  exact congrArg (zone? rest).bind (funext hread)

/-- The numbers of a time in their widths, with whatever follows them. -/
theorem readAbsolute?_text_append (h : t.Writable) {rest : List Char}
    (hrest : Ends Char.isDigit rest) (hnone : fraction? rest = some (0, rest)) :
    readAbsolute? (t.text ++ rest) = (zone? rest).bind fun x =>
      if x.2.isEmpty then (t.ahead? x.1.opposite).map (.absolute · x.1) else none := by
  obtain ⟨hyear, hmonth, hday, hhour, hminute, hsecond⟩ := h.widths
  rw [text_eq h]
  simp only [List.append_assoc, List.cons_append]
  exact readAbsolute?_numbers hyear hmonth hday hhour hminute hsecond
    (fraction?_fractionText t.nanos hrest hnone) h.date (ofReading?_numbers h.leap)

theorem readAbsolute?_text (h : t.Writable) :
    readAbsolute? (t.text ++ ['Z']) = some (.absolute t Offset.utc) := by
  have hzone : zone? ['Z'] = some (Offset.utc, []) := rfl
  have hfraction : fraction? ['Z'] = some (0, ['Z']) := rfl
  rw [readAbsolute?_text_append h (ends_cons (by decide) []) hfraction, hzone, Option.bind_some,
    ahead?_utc]
  rfl

theorem trim_text (h : t.Writable) : trim (t.text ++ ['Z']) = t.text ++ ['Z'] := by
  have hletter : ∀ c ∈ ['Z'], isBlank c = false := List.forall_mem_singleton.mpr (by decide)
  exact trim_eq_self_of_all (List.forall_mem_append.mpr ⟨isBlank_of_mem_text h, hletter⟩)

/-- An instant that was written is read again. -/
theorem parse?_text (h : t.Writable) : parse? (t.text ++ ['Z']) = some (.absolute t Offset.utc) := by
  rw [parse?, trim_text h, readAbsolute?_text h, Option.some_or]

end Stamp

end ObjectTracking.Time
