import ObjectTracking.Proofs.Time.Duration
/-!
A bias that was written is read again. The parts that are left out count nothing.
-/
set_option autoImplicit false

namespace ObjectTracking.Time.Bias
open Text

def shownPart (shown : Prop) [Decidable shown] (n : Nat) (period : Period true) :
    List (Part true) :=
  if shown then [⟨digits n, isDigits_digits n, period⟩] else []

theorem textOf_append (a b : List (Part true)) : textOf (a ++ b) = textOf a ++ textOf b := by
  simp [textOf]

theorem total_append (a b : List (Part true)) : total (a ++ b) = total a + total b := by
  simp [total]

theorem textOf_shownPart (shown : Prop) [Decidable shown] (n : Nat) (period : Period true) :
    textOf (shownPart shown n period) = if shown then digits n ++ [period.letter] else [] := by
  unfold shownPart
  split <;> simp [textOf, Part.text]

theorem total_shownPart {shown : Prop} [Decidable shown] {n : Nat} (period : Period true)
    (hhidden : ¬shown → n = 0) : total (shownPart shown n period) = n * period.seconds := by
  unfold shownPart
  split
  · simp [total, Part.seconds]
  · rename_i h
    simp [total, hhidden h]

theorem shownPart_eq_nil_iff {shown : Prop} [Decidable shown] {n : Nat} {period : Period true} :
    shownPart shown n period = [] ↔ ¬shown := by
  unfold shownPart
  split <;> simp [*]

/-- What is written is a duration with the seconds of the offset and at least one part. -/
theorem format_eq (o : Offset) : ∃ parts : List (Part true),
    format o = (if 0 < o.seconds then ['-'] else []) ++ 'P' :: 'T' :: textOf parts ∧
      parts ≠ [] ∧ total parts = o.seconds.natAbs := by
  simp only [format]
  generalize o.seconds.natAbs = n
  refine ⟨shownPart (0 < n / 3600 ∨ (n / 60 % 60 = 0 ∧ n % 60 = 0)) (n / 3600) .hour ++
    shownPart (0 < n / 60 % 60) (n / 60 % 60) .minute ++
    shownPart (0 < n % 60) (n % 60) .second, ?_, ?_, ?_⟩
  · simp [textOf_append, textOf_shownPart, Period.letter]
  · simp only [ne_eq, List.append_eq_nil_iff, shownPart_eq_nil_iff]
    omega
  · rw [total_append, total_append, total_shownPart .hour (by omega),
      total_shownPart .minute (by omega), total_shownPart .second (by omega)]
    simp only [Period.seconds]
    omega

theorem letter_mem (period : Period true) : period.letter ∈ ['H', 'M', 'S'] := by
  cases period <;> decide

theorem mem_textOf {parts : List (Part true)} {c : Char} (h : c ∈ textOf parts) :
    c.isDigit = true ∨ c ∈ ['H', 'M', 'S'] := by
  obtain ⟨p, -, hc⟩ := List.mem_flatMap.mp h
  rcases List.mem_append.mp hc with hc | hc
  · exact .inl (p.isDigit_of_mem hc)
  · rw [List.mem_singleton.mp hc]
    exact .inr (letter_mem p.period)

theorem mem_format {o : Offset} {c : Char} (h : c ∈ format o) :
    c.isDigit = true ∨ c ∈ ['-', 'P', 'T', 'H', 'M', 'S'] := by
  obtain ⟨parts, hformat, -⟩ := format_eq o
  rw [hformat, List.mem_append, List.mem_cons, List.mem_cons] at h
  rcases h with h | rfl | rfl | h
  · split at h
    · rw [List.mem_singleton.mp h]
      exact .inr (by decide)
    · cases h
  · exact .inr (by decide)
  · exact .inr (by decide)
  · refine (mem_textOf h).imp_right fun hletter => ?_
    simp only [List.mem_cons] at hletter ⊢
    exact .inr (.inr (.inr hletter))

theorem trim_format (o : Offset) : trim (format o) = format o := by
  refine trim_eq_self_of_all fun c hc => ?_
  rcases mem_format hc with hdigit | hletter
  · exact isBlank_of_isDigit hdigit
  · have hletters : ['-', 'P', 'T', 'H', 'M', 'S'].all (fun c => !isBlank c) = true := rfl
    simpa using List.all_eq_true.mp hletters c hletter

theorem point_not_mem_format (o : Offset) : '.' ∉ format o := fun h =>
  absurd (mem_format h) (by decide)

/-- An offset that was written is read again. -/
theorem parse?_format (o : Offset) : parse? (format o) = some o := by
  obtain ⟨parts, hformat, hparts, htotal⟩ := format_eq o
  rw [parse?, Attempt.value?_eq_some_iff, read_eq_done_iff (point_not_mem_format o), trim_format]
  refine ⟨⟨decide (0 < o.seconds), [], some parts⟩, ?_, .inr hparts, ?_⟩
  · simpa [Duration.text, Duration.body, textOf, clockText] using hformat
  · simp only [Duration.east, Duration.seconds, total, List.map_nil, List.sum_nil, Nat.zero_add,
      Option.getD_some, decide_eq_true_eq]
    change o.seconds = if 0 < o.seconds then (total parts : Int) else -total parts
    split <;> omega

end ObjectTracking.Time.Bias
