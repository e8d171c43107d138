import ObjectTracking.Markup.Entity
/-!
Escaped text stands for the text it was made from, and holds none of the characters that end a text
or an attribute.
-/
set_option autoImplicit false

namespace ObjectTracking.Markup

theorem escapeChar_of_none {c : Char} (h : entityName? c = none) : escapeChar c = [c] := by
  simp [escapeChar, h]

/-- A character is escaped with its name, or it stands for itself and is none of the five. -/
theorem entityName?_cases (c : Char) :
    (c = '<' ∨ c = '>' ∨ c = '&' ∨ c = '\'' ∨ c = '"') ∨
      (entityName? c = none ∧ c ≠ '<' ∧ c ≠ '>' ∧ c ≠ '&' ∧ c ≠ '\'' ∧ c ≠ '"') := by
  by_cases h : c = '<' ∨ c = '>' ∨ c = '&' ∨ c = '\'' ∨ c = '"'
  · exact .inl h
  · simp only [not_or] at h
    refine .inr ⟨?_, h⟩
    unfold entityName?
    split
    · exact absurd rfl h.1
    · exact absurd rfl h.2.1
    · exact absurd rfl h.2.2.1
    · exact absurd rfl h.2.2.2.1
    · exact absurd rfl h.2.2.2.2
    · rfl

theorem unescape?_escapeChar (c : Char) (rest : List Char) :
    unescape? (escapeChar c ++ rest) = (c :: ·) <$> unescape? rest := by
  rcases entityName?_cases c with hnamed | ⟨hnone, -, -, hamp, -⟩
  · rcases hnamed with rfl | rfl | rfl | rfl | rfl <;>
      simp [escapeChar, entityName?, unescape?, endsEntity, entity?]
  · rw [escapeChar_of_none hnone, List.singleton_append, unescape?, if_neg hamp]

/-- Text that was escaped is read as what it was. -/
theorem unescape?_escape (cs : List Char) : unescape? (escape cs) = some cs := by
  induction cs with
  | nil => rw [escape, List.flatMap_nil, unescape?]
  | cons c cs ih =>
    rw [escape, List.flatMap_cons, unescape?_escapeChar]
    rw [escape] at ih
    rw [ih]
    rfl

theorem not_mem_escape {cs : List Char} {d : Char} (hd : d = '<' ∨ d = '>' ∨ d = '\'' ∨ d = '"') :
    d ∉ escape cs := by
  intro h
  obtain ⟨c, _, hc⟩ := List.mem_flatMap.mp h
  rcases entityName?_cases c with hnamed | ⟨hnone, hlt, hgt, _, hapos, hquot⟩
  · revert hc
    rcases hnamed with rfl | rfl | rfl | rfl | rfl <;>
      rcases hd with rfl | rfl | rfl | rfl <;> decide
  · rw [escapeChar_of_none hnone, List.mem_singleton] at hc
    subst hc
    rcases hd with rfl | rfl | rfl | rfl
    · exact hlt rfl
    · exact hgt rfl
    · exact hapos rfl
    · exact hquot rfl

theorem escape_ne_nil {cs : List Char} (h : cs ≠ []) : escape cs ≠ [] := by
  intro hnil
  have hread := unescape?_escape cs
  rw [hnil, unescape?] at hread
  exact h (Option.some.inj hread).symm

end ObjectTracking.Markup
