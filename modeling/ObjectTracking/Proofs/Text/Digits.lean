import Mathlib.Algebra.Ring.Nat
import Mathlib.Data.List.TakeDrop
import ObjectTracking.Text.Blank
import ObjectTracking.Text.Digits
/-!
Numbers and texts that are written and read again: digits denote the number they were written for,
and a text that neither begins nor ends with a blank is its own trimmed form.
-/
set_option autoImplicit false

namespace ObjectTracking.Text

/-- What follows a run of characters, if it does not go on with it. -/
def Ends (p : Char → Bool) (rest : List Char) : Prop := ∀ c cs, rest = c :: cs → p c = false

theorem takeWhile_append_of_ends {p : Char → Bool} {run rest : List Char} (h : run.all p = true)
    (hrest : Ends p rest) : (run ++ rest).takeWhile p = run := by
  induction run with
  | nil =>
    cases rest with
    | nil => rfl
    | cons c cs => simp [hrest c cs rfl]
  | cons c run ih =>
    simp only [List.all_cons, Bool.and_eq_true] at h
    simp [h.1, ih h.2]

theorem dropWhile_append_of_ends {p : Char → Bool} {run rest : List Char} (h : run.all p = true)
    (hrest : Ends p rest) : (run ++ rest).dropWhile p = rest := by
  induction run with
  | nil =>
    cases rest with
    | nil => rfl
    | cons c cs => simp [hrest c cs rfl]
  | cons c run ih =>
    simp only [List.all_cons, Bool.and_eq_true] at h
    simp [h.1, ih h.2]

theorem ends_nil (p : Char → Bool) : Ends p [] := by
  intro c cs h
  cases h

theorem ends_cons {p : Char → Bool} {c : Char} (h : p c = false) (cs : List Char) :
    Ends p (c :: cs) := by
  intro c' cs' heq
  cases heq
  exact h

theorem digitRun_append {ds rest : List Char} (h : ds.all Char.isDigit = true)
    (hrest : Ends Char.isDigit rest) : digitRun (ds ++ rest) = (ds, rest) := by
  rw [digitRun, List.span_eq_takeWhile_dropWhile, takeWhile_append_of_ends h hrest,
    dropWhile_append_of_ends h hrest]

theorem trim_eq_self {cs : List Char} (hfirst : ∀ c, cs.head? = some c → isBlank c = false)
    (hlast : ∀ c, cs.getLast? = some c → isBlank c = false) : trim cs = cs := by
  have hself : ∀ l : List Char, (∀ c, l.head? = some c → isBlank c = false) →
      l.dropWhile isBlank = l := by
    intro l hl
    cases l with
    | nil => rfl
    | cons c l => simp [hl c rfl]
  have hstart : trimStart cs = cs := hself cs hfirst
  have hend : cs.reverse.dropWhile isBlank = cs.reverse := by
    apply hself
    simpa using hlast
  rw [trim, hstart, trimEnd, hend, List.reverse_reverse]

theorem trim_eq_self_of_all {cs : List Char} (h : ∀ c ∈ cs, isBlank c = false) : trim cs = cs := by
  refine trim_eq_self ?_ ?_
  · intro c hc
    exact h c (List.mem_of_head? hc)
  · intro c hc
    exact h c (List.mem_of_getLast? hc)

theorem trimEnd_prefix (cs : List Char) : trimEnd cs <+: cs := by
  have hsuffix := (List.dropWhile_suffix (l := cs.reverse) isBlank).reverse
  rwa [List.reverse_reverse] at hsuffix

theorem mem_of_mem_trim {c : Char} {cs : List Char} (h : c ∈ trim cs) : c ∈ cs :=
  List.IsSuffix.mem (List.IsPrefix.mem h <| trimEnd_prefix _) (List.dropWhile_suffix isBlank)

theorem isBlank_of_head?_dropWhile (cs : List Char) {c : Char}
    (h : (cs.dropWhile isBlank).head? = some c) : isBlank c = false := by
  have hnot := List.head?_dropWhile_not isBlank cs
  rwa [h] at hnot

@[simp] theorem trim_trim (cs : List Char) : trim (trim cs) = trim cs := by
  refine trim_eq_self ?_ ?_
  · intro c hc
    obtain ⟨rest, hrest⟩ := trimEnd_prefix (trimStart cs)
    apply isBlank_of_head?_dropWhile cs
    change (trimStart cs).head? = some c
    rw [← hrest, List.head?_append]
    exact Option.or_eq_some_iff.mpr (.inl hc)
  · intro c hc
    rw [trim, trimEnd, List.getLast?_reverse] at hc
    exact isBlank_of_head?_dropWhile _ hc

theorem isBlank_of_isDigit {c : Char} (h : c.isDigit = true) : isBlank c = false := by
  simp only [Char.isDigit, Bool.and_eq_true, decide_eq_true_eq, ge_iff_le] at h
  have h₁ : 48 ≤ c.toNat := h.1
  have h₂ : c.toNat ≤ 57 := h.2
  simp only [isBlank, Bool.or_eq_false_iff, Bool.and_eq_false_imp, decide_eq_true_eq,
    decide_eq_false_iff_not, beq_eq_false_iff_ne]
  omega

theorem all_isDigit_digits (n : Nat) : (digits n).all Char.isDigit = true := by
  rw [List.all_eq_true]
  intro c hc
  exact Nat.isDigit_of_mem_toDigits (by decide) (by decide) hc

theorem digits_ne_nil (n : Nat) : digits n ≠ [] := Nat.toDigits_ne_nil

@[simp] theorem number_digits (n : Nat) : number (digits n) = n := Nat.ofDigitChars_ten_toDigits

theorem isDigits_digits (n : Nat) : isDigits (digits n) = true := by
  simp [isDigits, all_isDigit_digits, digits_ne_nil]

theorem isDigit_of_mem {cs : List Char} (h : isDigits cs = true) {c : Char} (hc : c ∈ cs) :
    c.isDigit = true := by
  rw [isDigits, Bool.and_eq_true, List.all_eq_true] at h
  exact h.2 c hc

theorem isDigits_append {a b : List Char} (ha : isDigits a = true) (hb : isDigits b = true) :
    isDigits (a ++ b) = true := by
  simp only [isDigits, Bool.and_eq_true, Bool.not_eq_true', List.isEmpty_eq_false_iff,
    List.all_append] at ha hb ⊢
  exact ⟨by simp [ha.1], ha.2, hb.2⟩

theorem number?_eq_some_iff {cs : List Char} {n : Nat} :
    number? cs = some n ↔ isDigits cs = true ∧ number cs = n := by
  unfold number?
  split <;> simp [*]

@[simp] theorem number?_digits (n : Nat) : number? (digits n) = some n := by
  simp [number?, isDigits_digits]

theorem length_digits_le {n width : Nat} (hwidth : 0 < width) (h : n < 10 ^ width) :
    (digits n).length ≤ width := (Nat.length_toDigits_le_iff (by decide) hwidth).mpr h

theorem length_padded {n width : Nat} (hwidth : 0 < width) (h : n < 10 ^ width) :
    (padded width n).length = width := by
  have := length_digits_le hwidth h
  simp only [padded, List.length_append, List.length_replicate]
  omega

theorem all_isDigit_padded (width n : Nat) : (padded width n).all Char.isDigit = true := by
  have hzero : ('0').isDigit = true := by decide
  simp [padded, all_isDigit_digits, hzero]

@[simp] theorem number_padded (width n : Nat) : number (padded width n) = n := by
  have h := number_digits n
  unfold number at h ⊢
  rw [padded, Nat.ofDigitChars_append, Nat.ofDigitChars_replicate_zero, Nat.mul_zero, h]

theorem number_replicate_zero (ds : List Char) (n : Nat) :
    number (ds ++ List.replicate n '0') = number ds * 10 ^ n := by
  rw [number, Nat.ofDigitChars_append, Nat.ofDigitChars_replicate_zero, number, Nat.mul_comm]

theorem digits_eq_cons (n : Nat) : ∃ c ds, digits n = c :: ds ∧ c.isDigit = true := by
  cases h : digits n with
  | nil => exact absurd h (digits_ne_nil n)
  | cons c ds =>
    have hall := all_isDigit_digits n
    rw [h, List.all_cons, Bool.and_eq_true] at hall
    exact ⟨c, ds, rfl, hall.1⟩

theorem padded_eq_cons (width n : Nat) :
    ∃ c ds, padded width n = c :: ds ∧ c.isDigit = true := by
  have hall := all_isDigit_padded width n
  cases h : padded width n with
  | nil => exact absurd (List.append_eq_nil_iff.mp h).2 (digits_ne_nil n)
  | cons c ds =>
    rw [h, List.all_cons, Bool.and_eq_true] at hall
    exact ⟨c, ds, rfl, hall.1⟩

theorem isBlank_of_mem_padded {width n : Nat} {c : Char} (h : c ∈ padded width n) :
    isBlank c = false :=
  isBlank_of_isDigit (List.all_eq_true.mp (all_isDigit_padded width n) c h)

theorem trimStart_padded (width n : Nat) (rest : List Char) :
    trimStart (padded width n ++ rest) = padded width n ++ rest := by
  obtain ⟨c, ds, hpadded, hdigit⟩ := padded_eq_cons width n
  rw [hpadded, List.cons_append, trimStart, List.dropWhile_cons, isBlank_of_isDigit hdigit]
  rfl

theorem integer?_signed (i : Int) : integer? (signed i) = some i := by
  unfold signed
  split
  · simp only [integer?, number?_digits, Option.map_some, Option.some.injEq,
      Int.ofNat_eq_natCast]
    omega
  · obtain ⟨c, ds, hds, hdigit⟩ := digits_eq_cons i.natAbs
    have hread : (number? (digits i.natAbs)).map Int.ofNat = some i := by
      simp only [number?_digits, Option.map_some, Option.some.injEq, Int.ofNat_eq_natCast]
      omega
    rw [hds] at hread ⊢
    unfold integer?
    split
    · rename_i heq
      cases heq
      cases hdigit
    · rename_i heq
      cases heq
      cases hdigit
    · exact hread

theorem isBlank_of_mem_signed {i : Int} {c : Char} (h : c ∈ signed i) : isBlank c = false := by
  have hdigits : ∀ c ∈ digits i.natAbs, isBlank c = false := fun c hc =>
    isBlank_of_isDigit (List.all_eq_true.mp (all_isDigit_digits _) c hc)
  unfold signed at h
  split at h
  · rcases List.mem_cons.mp h with rfl | h
    · decide
    · exact hdigits c h
  · exact hdigits c h

theorem signed_ne_nil (i : Int) : signed i ≠ [] := by
  unfold signed
  split
  · exact List.cons_ne_nil _ _
  · exact digits_ne_nil _

end ObjectTracking.Text
