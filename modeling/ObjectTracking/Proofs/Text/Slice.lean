import ObjectTracking.Proofs.Text.Digits
import ObjectTracking.Text.Slice
/-!
Where a text can be cut, and what stands there. A byte below 128 is a character of its own, so a
text can be cut on both sides of it.
-/
set_option autoImplicit false

namespace ObjectTracking.Text
variable {p : Char → Bool}

@[simp] theorem before_append (a b : List Char) : before (byteLength a) (a ++ b) = .done a := by
  rw [before, cut?_append]

@[simp] theorem after_append (a b : List Char) : after (byteLength a) (a ++ b) = .done b :=
  after_eq_done_iff.mpr ⟨a, rfl, rfl⟩

def leadByte (c : Char) : UInt8 := (String.utf8EncodeChar c).headD 0

theorem utf8EncodeChar_eq (c : Char) :
    String.utf8EncodeChar c = leadByte c :: (String.utf8EncodeChar c).tail := by
  have hlength := String.length_utf8EncodeChar c
  have hpos := c.utf8Size_pos
  unfold leadByte
  cases h : String.utf8EncodeChar c with
  | nil => rw [h, List.length_nil] at hlength; omega
  | cons b bs => rfl

theorem head?_toUtf8_cons (c : Char) (cs : List Char) :
    (toUtf8 (c :: cs)).head? = some (leadByte c) := by
  rw [toUtf8, List.flatMap_cons, utf8EncodeChar_eq, List.cons_append, List.head?_cons]

@[simp] theorem byteAt_append (a : List Char) (c : Char) (b : List Char) :
    byteAt (byteLength a) (a ++ c :: b) = .done (leadByte c) := by
  have h : (toUtf8 (a ++ c :: b))[byteLength a]? = some (leadByte c) := by
    rw [toUtf8, List.flatMap_append, byteLength, toUtf8,
      List.getElem?_append_right (Nat.le_refl _), Nat.sub_self, ← List.head?_eq_getElem?]
    exact head?_toUtf8_cons c b
  rw [byteAt, h]

theorem leadByte_of_lt {c : Char} (h : c.toNat < 128) : leadByte c = c.toUInt8 := by
  have hle : c.val.toNat ≤ 127 := Nat.lt_succ_iff.mp h
  simp only [leadByte, String.utf8EncodeChar, if_pos hle]
  rfl

/-- Only the encodings of characters below 128 begin with a byte below 128. -/
theorem lt_of_leadByte_lt {c : Char} (h : (leadByte c).toNat < 128) : c.toNat < 128 := by
  refine Decidable.byContradiction fun hc => ?_
  have h1 : ¬c.val.toNat ≤ 127 := fun hle => hc (Nat.lt_succ_of_le hle)
  simp only [leadByte, String.utf8EncodeChar, if_neg h1] at h
  split at h
  · simp only [List.headD_cons, UInt8.toNat_ofNat'] at h
    omega
  · split at h <;> simp only [List.headD_cons, UInt8.toNat_ofNat'] at h <;> omega

/-- A character below 128 is told by the byte that it begins with. -/
theorem eq_of_ofUInt8_leadByte {c d : Char} (hd : d.toNat < 128)
    (h : Char.ofUInt8 (leadByte c) = d) : c = d := by
  have hbyte : (leadByte c).toNat = d.toNat := by
    rw [← h]
    exact (UInt8.toNat_toUInt32 _).symm
  have hc := lt_of_leadByte_lt (hbyte ▸ hd)
  have hlead : (leadByte c).toNat = c.toNat := by
    rw [leadByte_of_lt hc]
    exact (UInt32.toNat_toUInt8 _).trans (Nat.mod_eq_of_lt (Nat.lt_trans hc (by decide)))
  exact Char.ext (UInt32.toNat_inj.mp (hlead.symm.trans hbyte))

theorem utf8Size_of_lt {c : Char} (h : c.toNat < 128) : c.utf8Size = 1 :=
  Char.utf8Size_eq_one_iff.mpr (UInt32.le_iff_toNat_le.mpr (Nat.lt_succ_iff.mp h))

/-- A text is cut behind a character below 128 one byte further on. -/
theorem after_succ {c : Char} (h : c.toNat < 128) (a b : List Char) :
    after (byteLength a + 1) (a ++ c :: b) = .done b :=
  after_eq_done_iff.mpr ⟨a ++ [c], by simp, by simp [utf8Size_of_lt h]⟩

theorem byteLength_of_lt {cs : List Char} (h : ∀ c ∈ cs, c.toNat < 128) :
    byteLength cs = cs.length := by
  induction cs with
  | nil => rfl
  | cons c cs ih =>
    rw [List.forall_mem_cons] at h
    rw [byteLength_cons, utf8Size_of_lt h.1, ih h.2, List.length_cons, Nat.add_comm]

theorem lt_of_isDigit {c : Char} (h : c.isDigit = true) : c.toNat < 128 := by
  rw [Char.isDigit, Bool.and_eq_true, decide_eq_true_eq, decide_eq_true_eq] at h
  exact Nat.lt_of_le_of_lt (UInt32.le_iff_toNat_le.mp h.2) (by decide)

theorem byteLength_of_isDigits {cs : List Char} (h : isDigits cs = true) :
    byteLength cs = cs.length :=
  byteLength_of_lt fun _ hc => lt_of_isDigit (isDigit_of_mem h hc)

theorem offsetOf?_eq_none_iff {cs : List Char} :
    offsetOf? p cs = none ↔ ∀ c ∈ cs, p c = false := by
  induction cs with
  | nil => simp [offsetOf?]
  | cons c cs ih => by_cases hc : p c = true <;> simp [offsetOf?, hc, ih]

/-- The first character that satisfies a condition ends a run of characters that do not. -/
theorem offsetOf?_eq_some_iff {cs : List Char} {n : Nat} :
    offsetOf? p cs = some n ↔
      ∃ a c b, cs = a ++ c :: b ∧ (∀ d ∈ a, p d = false) ∧ p c = true ∧ byteLength a = n := by
  constructor
  · intro h
    induction cs generalizing n with
    | nil => cases h
    | cons c cs ih =>
      rw [offsetOf?] at h
      split at h
      · rename_i hc
        cases h
        exact ⟨[], c, cs, rfl, by simp, hc, rfl⟩
      · rename_i hc
        obtain ⟨m, hm, rfl⟩ := Option.map_eq_some_iff.mp h
        obtain ⟨a, d, b, rfl, ha, hd, rfl⟩ := ih hm
        exact ⟨c :: a, d, b, rfl, by simpa [hc] using ha, hd, by simp [Nat.add_comm]⟩
  · rintro ⟨a, c, b, rfl, ha, hc, rfl⟩
    induction a with
    | nil => simp [offsetOf?, hc]
    | cons d a ih =>
      rw [List.forall_mem_cons] at ha
      simp [offsetOf?, ha.1, ih ha.2, Nat.add_comm]

/-- There is one way to split a text at the first character that satisfies a condition. -/
theorem split_unique {a b a' b' : List Char} {c c' : Char} (ha : ∀ d ∈ a, p d = false)
    (hc : p c = true) (ha' : ∀ d ∈ a', p d = false) (hc' : p c' = true)
    (h : a ++ c :: b = a' ++ c' :: b') : a = a' ∧ c = c' ∧ b = b' := by
  have hoffset := offsetOf?_eq_some_iff.mpr ⟨a, c, b, rfl, ha, hc, rfl⟩
  rw [h, offsetOf?_eq_some_iff.mpr ⟨a', c', b', rfl, ha', hc', rfl⟩] at hoffset
  have hcut := cut?_append a (c :: b)
  rw [h, ← Option.some.inj hoffset, cut?_append] at hcut
  cases hcut
  exact ⟨rfl, rfl, rfl⟩

end ObjectTracking.Text
