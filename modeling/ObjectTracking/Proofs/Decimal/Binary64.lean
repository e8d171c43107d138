import ObjectTracking.Decimal.Numeral
import ObjectTracking.Proofs.Decimal.Rounding
import ObjectTracking.Proofs.Text.Digits
/-!
Doubles that stand for natural numbers. Up to 53 bits a number is read, multiplied, compared and
converted exactly; a larger one stays large, whatever it is rounded to.
-/
set_option autoImplicit false

namespace ObjectTracking.Decimal
open Float.Model Float.Model.UnpackedFloat Text
variable {x y : Float} {a b n m d : Nat} {e least : Int}

def form (d : Float) : UnpackedFloat := d.toModel.unpack

def whole (n : Nat) : UnpackedFloat :=
  if h : 0 < n then
    .finite .positive (n * 2 ^ (52 - n.log2)) (n.log2 - 52) (Nat.mul_pos h (Nat.two_pow_pos _))
  else .zero .positive

theorem whole_of_pos (h : 0 < n) : whole n =
    .finite .positive (n * 2 ^ (52 - n.log2)) (n.log2 - 52) (Nat.mul_pos h (Nat.two_pow_pos _)) :=
  dif_pos h

theorem full_shifted (h : 0 < n) (hbound : n < 2 ^ 53) :
    n.log2 ≤ 52 ∧ Full (n * 2 ^ (52 - n.log2)) := by
  have hlog : n.log2 < 53 := (Nat.log2_lt (by omega)).mpr hbound
  obtain ⟨hlow, hhigh⟩ := (Nat.log2_eq_iff (by omega)).mp (rfl : n.log2 = n.log2)
  have hlow := Nat.mul_le_mul_right (2 ^ (52 - n.log2)) hlow
  have hhigh := Nat.mul_lt_mul_of_pos_right hhigh (Nat.two_pow_pos (52 - n.log2))
  rw [← Nat.pow_add, show n.log2 + (52 - n.log2) = 52 by omega] at hlow
  rw [← Nat.pow_add, show n.log2 + 1 + (52 - n.log2) = 53 by omega] at hhigh
  exact ⟨by omega, hlow, hhigh⟩

theorem isFinite_of_form (h : form x = whole n) : x.isFinite = true := by
  change (form x).isFinite = true
  rw [h]
  obtain rfl | hn := Nat.eq_zero_or_pos n
  · rfl
  · rw [whole_of_pos hn]
    rfl

/-! ### Products -/

theorem form_mul (x y : Float) :
    form (x * y) = repacked (UnpackedFloat.mul Format.binary64 (form x) (form y)) := rfl

theorem mul_finite {m m' : Nat} {e e' : Int} (h : 0 < m) (h' : 0 < m') :
    UnpackedFloat.mul Format.binary64 (.finite .positive m e h) (.finite .positive m' e' h') =
      roundWithAccuracy Format.binary64 .positive (m * m') (e + e') .exact := rfl

theorem infinity_mul (h : 0 < m) :
    UnpackedFloat.mul Format.binary64 (.infinity .positive) (.finite .positive m e h) =
      .infinity .positive := rfl

theorem zero_mul_whole (n : Nat) :
    UnpackedFloat.mul Format.binary64 (whole 0) (whole n) = .zero .positive := by
  obtain rfl | h := Nat.eq_zero_or_pos n
  · rfl
  · rw [whole_of_pos h]
    rfl

theorem mul_whole_zero (n : Nat) :
    UnpackedFloat.mul Format.binary64 (whole n) (whole 0) = .zero .positive := by
  obtain rfl | h := Nat.eq_zero_or_pos n
  · rfl
  · rw [whole_of_pos h]
    rfl

theorem log2_add_le_log2_mul (ha : 0 < a) (hb : 0 < b) : a.log2 + b.log2 ≤ (a * b).log2 := by
  refine (Nat.le_log2 (Nat.ne_of_gt (Nat.mul_pos ha hb))).mpr ?_
  rw [Nat.pow_add]
  exact Nat.mul_le_mul (Nat.log2_self_le (by omega)) (Nat.log2_self_le (by omega))

/-- Doubles that stand for natural numbers are multiplied exactly if 53 bits hold the product. -/
theorem form_mul_whole (hx : form x = whole a) (hy : form y = whole b) (h : a * b < 2 ^ 53) :
    form (x * y) = whole (a * b) := by
  rw [form_mul, hx, hy]
  obtain rfl | ha := Nat.eq_zero_or_pos a
  · rw [zero_mul_whole, Nat.zero_mul]
    rfl
  obtain rfl | hb := Nat.eq_zero_or_pos b
  · rw [mul_whole_zero, Nat.mul_zero]
    rfl
  have hab := Nat.mul_pos ha hb
  obtain ⟨hlog, hfull⟩ := full_shifted hab h
  have hsum := log2_add_le_log2_mul ha hb
  have hproduct : a * 2 ^ (52 - a.log2) * (b * 2 ^ (52 - b.log2)) =
      a * b * 2 ^ (52 - (a * b).log2) * 2 ^ (52 - a.log2 - b.log2 + (a * b).log2) := by
    rw [Nat.mul_mul_mul_comm, ← Nat.pow_add, Nat.mul_assoc (a * b), ← Nat.pow_add]
    congr 2
    omega
  have hround := roundWithAccuracy_exact (e := a.log2 - 52 + (b.log2 - 52)) hfull
    (52 - a.log2 - b.log2 + (a * b).log2) (by omega)
  rw [whole_of_pos ha, whole_of_pos hb, whole_of_pos hab, mul_finite, hproduct, hround,
    repacked_eq hfull (by omega) (by omega)]
  exact finite_congr rfl rfl (by omega)

/-- A large double stays large when it is multiplied by a positive number. -/
theorem form_mul_atLeast (hleast : -1074 ≤ least) (hx : AtLeast least (form x))
    (hy : form y = whole b) (hb : 0 < b) (hbound : b < 2 ^ 53) : AtLeast least (form (x * y)) := by
  rw [form_mul, hy, whole_of_pos hb]
  generalize form x = u at hx
  cases hx with
  | infinite =>
    rw [infinity_mul]
    exact .infinite
  | @full m e h hm he =>
    obtain ⟨-, hfull⟩ := full_shifted hb hbound
    have hproduct : 52 + 52 ≤ (m * (b * 2 ^ (52 - b.log2))).log2 := by
      refine (Nat.le_log2 (Nat.ne_of_gt (Nat.mul_pos hm.pos hfull.pos))).mpr ?_
      rw [Nat.pow_add]
      exact Nat.mul_le_mul hm.1 hfull.1
    obtain ⟨m', e', hm', he', hround⟩ :=
      roundWithAccuracy_full (m := m * (b * 2 ^ (52 - b.log2))) (e := e + (b.log2 - 52))
        (k := (m * (b * 2 ^ (52 - b.log2))).log2 - 52) (by omega) (by omega)
    rw [mul_finite, hround]
    exact atLeast_repacked hm' (by omega) (by omega)

/-! ### Comparison and conversion -/

theorem lt_iff_form (x y : Float) : x < y ↔ (form x).compare (form y) = some .lt := by
  change decide ((UnpackedFloat.compare (form x) (form y) == some .lt) = true) = true ↔ _
  simp

theorem compare_finite {m m' : Nat} {e e' : Int} (h : 0 < m) (h' : 0 < m') :
    UnpackedFloat.compare (.finite .positive m e h) (.finite .positive m' e' h') =
      some ((compare e e').then (compare m m')) := rfl

theorem log2_le_log2 (h : a ≤ b) : a.log2 ≤ b.log2 := by
  obtain rfl | ha := Nat.eq_zero_or_pos a
  · rw [Nat.log2_zero]
    exact Nat.zero_le _
  · exact (Nat.le_log2 (by omega)).mpr (Nat.le_trans (Nat.log2_self_le (by omega)) h)

theorem compare_then (h : a < b) : (compare ((a.log2 : Int) - 52) (b.log2 - 52)).then
    (compare (a * 2 ^ (52 - a.log2)) (b * 2 ^ (52 - b.log2))) = .lt := by
  obtain hlog | hlog := Nat.lt_or_eq_of_le (log2_le_log2 (Nat.le_of_lt h))
  · rw [Int.compare_eq_lt.mpr (by omega)]
    rfl
  · rw [hlog, Int.compare_eq_eq.mpr rfl]
    exact Nat.compare_eq_lt.mpr (Nat.mul_lt_mul_of_pos_right h (Nat.two_pow_pos _))

/-- The forms of natural numbers are in the order of the numbers. -/
theorem compare_whole (a b : Nat) : (whole a).compare (whole b) = some (compare a b) := by
  obtain rfl | ha := Nat.eq_zero_or_pos a <;> obtain rfl | hb := Nat.eq_zero_or_pos b
  · rfl
  · rw [whole_of_pos hb, Nat.compare_eq_lt.mpr hb]
    rfl
  · rw [whole_of_pos ha, Nat.compare_eq_gt.mpr ha]
    rfl
  · rw [whole_of_pos ha, whole_of_pos hb, compare_finite, Option.some.injEq]
    obtain h | rfl | h := Nat.lt_trichotomy a b
    · rw [compare_then h, Nat.compare_eq_lt.mpr h]
    · rw [Int.compare_eq_eq.mpr rfl, Nat.compare_eq_eq.mpr rfl, Nat.compare_eq_eq.mpr rfl]
      rfl
    · rw [Nat.compare_eq_gt.mpr h, ← Nat.compare_swap, ← Int.compare_swap, ← Ordering.swap_then,
        compare_then h]
      rfl

/-- Doubles that stand for natural numbers are in the order of the numbers. -/
theorem lt_iff_of_form (hx : form x = whole a) (hy : form y = whole b) : x < y ↔ a < b := by
  rw [lt_iff_form, hx, hy, compare_whole, Option.some.injEq, Nat.compare_eq_lt]

theorem lt_of_atLeast (hx : form x = whole a) (hsmall : (a.log2 : Int) - 52 < least)
    (hy : AtLeast least (form y)) : x < y := by
  rw [lt_iff_form, hx]
  generalize form y = u at hy
  obtain rfl | ha := Nat.eq_zero_or_pos a
  · cases hy <;> rfl
  · rw [whole_of_pos ha]
    cases hy with
    | infinite => rfl
    | full hm _ he =>
      rw [compare_finite, Int.compare_eq_lt.mpr (Int.lt_of_lt_of_le hsmall he)]
      rfl

/-- Nothing is cut off a double that stands for a natural number. -/
theorem toUInt64_of_form (hx : form x = whole n) (h : n < 2 ^ 53) : x.toUInt64.toNat = n := by
  change (UInt64.ofNatClamp (UnpackedFloat.toInt 0 (UInt64.size - 1) (form x)).toNat).toNat = n
  have hint : UnpackedFloat.toInt 0 (UInt64.size - 1) (form x) = n := by
    rw [hx]
    obtain rfl | hn := Nat.eq_zero_or_pos n
    · rfl
    · obtain ⟨hlog, -⟩ := full_shifted hn h
      have hup : ((n.log2 : Int) - 52 - 0).toNat = 0 := by omega
      have hdown : (0 - ((n.log2 : Int) - 52 - (0 : Nat))).toNat = 52 - n.log2 := by omega
      have hdiv : n * 2 ^ (52 - n.log2) / 2 ^ (52 - n.log2) = n :=
        Nat.mul_div_cancel n (Nat.two_pow_pos _)
      rw [whole_of_pos hn]
      change roundToInt .positive _ _ = _
      simp only [roundToInt, decreaseExponent, hup, shiftToExponent, hdown, mantissa_shiftRight]
      change ((n * 2 ^ (52 - n.log2) / 2 ^ (52 - n.log2) : Nat) : Int) = n
      rw [hdiv]
  have hsize : n < UInt64.size := Nat.lt_trans h (by decide)
  rw [hint, Int.toNat_natCast, UInt64.ofNatClamp, dif_pos hsize]
  exact UInt64.toNat_ofNatLT

/-! ### The nearest double -/

/-- The bits of the double of this form, or of the infinite one past the largest. -/
def word (m : Nat) (e : Int) : Nat := min ((e + 1074).toNat * 2 ^ 52 + m) (2047 * 2 ^ 52)

theorem form_ofBits (w : UInt64) : form (Float.ofBits w) =
    repacked (UnpackedFloat.unpack Format.binary64 w.toBitVec) := rfl

theorem toNat_toBitVec_word (m : Nat) (e : Int) :
    (UInt64.ofNat (word m e)).toBitVec.toNat = word m e := by
  have hle : word m e ≤ 2047 * 2 ^ 52 := by
    unfold word
    exact Nat.min_le_right _ _
  exact UInt64.toNat_ofNat_of_lt' (Nat.lt_of_le_of_lt hle (by decide))

theorem form_word (hm : Full m) (he : -1074 ≤ e) (he' : e ≤ 971) :
    form (Float.ofBits (UInt64.ofNat (word m e))) = .finite .positive m e hm.pos := by
  have hword : word m e = (e + 1074).toNat * 2 ^ 52 + m := by
    have := hm.2
    exact Nat.min_eq_left (by omega)
  rw [form_ofBits, unpack_of_toNat hm he he' ((toNat_toBitVec_word m e).trans hword),
    repacked_eq hm he he']

theorem atLeast_form_word (hm : Full m) (he : -1074 ≤ e) (hleast : least ≤ e) :
    AtLeast least (form (Float.ofBits (UInt64.ofNat (word m e)))) := by
  by_cases he' : e ≤ 971
  · rw [form_word hm he he']
    exact .full _ hm hleast
  · have hword : word m e = 2047 * 2 ^ 52 := by
      have := hm.1
      exact Nat.min_eq_right (by omega)
    rw [hword]
    exact .infinite

/-- A carry out of the significand goes on into the exponent. -/
theorem word_carry (he : -1074 ≤ e) : word (2 ^ 53) e = word (2 ^ 52) (e + 1) := by
  have hcarry : (e + 1 + 1074).toNat * 2 ^ 52 + 2 ^ 52 = (e + 1074).toNat * 2 ^ 52 + 2 ^ 53 := by
    omega
  rw [word, word, hcarry]

theorem roundDiv_one (n : Nat) : roundDiv n 1 = n := by
  simp [roundDiv, Nat.mod_one]

theorem roundDiv_bounds (n d : Nat) : n / d ≤ roundDiv n d ∧ roundDiv n d ≤ n / d + 1 := by
  unfold roundDiv
  dsimp only
  split <;> omega

theorem inUnits_natCast (n d k : Nat) : inUnits n d k = (n, d * 2 ^ k) := by
  simp only [inUnits, Int.toNat_natCast]
  rw [Int.toNat_of_nonpos (by omega)]
  simp

theorem inUnits_neg_natCast (n d k : Nat) : inUnits n d (-(k : Int)) = (n * 2 ^ k, d) := by
  simp only [inUnits, Int.neg_neg, Int.toNat_natCast]
  rw [Int.toNat_of_nonpos (by omega)]
  simp

theorem binaryOrder_one (h : 0 < n) : binaryOrder n 1 = n.log2 := by
  have hone : Int.ofNat n.log2 - Int.ofNat (Nat.log2 1) = (n.log2 : Nat) := Int.sub_zero _
  have hlow := Nat.log2_self_le (n := n) (by omega)
  simp only [binaryOrder, hone, inUnits_natCast, Nat.one_mul]
  exact if_neg (Nat.not_lt.mpr hlow)

theorem nearest_of_units (h : 0 < n) (hunits : inUnits n 1 (n.log2 - 52) = (m, d)) :
    nearest false n 1 = Float.ofBits (UInt64.ofNat (word (roundDiv m d) (n.log2 - 52))) := by
  have hexponent : max ((n.log2 : Int) - 52) (-1074) = n.log2 - 52 := by omega
  have hne : (n == 0) = false := beq_eq_false_iff_ne.mpr (by omega)
  unfold nearest
  simp only [hne, Bool.false_eq_true, if_false, binaryOrder_one h, hexponent, hunits]
  rw [word, Nat.pow_eq]

/-- The double nearest to a natural number of 53 bits stands for it. -/
theorem form_nearest_of_lt (h : n < 2 ^ 53) : form (nearest false n 1) = whole n := by
  obtain rfl | hn := Nat.eq_zero_or_pos n
  · rfl
  · obtain ⟨hlog, hfull⟩ := full_shifted hn h
    have hunits := inUnits_neg_natCast n 1 (52 - n.log2)
    rw [show -((52 - n.log2 : Nat) : Int) = n.log2 - 52 by omega] at hunits
    rw [nearest_of_units hn hunits, roundDiv_one, form_word hfull (by omega) (by omega),
      whole_of_pos hn]

/-- The double nearest to a large number is large. -/
theorem form_nearest_atLeast (hn : 0 < n) (hleast : least ≤ n.log2 - 52) :
    AtLeast least (form (nearest false n 1)) := by
  obtain hsmall | hlarge := Nat.lt_or_ge n (2 ^ 53)
  · rw [form_nearest_of_lt hsmall, whole_of_pos hn]
    exact .full _ (full_shifted hn hsmall).2 hleast
  · have hlog : 53 ≤ n.log2 := (Nat.le_log2 (by omega)).mpr hlarge
    obtain ⟨hlow, hhigh⟩ := full_div_two_pow (m := n) (k := n.log2 - 52) (by omega)
    obtain ⟨hdown, hup⟩ := roundDiv_bounds n (2 ^ (n.log2 - 52))
    have hunits := inUnits_natCast n 1 (n.log2 - 52)
    rw [show ((n.log2 - 52 : Nat) : Int) = n.log2 - 52 by omega, Nat.one_mul] at hunits
    rw [nearest_of_units hn hunits]
    generalize roundDiv n (2 ^ (n.log2 - 52)) = r at hdown hup
    obtain hr | rfl : r < 2 ^ 53 ∨ r = 2 ^ 53 := by omega
    · exact atLeast_form_word ⟨Nat.le_trans hlow hdown, hr⟩ (by omega) hleast
    · rw [word_carry (by omega)]
      exact atLeast_form_word ⟨by decide, by decide⟩ (by omega) (by omega)

theorem atLeast_form_infinity (hleast : least ≤ 972) : AtLeast least (form (infinity false)) := by
  obtain ⟨k, hk⟩ : ∃ k, k = 1024 := ⟨_, rfl⟩
  have hlog : (Nat.pow 2 k).log2 = k := Nat.log2_two_pow
  rw [infinity, ← hk]
  exact form_nearest_atLeast (Nat.two_pow_pos k) (by omega)

/-! ### Numerals -/

/-- A natural number is rounded unless its digits are so many that the result is infinite. -/
theorem nearestScaled_zero (n : Nat) : nearestScaled false n 0 = nearest false n 1 ∨
    2 ^ 53 ≤ n ∧ nearestScaled false n 0 = infinity false := by
  have hscale : nearest false (n * Nat.pow 10 (0 : Int).toNat) (Nat.pow 10 (-0 : Int).toNat) =
      nearest false n 1 := by
    rw [show Nat.pow 10 (0 : Int).toNat = 1 from rfl, show Nat.pow 10 (-0 : Int).toNat = 1 from rfl,
      Nat.mul_one]
  unfold nearestScaled
  dsimp only
  split
  · rename_i hzero
    simp only [Bool.or_eq_true, beq_iff_eq, decide_eq_true_eq] at hzero
    obtain rfl | horder := hzero
    · exact .inl rfl
    · simp only [Int.ofNat_eq_natCast] at horder
      omega
  · split
    · rename_i horder
      refine .inr ⟨Nat.le_of_not_lt fun hlt => ?_, rfl⟩
      have := @length_digits_le n 16 (by decide) (Nat.lt_trans hlt (by decide))
      simp only [Int.ofNat_eq_natCast] at horder
      omega
    · exact .inl hscale

theorem unsigned?_digits {cs : List Char} (h : isDigits cs = true) :
    unsigned? false cs = some (nearestScaled false (number cs) 0) := by
  rw [isDigits, Bool.and_eq_true, Bool.not_eq_true'] at h
  have hrun : digitRun cs = (cs, []) := by
    have := digitRun_append h.2 (ends_nil Char.isDigit)
    rwa [List.append_nil] at this
  simp [unsigned?, hrun, h.1, exponent?]

/-- A run of digits is read as the number that it denotes as long as 53 bits hold it. -/
theorem form_of_unsigned? {cs : List Char} (h : isDigits cs = true) :
    ∃ d, unsigned? false cs = some d ∧ (number cs < 2 ^ 53 → form d = whole (number cs)) ∧
      (2 ^ 31 ≤ number cs → AtLeast (-21) (form d)) := by
  refine ⟨_, unsigned?_digits h, ?_⟩
  generalize number cs = n
  obtain hnearest | ⟨hlarge, hinfinite⟩ := nearestScaled_zero n
  · rw [hnearest]
    refine ⟨form_nearest_of_lt, fun hn => form_nearest_atLeast (by omega) ?_⟩
    have := (Nat.le_log2 (by omega)).mpr hn
    omega
  · rw [hinfinite]
    exact ⟨fun hn => absurd hlarge (Nat.not_le.mpr hn),
      fun _ => atLeast_form_infinity (by decide)⟩

end ObjectTracking.Decimal
