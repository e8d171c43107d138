import Mathlib.Algebra.Ring.Nat
/-!
The packing and the rounding of doubles. A form is a sign, a significand and an exponent. One with
53 bits survives packing unless it is too large, and rounding fills 53 bits without going below the
exponent.
-/
set_option autoImplicit false

namespace ObjectTracking.Decimal
open Float.Model Float.Model.UnpackedFloat
variable {m k : Nat} {e least : Int}

def Full (m : Nat) : Prop := 2 ^ 52 ≤ m ∧ m < 2 ^ 53

theorem Full.pos (h : Full m) : 0 < m := Nat.lt_of_lt_of_le (by decide) h.1

/-- The forms that are infinite, or have 53 bits and an exponent from `least` on. -/
inductive AtLeast (least : Int) : UnpackedFloat → Prop
  | infinite : AtLeast least (.infinity .positive)
  | full {m : Nat} {e : Int} (h : 0 < m) : Full m → least ≤ e → AtLeast least (.finite .positive m e h)

/-! ### Packing -/

/-- What is left of a form when it has been packed. -/
def repacked (u : UnpackedFloat) : UnpackedFloat :=
  UnpackedFloat.unpack Format.binary64 (UnpackedFloat.pack Format.binary64 u)

theorem finite_congr {s s' : Sign} {m m' : Nat} {e e' : Int} {h : 0 < m} {h' : 0 < m'}
    (hs : s = s') (hm : m = m') (he : e = e') :
    UnpackedFloat.finite s m e h = .finite s' m' e' h' := by
  subst hs hm he
  rfl

theorem toNat_unpackSign (b : BitVec 64) :
    (@unpackSign Format.binary64 b).toNat = b.toNat / 2 ^ 63 % 2 ^ 1 := by
  change (BitVec.cast _ (BitVec.extractLsb 63 63 b)).toNat = _
  rw [BitVec.toNat_cast, BitVec.extractLsb_toNat, Nat.shiftRight_eq_div_pow]

theorem toNat_unpackExponent (b : BitVec 64) :
    (@unpackExponent Format.binary64 b).toNat = b.toNat / 2 ^ 52 % 2 ^ 11 := by
  change (BitVec.cast _ (BitVec.extractLsb 62 52 b)).toNat = _
  rw [BitVec.toNat_cast, BitVec.extractLsb_toNat, Nat.shiftRight_eq_div_pow]

theorem toNat_unpackMantissa (b : BitVec 64) :
    (@unpackMantissa Format.binary64 b).toNat = b.toNat % 2 ^ 52 := by
  change (BitVec.cast _ (BitVec.extractLsb 51 0 b)).toNat = _
  rw [BitVec.toNat_cast, BitVec.extractLsb_toNat, Nat.shiftRight_zero]

/-- The bits of a double that is neither infinite nor small. -/
theorem unpack_of_toNat {b : BitVec 64} (hm : Full m) (he : -1074 ≤ e) (he' : e ≤ 971)
    (h : b.toNat = (e + 1074).toNat * 2 ^ 52 + m) :
    UnpackedFloat.unpack Format.binary64 b = .finite .positive m e hm.pos := by
  obtain ⟨hlow, hhigh⟩ := hm
  have hexponent : (@unpackExponent Format.binary64 b).toNat = (e + 1075).toNat := by
    rw [toNat_unpackExponent, h]
    omega
  have hmantissa : (@unpackMantissa Format.binary64 b).toNat = m - 2 ^ 52 := by
    rw [toNat_unpackMantissa, h]
    omega
  have hsign : @unpackSign Format.binary64 b = 0#1 := by
    apply BitVec.eq_of_toNat_eq
    rw [toNat_unpackSign, h]
    change _ = 0
    omega
  have hne : ∀ w : BitVec 11, w.toNat ≠ (e + 1075).toNat → @unpackExponent Format.binary64 b ≠ w :=
    fun w hw heq => hw (heq ▸ hexponent)
  have hinfinite := hne (-1#11) (by change 2047 ≠ _; omega)
  have hsmall := hne 0#11 (by change 0 ≠ _; omega)
  have hfull : (1#1 ++ @unpackMantissa Format.binary64 b).toNat = m := by
    rw [BitVec.toNat_append, hmantissa]
    change 2 ^ 52 ||| (m - 2 ^ 52) = m
    rw [Nat.or_comm, Nat.or_two_pow_eq_add_of_lt (by omega)]
    omega
  refine ((if_neg hinfinite).trans (if_neg hsmall)).trans (finite_congr ?_ hfull ?_)
  · rw [hsign]
    rfl
  · rw [hexponent]
    change ((e + 1075).toNat : Int) - ((1023 : Nat) + (52 : Nat)) = e
    omega

theorem toNat_pack (hm : Full m) (he : -1074 ≤ e) (he' : e ≤ 971) :
    (UnpackedFloat.pack Format.binary64 (.finite .positive m e hm.pos)).toNat =
      (e + 1074).toNat * 2 ^ 52 + m := by
  obtain ⟨hlow, hhigh⟩ := hm
  have hlog : m.log2 + 1 = 53 := by
    rw [(Nat.log2_eq_iff (by omega)).mpr ⟨hlow, hhigh⟩]
  have hbiased : ¬2 ^ 11 ≤ (e + (1023 : Nat) + (52 : Nat)).toNat + 1 := by omega
  have hpack : UnpackedFloat.pack Format.binary64 (.finite .positive m e (by omega)) =
      packComponents Format.binary64 .positive (BitVec.ofNat 11 (e + (1023 : Nat) + (52 : Nat)).toNat)
        (BitVec.ofNat 52 m) :=
    (if_neg hbiased).trans (if_pos hlog)
  rw [hpack]
  change (0#1 ++ BitVec.ofNat 11 (e + 1023 + 52).toNat ++ BitVec.ofNat 52 m).toNat = _
  simp only [BitVec.toNat_append, BitVec.toNat_ofNat, Nat.shiftLeft_eq, Nat.zero_mod,
    Nat.zero_mul, Nat.zero_or]
  rw [Nat.mul_comm, ← Nat.two_pow_add_eq_or_of_lt (Nat.mod_lt m (Nat.two_pow_pos 52))]
  omega

theorem repacked_eq (hm : Full m) (he : -1074 ≤ e) (he' : e ≤ 971) :
    repacked (.finite .positive m e hm.pos) = .finite .positive m e hm.pos :=
  unpack_of_toNat hm he he' (toNat_pack hm he he')

theorem atLeast_repacked (hm : Full m) (he : -1074 ≤ e) (hleast : least ≤ e) :
    AtLeast least (repacked (.finite .positive m e hm.pos)) := by
  by_cases he' : e ≤ 971
  · rw [repacked_eq hm he he']
    exact .full _ hm hleast
  · have hbiased : 2 ^ 11 ≤ (e + (1023 : Nat) + (52 : Nat)).toNat + 1 := by omega
    have hpack : UnpackedFloat.pack Format.binary64 (.finite .positive m e hm.pos) =
        packedInfinity Format.binary64 .positive := if_pos hbiased
    rw [repacked, hpack]
    exact .infinite

/-! ### Rounding -/

theorem log2_mul_two_pow (hm : Full m) (k : Nat) : (m * 2 ^ k).log2 = 52 + k := by
  have hpos : m * 2 ^ k ≠ 0 :=
    Nat.mul_ne_zero (Nat.ne_of_gt hm.pos) (Nat.ne_of_gt (Nat.two_pow_pos k))
  refine (Nat.log2_eq_iff hpos).mpr ⟨?_, ?_⟩
  · rw [Nat.pow_add]
    exact Nat.mul_le_mul_right _ hm.1
  · rw [show 52 + k + 1 = 53 + k by omega, Nat.pow_add]
    exact Nat.mul_lt_mul_of_pos_right hm.2 (Nat.two_pow_pos k)

theorem full_div_two_pow (hlog : m.log2 = 52 + k) : Full (m / 2 ^ k) := by
  have hpos : m ≠ 0 := by
    rintro rfl
    rw [Nat.log2_zero] at hlog
    omega
  obtain ⟨hlow, hhigh⟩ := (Nat.log2_eq_iff hpos).mp hlog
  rw [Nat.pow_add] at hlow
  rw [show 52 + k + 1 = 53 + k by omega, Nat.pow_add] at hhigh
  exact ⟨(Nat.le_div_iff_mul_le (Nat.two_pow_pos k)).mpr hlow,
    (Nat.div_lt_iff_lt_mul (Nat.two_pow_pos k)).mpr hhigh⟩

theorem shiftRight_exact (m k : Nat) :
    ExtendedMantissa.ofMantissaAndAccuracy (m * 2 ^ k) .exact >>> k =
      ExtendedMantissa.ofMantissaAndAccuracy m .exact := by
  induction k generalizing m with
  | zero =>
    rw [Nat.pow_zero, Nat.mul_one]
    rfl
  | succ k ih =>
    have hsplit : m * 2 ^ (k + 1) = m * 2 * 2 ^ k := by
      rw [Nat.pow_succ, Nat.mul_assoc, Nat.mul_comm (2 ^ k)]
    change ExtendedMantissa.shiftRightOne (ExtendedMantissa.ofMantissaAndAccuracy _ .exact >>> k) = _
    rw [hsplit, ih]
    simp [ExtendedMantissa.shiftRightOne, ExtendedMantissa.ofMantissaAndAccuracy]

theorem mantissa_shiftRight (em : ExtendedMantissa) (k : Nat) :
    (em >>> k).mantissa = em.mantissa / 2 ^ k := by
  induction k with
  | zero =>
    rw [Nat.pow_zero, Nat.div_one]
    rfl
  | succ k ih =>
    change (em >>> k).mantissa / 2 = _
    rw [ih, Nat.div_div_eq_div_mul, Nat.pow_succ]

theorem roundedMantissa_bounds (em : ExtendedMantissa) :
    em.mantissa ≤ em.roundedMantissa ∧ em.roundedMantissa ≤ em.mantissa + 1 := by
  obtain ⟨m, r, s⟩ := em
  cases r <;> cases s <;>
    simp [ExtendedMantissa.roundedMantissa, ExtendedMantissa.accuracy, Accuracy.roundToNearestEven]
  omega

theorem shiftToTargetExponent_eq (hlog : m.log2 = 52 + k) (he : -1074 ≤ e + k) :
    shiftToTargetExponent Format.binary64 m e .exact =
      (ExtendedMantissa.ofMantissaAndAccuracy m .exact >>> k, e + k) := by
  have htarget : Format.binary64.targetExponent (Float.Model.totalExponent m e) = e + k := by
    change max ((m.log2 : Int) + 1 + e - (53 : Nat)) (-1074) = _
    omega
  have hk : (e + k - e).toNat = k := by omega
  simp only [shiftToTargetExponent, shiftToExponent, htarget, hk]

theorem shiftToTargetExponent_exact (hm : Full m) (k : Nat) (he : -1074 ≤ e + k) :
    shiftToTargetExponent Format.binary64 (m * 2 ^ k) e .exact = (⟨m, false, false⟩, e + k) := by
  rw [shiftToTargetExponent_eq (log2_mul_two_pow hm k) he, shiftRight_exact]
  rfl

theorem shiftToTargetExponent_full (hm : Full m) (he : -1074 ≤ e) :
    shiftToTargetExponent Format.binary64 m e .exact = (⟨m, false, false⟩, e) := by
  have h := shiftToTargetExponent_exact (e := e) hm 0 (by omega)
  rwa [Nat.pow_zero, Nat.mul_one, Int.natCast_zero, Int.add_zero] at h

theorem roundWithAccuracy_of {em em' : ExtendedMantissa} {e₁ e₂ : Int}
    (hfirst : shiftToTargetExponent Format.binary64 m e .exact = (em, e₁))
    (hagain : shiftToTargetExponent Format.binary64 em.roundedMantissa e₁ .exact = (em', e₂))
    (hpos : 0 < em'.mantissa) : roundWithAccuracy Format.binary64 .positive m e .exact =
      .finite .positive em'.mantissa e₂ hpos := by
  rw [roundWithAccuracy, hfirst]
  dsimp only
  rw [hagain]
  exact dif_neg (Nat.ne_of_gt hpos)

/-- What 53 bits hold is not rounded. -/
theorem roundWithAccuracy_exact (hm : Full m) (k : Nat) (he : -1074 ≤ e + k) :
    roundWithAccuracy Format.binary64 .positive (m * 2 ^ k) e .exact =
      .finite .positive m (e + k) hm.pos :=
  roundWithAccuracy_of (shiftToTargetExponent_exact hm k he) (shiftToTargetExponent_full hm he)
    hm.pos

/-- Rounding fills 53 bits and does not take the exponent down. -/
theorem roundWithAccuracy_full (hlog : m.log2 = 52 + k) (he : -1074 ≤ e + k) :
    ∃ m' e', ∃ hm : Full m', e + k ≤ e' ∧
      roundWithAccuracy Format.binary64 .positive m e .exact = .finite .positive m' e' hm.pos := by
  have hquotient := full_div_two_pow hlog
  have hfirst := shiftToTargetExponent_eq hlog he
  generalize hem : ExtendedMantissa.ofMantissaAndAccuracy m .exact >>> k = em at hfirst
  have hmantissa : em.mantissa = m / 2 ^ k := by
    rw [← hem, mantissa_shiftRight]
    rfl
  have hrounded := roundedMantissa_bounds em
  rw [← hmantissa] at hquotient
  -- only a carry takes the rounded significand out of 53 bits
  obtain hsmall | hcarry : em.roundedMantissa < 2 ^ 53 ∨ em.roundedMantissa = 2 ^ 52 * 2 ^ 1 := by
    have := hquotient.2
    omega
  · have hm : Full em.roundedMantissa := ⟨Nat.le_trans hquotient.1 hrounded.1, hsmall⟩
    exact ⟨_, _, hm, Int.le_refl _,
      roundWithAccuracy_of hfirst (shiftToTargetExponent_full hm he) hm.pos⟩
  · have hm : Full (2 ^ 52) := ⟨by decide, by decide⟩
    have hagain := shiftToTargetExponent_exact (e := e + k) hm 1 (by omega)
    rw [← hcarry] at hagain
    exact ⟨_, _, hm, by omega, roundWithAccuracy_of hfirst hagain hm.pos⟩

end ObjectTracking.Decimal
