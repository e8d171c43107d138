import ObjectTracking.Base64
import ObjectTracking.Text.Utf8
import ObjectTracking.Text.Blank
/-!
Base64 text that was written is read again. The text is a letter for each sextet and then the
padding that completes the last group of four; the sextets have the bits of the bytes.
-/
set_option autoImplicit false

namespace ObjectTracking.Base64

def values : List UInt8 → List Nat
  | [] => []
  | [a] =>
    let n := a.toNat * 16
    [n / 64, n % 64]
  | [a, b] =>
    let n := (a.toNat * 256 + b.toNat) * 4
    [n / 4096, n / 64 % 64, n % 64]
  | a :: b :: c :: rest =>
    let n := (a.toNat * 256 + b.toNat) * 256 + c.toNat
    n / 262144 :: n / 4096 % 64 :: n / 64 % 64 :: n % 64 :: values rest

/-- The number of padding signs after the text of a sequence of bytes. -/
def gap : List UInt8 → Nat
  | [] => 0
  | [_] => 2
  | [_, _] => 1
  | _ :: _ :: _ :: rest => gap rest

theorem encode_eq (bytes : List UInt8) :
    encode bytes = (values bytes).map letter ++ List.replicate (gap bytes) '=' := by
  induction bytes using encode.induct with
  | case1 => rfl
  | case2 a => rfl
  | case3 a b => rfl
  | case4 a b c rest ih =>
    simp only [encode, values, gap, ih, List.map_cons, List.cons_append]

theorem lt_of_mem_values {bytes : List UInt8} : ∀ v ∈ values bytes, v < 64 := by
  induction bytes using encode.induct with
  | case1 => simp [values]
  | case2 a =>
    have := a.toNat_lt
    simp only [values, List.mem_cons, List.not_mem_nil, or_false]
    rintro v (rfl | rfl) <;> omega
  | case3 a b =>
    have := a.toNat_lt
    have := b.toNat_lt
    simp only [values, List.mem_cons, List.not_mem_nil, or_false]
    rintro v (rfl | rfl | rfl) <;> omega
  | case4 a b c rest ih =>
    have := a.toNat_lt
    have := b.toNat_lt
    have := c.toNat_lt
    simp only [values, List.mem_cons]
    rintro v (rfl | rfl | rfl | rfl | hv)
    · omega
    · omega
    · omega
    · omega
    · exact ih v hv

/-- The groups of four letters are complete. -/
theorem length_values_add_gap (bytes : List UInt8) :
    ((values bytes).length + gap bytes) % 4 = 0 ∧ gap bytes ≤ 2 := by
  induction bytes using encode.induct with
  | case1 => decide
  | case2 a => simp [values, gap]
  | case3 a b => simp [values, gap]
  | case4 a b c rest ih =>
    simp only [values, gap, List.length_cons]
    omega

theorem ofNat_eq {n : Nat} {a : UInt8} (h : n = a.toNat) : UInt8.ofNat n = a := by
  rw [h, UInt8.ofNat_toNat]

theorem pack_values (bytes : List UInt8) : pack (values bytes) = (bytes, false) := by
  induction bytes using encode.induct with
  | case1 => rfl
  | case2 a =>
    have := a.toNat_lt
    simp only [values, pack, Prod.mk.injEq, List.cons.injEq, and_true, bne_eq_false_iff_eq]
    exact ⟨ofNat_eq (by omega), by omega⟩
  | case3 a b =>
    have := a.toNat_lt
    have := b.toNat_lt
    simp only [values, pack, Prod.mk.injEq, List.cons.injEq, and_true, bne_eq_false_iff_eq]
    exact ⟨⟨ofNat_eq (by omega), ofNat_eq (by omega)⟩, by omega⟩
  | case4 a b c rest ih =>
    have := a.toNat_lt
    have := b.toNat_lt
    have := c.toNat_lt
    simp only [values, pack, ih, Prod.mk.injEq, List.cons.injEq, and_true]
    exact ⟨ofNat_eq (by omega), ofNat_eq (by omega), ofNat_eq (by omega)⟩

def byte (v : Nat) : UInt8 := UInt8.ofNat (letter v).toNat

theorem letter_spec {v : Nat} (h : v < 64) :
    String.utf8EncodeChar (letter v) = [byte v] ∧ value? (byte v) = some v ∧ byte v ≠ padding ∧
      Text.isBlank (letter v) = false := by
  have hall : ∀ v : Fin 64, String.utf8EncodeChar (letter v) = [byte v] ∧
      value? (byte v) = some v.val ∧ byte v ≠ padding ∧ Text.isBlank (letter v) = false := by
    decide
  exact hall ⟨v, h⟩

theorem isBlank_of_mem_encode {bytes : List UInt8} {c : Char} (h : c ∈ encode bytes) :
    Text.isBlank c = false := by
  rw [encode_eq, List.mem_append, List.mem_map, List.mem_replicate] at h
  rcases h with ⟨v, hv, rfl⟩ | ⟨_, rfl⟩
  · exact (letter_spec (lt_of_mem_values v hv)).2.2.2
  · decide

theorem toUtf8_letters {vs : List Nat} (h : ∀ v ∈ vs, v < 64) :
    Text.toUtf8 (vs.map letter) = vs.map byte := by
  induction vs with
  | nil => rfl
  | cons v vs ih =>
    have hrest := ih fun w hw => h w (List.mem_cons_of_mem v hw)
    simp only [Text.toUtf8, List.map_cons, List.flatMap_cons] at hrest ⊢
    rw [(letter_spec (h v List.mem_cons_self)).1, hrest, List.singleton_append]

theorem toUtf8_encode (bytes : List UInt8) : Text.toUtf8 (encode bytes) =
    (values bytes).map byte ++ List.replicate (gap bytes) padding := by
  have hpad : ∀ n, Text.toUtf8 (List.replicate n '=') = List.replicate n padding := by
    intro n
    induction n with
    | zero => rfl
    | succ n ih =>
      simp only [Text.toUtf8, List.replicate_succ, List.flatMap_cons] at ih ⊢
      rw [ih]
      rfl
  rw [encode_eq, ← toUtf8_letters lt_of_mem_values, ← hpad]
  exact List.flatMap_append

theorem sextets_letters {vs : List Nat} (h : ∀ v ∈ vs, v < 64) (final offset : Nat)
    (rest : List UInt8) : sextets final offset none (vs.map byte ++ rest) =
      (vs ++ ·) <$> sextets final (offset + vs.length) none rest := by
  induction vs generalizing offset with
  | nil => cases hr : sextets final offset none rest <;> simp [hr]
  | cons v vs ih =>
    obtain ⟨-, hvalue, hpad, -⟩ := letter_spec (h v List.mem_cons_self)
    have hpad : (byte v == padding) = false := by simpa using hpad
    simp only [List.map_cons, List.cons_append, sextets, hpad, Bool.false_eq_true, if_false, hvalue]
    rw [ih (fun w hw => h w (List.mem_cons_of_mem v hw)), List.length_cons,
      Nat.add_right_comm offset 1 vs.length, Nat.add_assoc offset]
    cases sextets final (offset + (vs.length + 1)) none rest <;> rfl

/-- Padding is read to the end if it stands in the last block and in the second half of a group. -/
theorem sextets_padding {final offset n : Nat} (padded : Option Nat) (hfinal : final ≤ offset)
    (hgroup : (offset + n) % 4 = 0) (hn : n ≤ 2) :
    sextets final offset padded (List.replicate n padding) = .ok [] := by
  induction n generalizing offset padded with
  | zero => rfl
  | succ n ih =>
    have hpass : (decide (offset < final) || decide (offset % 4 < 2)) = false := by
      simp only [Bool.or_eq_false_iff, decide_eq_false_iff_not]
      omega
    simp only [List.replicate_succ, sextets, BEq.rfl, if_true, hpass, Bool.false_eq_true, if_false]
    exact ih _ (by omega) (by omega) (by omega)

/-- Bytes that were written are read again. -/
theorem decode_encode (bytes : List UInt8) : decode (Text.toUtf8 (encode bytes)) = .ok bytes := by
  obtain ⟨hgroup, hgap⟩ := length_values_add_gap bytes
  have hlength : (Text.toUtf8 (encode bytes)).length = (values bytes).length + gap bytes := by
    simp [toUtf8_encode]
  have hloose : ((Text.toUtf8 (encode bytes)).length % 4 == 1) = false := by
    rw [hlength, hgroup]
    rfl
  have hread : sextets (((Text.toUtf8 (encode bytes)).length - 1) / 8 * 8) 0 none
      (Text.toUtf8 (encode bytes)) = .ok (values bytes) := by
    rw [hlength, toUtf8_encode, sextets_letters lt_of_mem_values, Nat.zero_add]
    have hpadding : sextets (((values bytes).length + gap bytes - 1) / 8 * 8) (values bytes).length
        none (List.replicate (gap bytes) padding) = .ok [] := by
      cases hn : gap bytes with
      | zero => rfl
      | succ n => exact sextets_padding none (by omega) (by omega) (by omega)
    rw [hpadding]
    exact congrArg Except.ok (List.append_nil _)
  simp only [decode, hloose, Bool.false_eq_true, if_false, hread, bind, Except.bind, pack_values]

def alphabet : List Char :=
  "ABCDEFGHIJKLMNOPQRSTUVWXYZabcdefghijklmnopqrstuvwxyz0123456789+/".toList

theorem getElem?_alphabet {v : Nat} (h : v < 64) : alphabet[v]? = some (letter v) := by
  have hall : (List.range 64).map letter = alphabet := by rfl
  simp [← hall, h]

/-- The lowest bits of a number, the highest of them first. -/
def bits : Nat → Nat → List Bool
  | 0, _ => []
  | width + 1, n => n.testBit width :: bits width n

theorem bits_congr {width n m : Nat} (h : ∀ i < width, n.testBit i = m.testBit i) :
    bits width n = bits width m := by
  induction width with
  | zero => rfl
  | succ width ih =>
    have hlower := ih fun i hi => h i (Nat.lt_succ_of_lt hi)
    rw [bits, bits, hlower, h width (Nat.lt_succ_self width)]

theorem bits_mod (width n : Nat) : bits width (n % (1 <<< width)) = bits width n := by
  apply bits_congr
  intro i hi
  rw [Nat.one_shiftLeft, Nat.testBit_mod_two_pow, decide_eq_true hi, Bool.true_and]

theorem bits_add (high low n : Nat) :
    bits (high + low) n = bits high (n >>> low) ++ bits low n := by
  induction high with
  | zero => rw [Nat.zero_add, bits, List.nil_append]
  | succ high ih =>
    rw [Nat.succ_add, bits, bits, ih, List.cons_append, Nat.testBit_shiftRight,
      Nat.add_comm high low]

theorem bits_zero (width : Nat) : bits width 0 = List.replicate width false := by
  induction width with
  | zero => rfl
  | succ width ih => rw [bits, ih, Nat.zero_testBit, List.replicate_succ]

theorem bits_sextet (width n : Nat) :
    bits (width + 6) n = bits width (n / 64) ++ bits 6 (n % 64) := by
  have hhigh : n >>> 6 = n / 64 := Nat.shiftRight_eq_div_pow n 6
  have hlow : bits 6 (n % 64) = bits 6 n := bits_mod 6 n
  rw [bits_add, hhigh, hlow]

theorem bits_byte (width n : Nat) (b : UInt8) :
    bits (width + 8) (n * 256 + b.toNat) = bits width n ++ bits 8 b.toNat := by
  have hlt := b.toNat_lt
  have hhigh : (n * 256 + b.toNat) >>> 8 = n := by omega
  have hlow : (n * 256 + b.toNat) % 256 = b.toNat := by omega
  have hcut : bits 8 ((n * 256 + b.toNat) % 256) = bits 8 (n * 256 + b.toNat) := bits_mod 8 _
  rw [bits_add, hhigh, ← hcut, hlow]

theorem bits_shiftLeft (width low n : Nat) :
    bits (width + low) (n <<< low) = bits width n ++ List.replicate low false := by
  have hlow : bits low (n <<< low) = bits low 0 := by
    apply bits_congr
    intro i hi
    have hunder : ¬ low ≤ i := by omega
    rw [Nat.testBit_shiftLeft, decide_eq_false hunder, Bool.false_and, Nat.zero_testBit]
  rw [bits_add, Nat.shiftLeft_shiftRight, hlow, bits_zero]

/-- The bits of a sequence of bytes, followed by zeros, are cut into sextets. -/
theorem bits_values (bytes : List UInt8) : (values bytes).flatMap (bits 6) =
    bytes.flatMap (fun b => bits 8 b.toNat) ++ List.replicate (2 * gap bytes) false := by
  induction bytes using encode.induct with
  | case1 => rfl
  | case2 a =>
    have hshift : a.toNat <<< 4 = a.toNat * 16 := Nat.shiftLeft_eq a.toNat 4
    have hfilled := bits_shiftLeft 8 4 a.toNat
    rw [hshift, bits_sextet 6] at hfilled
    simpa [values, gap] using hfilled
  | case3 a b =>
    have hshift : (a.toNat * 256 + b.toNat) <<< 2 = (a.toNat * 256 + b.toNat) * 4 :=
      Nat.shiftLeft_eq (a.toNat * 256 + b.toNat) 2
    have hfilled := bits_shiftLeft 16 2 (a.toNat * 256 + b.toNat)
    rw [hshift, bits_sextet 12, bits_sextet 6, bits_byte 8] at hfilled
    simpa [values, gap, Nat.div_div_eq_div_mul] using hfilled
  | case4 a b c rest ih =>
    have hsextets := bits_sextet 18 ((a.toNat * 256 + b.toNat) * 256 + c.toNat)
    rw [bits_sextet 12, bits_sextet 6, bits_byte 16, bits_byte 8] at hsextets
    have hgroup := congrArg (· ++ (values rest).flatMap (bits 6)) hsextets.symm
    simpa [values, gap, ih, Nat.div_div_eq_div_mul] using hgroup

/-- The text of a sequence of bytes in the standard alphabet with padding: the bits are filled up with
zeros to groups of six, each of which is a letter, and the letters to groups of four. -/
def Spells (cs : List Char) (bytes : List UInt8) : Prop :=
  ∃ (sextets : List Nat) (pads : Nat),
    cs.map some = sextets.map (alphabet[·]?) ++ List.replicate pads (some '=') ∧
    sextets.flatMap (bits 6) =
      bytes.flatMap (fun b => bits 8 b.toNat) ++ List.replicate (2 * pads) false ∧
    cs.length % 4 = 0 ∧ pads ≤ 2

theorem spells_encode (bytes : List UInt8) : Spells (encode bytes) bytes := by
  obtain ⟨hgroup, hgap⟩ := length_values_add_gap bytes
  refine ⟨values bytes, gap bytes, ?_, bits_values bytes, ?_, hgap⟩
  · rw [encode_eq, List.map_append, List.map_map, List.map_replicate]
    congr 1
    apply List.map_congr_left
    intro v hv
    exact (getElem?_alphabet (lt_of_mem_values v hv)).symm
  · rw [encode_eq, List.length_append, List.length_map, List.length_replicate]
    exact hgroup

end ObjectTracking.Base64
