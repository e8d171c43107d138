import Mathlib.Data.UInt
import Mathlib.Tactic.SplitIfs
import ObjectTracking.Text.Utf8
/-!
Bytes are read as UTF-8 exactly if they are the bytes of a text, and what is read is that text. No
byte that continues a character begins one, so that what stands before a text in the bytes of another
text is a text too.
-/
set_option autoImplicit false

namespace ObjectTracking.Text

/-- Bytes that continue a character. The first of them lies in a range of its own. -/
def Continues : Nat × Nat → List UInt8 → Prop
  | _, [] => True
  | range, b :: tail => (range.1 ≤ b.toNat ∧ b.toNat ≤ range.2) ∧ Continues (0x80, 0xBF) tail

/-- The first byte of a character and those that continue it. -/
def IsForm (b : UInt8) (tail : List UInt8) : Prop :=
  utf8Width b.toNat = tail.length + 1 ∧ Continues (secondRange b.toNat) tail

/-- The bits of the number of a character in its first byte. -/
def leadBits (first : Nat) : Nat :=
  if utf8Width first == 1 then first else first % Nat.pow 2 (7 - utf8Width first)

/-- A number with the bits of continuing bytes behind its own. -/
def withBits (code : Nat) (tail : List UInt8) : Nat :=
  tail.foldl (fun n b => n * 64 + b.toNat % 64) code

section Form
variable {n m : Nat} {b b₁ b₂ b₃ : UInt8} {tail : List UInt8}

theorem utf8Width_eq_one_iff : utf8Width n = 1 ↔ n < 0x80 := by grind [utf8Width]

theorem utf8Width_eq_two_iff : utf8Width n = 2 ↔ 0xC2 ≤ n ∧ n < 0xE0 := by grind [utf8Width]

theorem utf8Width_eq_three_iff : utf8Width n = 3 ↔ 0xE0 ≤ n ∧ n < 0xF0 := by grind [utf8Width]

theorem utf8Width_eq_four_iff : utf8Width n = 4 ↔ 0xF0 ≤ n ∧ n < 0xF5 := by grind [utf8Width]

theorem utf8Width_le (n : Nat) : utf8Width n ≤ 4 := by grind [utf8Width]

/-- No character begins with a byte that continues one. -/
theorem utf8Width_of_continuing (h : 0x80 ≤ n ∧ n ≤ 0xBF) : utf8Width n = 0 := by
  grind [utf8Width]

theorem mem_secondRange_iff : ((secondRange n).1 ≤ m ∧ m ≤ (secondRange n).2) ↔
    (0x80 ≤ m ∧ m ≤ 0xBF) ∧ (n = 0xE0 → 0xA0 ≤ m) ∧ (n = 0xED → m ≤ 0x9F) ∧
      (n = 0xF0 → 0x90 ≤ m) ∧ (n = 0xF4 → m ≤ 0x8F) := by
  grind [secondRange]

theorem isForm_one : IsForm b [] ↔ b.toNat < 0x80 := by
  change utf8Width b.toNat = 1 ∧ True ↔ _
  rw [utf8Width_eq_one_iff, and_true]

theorem isForm_two : IsForm b [b₁] ↔
    (0xC2 ≤ b.toNat ∧ b.toNat < 0xE0) ∧ (0x80 ≤ b₁.toNat ∧ b₁.toNat ≤ 0xBF) := by
  change utf8Width b.toNat = 2 ∧ (_ ∧ True) ↔ _
  rw [utf8Width_eq_two_iff, mem_secondRange_iff, and_true]
  omega

theorem isForm_three : IsForm b [b₁, b₂] ↔
    (0xE0 ≤ b.toNat ∧ b.toNat < 0xF0) ∧ (0x80 ≤ b₁.toNat ∧ b₁.toNat ≤ 0xBF) ∧
      (b.toNat = 0xE0 → 0xA0 ≤ b₁.toNat) ∧ (b.toNat = 0xED → b₁.toNat ≤ 0x9F) ∧
      (0x80 ≤ b₂.toNat ∧ b₂.toNat ≤ 0xBF) := by
  change utf8Width b.toNat = 3 ∧ (_ ∧ _ ∧ True) ↔ _
  rw [utf8Width_eq_three_iff, mem_secondRange_iff, and_true]
  omega

theorem isForm_four : IsForm b [b₁, b₂, b₃] ↔
    (0xF0 ≤ b.toNat ∧ b.toNat < 0xF5) ∧ (0x80 ≤ b₁.toNat ∧ b₁.toNat ≤ 0xBF) ∧
      (b.toNat = 0xF0 → 0x90 ≤ b₁.toNat) ∧ (b.toNat = 0xF4 → b₁.toNat ≤ 0x8F) ∧
      (0x80 ≤ b₂.toNat ∧ b₂.toNat ≤ 0xBF) ∧ (0x80 ≤ b₃.toNat ∧ b₃.toNat ≤ 0xBF) := by
  change utf8Width b.toNat = 4 ∧ (_ ∧ _ ∧ _ ∧ True) ↔ _
  rw [utf8Width_eq_four_iff, mem_secondRange_iff, and_true]
  omega

theorem leadBits_of_one (h : utf8Width n = 1) : leadBits n = n := by
  simp [leadBits, h]

theorem leadBits_of_two (h : utf8Width n = 2) : leadBits n = n % 32 := by
  simp [leadBits, h]

theorem leadBits_of_three (h : utf8Width n = 3) : leadBits n = n % 16 := by
  simp [leadBits, h]

theorem leadBits_of_four (h : utf8Width n = 4) : leadBits n = n % 8 := by
  simp [leadBits, h]

/-- The bytes of a character have its form and its number. -/
theorem isForm_utf8EncodeChar (c : Char) : ∃ b tail, String.utf8EncodeChar c = b :: tail ∧
    IsForm b tail ∧ withBits (leadBits b.toNat) tail = c.val.toNat := by
  have hvalid : c.val.toNat.isValidChar := c.valid
  unfold Nat.isValidChar at hvalid
  generalize hv : c.val.toNat = v at hvalid
  simp only [String.utf8EncodeChar, hv]
  -- One case for each width, by the bounds of its numbers.
  split_ifs with h1 h2 h3
  · have hform : IsForm (UInt8.ofNat v) [] := by
      rw [isForm_one, UInt8.toNat_ofNat']
      omega
    refine ⟨_, _, rfl, hform, ?_⟩
    rw [leadBits_of_one hform.1, UInt8.toNat_ofNat']
    exact Nat.mod_eq_of_lt (by omega)
  · have hform : IsForm (UInt8.ofNat (v / 64 % 32 + 192)) [UInt8.ofNat (v % 64 + 128)] := by
      simp only [isForm_two, UInt8.toNat_ofNat']
      omega
    refine ⟨_, _, rfl, hform, ?_⟩
    rw [leadBits_of_two hform.1]
    simp only [withBits, List.foldl, UInt8.toNat_ofNat']
    omega
  · have hform : IsForm (UInt8.ofNat (v / 4096 % 16 + 224))
        [UInt8.ofNat (v / 64 % 64 + 128), UInt8.ofNat (v % 64 + 128)] := by
      simp only [isForm_three, UInt8.toNat_ofNat']
      omega
    refine ⟨_, _, rfl, hform, ?_⟩
    rw [leadBits_of_three hform.1]
    simp only [withBits, List.foldl, UInt8.toNat_ofNat']
    omega
  · have hform : IsForm (UInt8.ofNat (v / 262144 % 8 + 240)) [UInt8.ofNat (v / 4096 % 64 + 128),
        UInt8.ofNat (v / 64 % 64 + 128), UInt8.ofNat (v % 64 + 128)] := by
      simp only [isForm_four, UInt8.toNat_ofNat']
      omega
    refine ⟨_, _, rfl, hform, ?_⟩
    rw [leadBits_of_four hform.1]
    simp only [withBits, List.foldl, UInt8.toNat_ofNat']
    omega

theorem exists_char (h : n.isValidChar) : ∃ c : Char, c.val.toNat = n :=
  ⟨Char.ofNatAux n h, rfl⟩

/-- Bytes of the form of a character are those of one. -/
theorem IsForm.exists_utf8EncodeChar (h : IsForm b tail) :
    ∃ c, String.utf8EncodeChar c = b :: tail := by
  match tail, h with
  | [], h =>
    have hb := isForm_one.mp h
    obtain ⟨c, hc⟩ := exists_char (n := b.toNat) (.inl (by omega))
    refine ⟨c, ?_⟩
    rw [String.utf8EncodeChar, hc, if_pos (by omega), UInt8.ofNat_toNat]
  | [b₁], h =>
    have hb := isForm_two.mp h
    obtain ⟨c, hc⟩ := exists_char (n := b.toNat % 32 * 64 + b₁.toNat % 64) (.inl (by omega))
    refine ⟨c, ?_⟩
    simp only [String.utf8EncodeChar, hc]
    rw [if_neg (by omega), if_pos (by omega)]
    simp only [List.cons.injEq, ← UInt8.toNat_inj, UInt8.toNat_ofNat', and_true]
    omega
  | [b₁, b₂], h =>
    have hb := isForm_three.mp h
    obtain ⟨c, hc⟩ := exists_char
      (n := (b.toNat % 16 * 64 + b₁.toNat % 64) * 64 + b₂.toNat % 64)
      (by unfold Nat.isValidChar; omega)
    refine ⟨c, ?_⟩
    simp only [String.utf8EncodeChar, hc]
    rw [if_neg (by omega), if_neg (by omega), if_pos (by omega)]
    simp only [List.cons.injEq, ← UInt8.toNat_inj, UInt8.toNat_ofNat', and_true]
    omega
  | [b₁, b₂, b₃], h =>
    have hb := isForm_four.mp h
    obtain ⟨c, hc⟩ := exists_char
      (n := ((b.toNat % 8 * 64 + b₁.toNat % 64) * 64 + b₂.toNat % 64) * 64 + b₃.toNat % 64)
      (by unfold Nat.isValidChar; omega)
    refine ⟨c, ?_⟩
    simp only [String.utf8EncodeChar, hc]
    rw [if_neg (by omega), if_neg (by omega), if_neg (by omega)]
    simp only [List.cons.injEq, ← UInt8.toNat_inj, UInt8.toNat_ofNat', and_true]
    omega
  | _ :: _ :: _ :: _ :: tail, h =>
    have hlength := h.1
    have hwidth := utf8Width_le b.toNat
    simp only [List.length_cons] at hlength
    omega

end Form

section Reading
variable {b : UInt8} {bytes tail rest : List UInt8} {cs : List Char}

theorem utf8EncodeChar_eq_cons_iff {c : Char} : String.utf8EncodeChar c = b :: tail ↔
    IsForm b tail ∧ withBits (leadBits b.toNat) tail = c.val.toNat := by
  constructor
  · intro h
    obtain ⟨b', tail', hc, hform, hbits⟩ := isForm_utf8EncodeChar c
    cases h.symm.trans hc
    exact ⟨hform, hbits⟩
  · rintro ⟨hform, hbits⟩
    obtain ⟨d, hd⟩ := hform.exists_utf8EncodeChar
    obtain ⟨b', tail', hd', -, hbits'⟩ := isForm_utf8EncodeChar d
    cases hd.symm.trans hd'
    rw [← hd, Char.ext (UInt32.toNat_inj.mp (hbits.symm.trans hbits'))]

theorem continuation_eq_ok_iff {index count seen code code' : Nat} {range : Nat × Nat} :
    continuation index count seen range code bytes = .ok code' ↔
      ∃ tail rest, bytes = tail ++ rest ∧ tail.length = count ∧ Continues range tail ∧
        withBits code tail = code' := by
  induction count generalizing seen range code bytes with
  | zero => simp [continuation, List.length_eq_zero_iff, Continues, withBits]
  | succ count ih =>
    constructor
    · intro h
      cases bytes with
      | nil => cases h
      | cons b bytes =>
        simp only [continuation, Bool.and_eq_true, decide_eq_true_eq] at h
        split at h
        · rename_i hb
          obtain ⟨tail, rest, rfl, hlength, hcontinues, hbits⟩ := ih.mp h
          exact ⟨b :: tail, rest, rfl, by rw [List.length_cons, hlength], ⟨hb, hcontinues⟩, hbits⟩
        · cases h
    · rintro ⟨tail, rest, rfl, hlength, hcontinues, hbits⟩
      cases tail with
      | nil => cases hlength
      | cons b tail =>
        simp only [List.cons_append, continuation, Bool.and_eq_true, decide_eq_true_eq]
        rw [if_pos hcontinues.1]
        exact ih.mpr ⟨tail, rest, rfl, Nat.succ.inj hlength, hcontinues.2, hbits⟩

/-- Bytes that belong to a character that is already read are passed over. -/
theorem charsFrom_append (index : Nat) (tail rest : List UInt8) :
    charsFrom index tail.length (tail ++ rest) = charsFrom (index + tail.length) 0 rest := by
  induction tail generalizing index with
  | nil => rfl
  | cons b tail ih =>
    rw [List.length_cons, List.cons_append, charsFrom, ih, Nat.add_right_comm, Nat.add_assoc]

/-- Bytes are read one character at a time. -/
theorem charsFrom_cons_eq_ok_iff {index : Nat} : charsFrom index 0 (b :: bytes) = .ok cs ↔
    ∃ c tail rest cs', String.utf8EncodeChar c = b :: tail ∧ bytes = tail ++ rest ∧
      charsFrom (index + 1 + tail.length) 0 rest = .ok cs' ∧ c :: cs' = cs := by
  constructor
  · intro h
    simp only [charsFrom, bind, Except.bind] at h
    split at h
    · cases h
    · rename_i hwidth
      split at h
      · cases h
      · rename_i code hcode
        obtain ⟨tail, rest, rfl, hlength, hcontinues, hbits⟩ := continuation_eq_ok_iff.mp hcode
        have hform : IsForm b tail := by
          refine ⟨?_, hcontinues⟩
          rw [beq_iff_eq] at hwidth
          omega
        -- The reader makes its character of the number, and the form has one of that number.
        obtain ⟨c, hc⟩ := hform.exists_utf8EncodeChar
        obtain rfl : c.toNat = code := ((utf8EncodeChar_eq_cons_iff.mp hc).2.symm.trans hbits)
        split at h
        · cases h
        · rename_i cs' hcs'
          rw [← hlength, charsFrom_append] at hcs'
          rw [Char.ofNat_toNat] at h
          exact ⟨c, tail, rest, cs', hc, rfl, hcs', Except.ok.inj h⟩
  · rintro ⟨c, tail, rest, cs', hc, rfl, hrest, rfl⟩
    obtain ⟨⟨hwidth, hcontinues⟩, hbits⟩ := utf8EncodeChar_eq_cons_iff.mp hc
    have hcode : continuation index tail.length 1 (secondRange b.toNat) (leadBits b.toNat)
        (tail ++ rest) = .ok c.val.toNat :=
      continuation_eq_ok_iff.mpr ⟨tail, rest, rfl, rfl, hcontinues, hbits⟩
    rw [charsFrom, if_neg (by rw [hwidth]; simp)]
    change (continuation index (utf8Width b.toNat - 1) 1 (secondRange b.toNat)
      (leadBits b.toNat) _ >>= _) = _
    rw [hwidth, Nat.add_sub_cancel, hcode]
    simp only [bind, Except.bind, charsFrom_append, hrest]
    exact congrArg (fun d => Except.ok (d :: cs')) (Char.ofNat_toNat c)

theorem charsFrom_eq_ok_iff (index : Nat) :
    charsFrom index 0 bytes = .ok cs ↔ bytes = toUtf8 cs := by
  induction cs generalizing index bytes with
  | nil =>
    cases bytes with
    | nil => simp [charsFrom, toUtf8]
    | cons b bytes => simp [charsFrom_cons_eq_ok_iff, toUtf8]
  | cons c cs ih =>
    obtain ⟨b, tail, hc, -⟩ := isForm_utf8EncodeChar c
    have hcons : toUtf8 (c :: cs) = b :: (tail ++ toUtf8 cs) := by
      rw [toUtf8, List.flatMap_cons, hc]
      rfl
    rw [hcons]
    constructor
    · intro h
      cases bytes with
      | nil => cases h
      | cons b' bytes =>
        obtain ⟨c', tail', rest, cs', hc', rfl, hrest, hcs⟩ := charsFrom_cons_eq_ok_iff.mp h
        cases hcs
        cases hc.symm.trans hc'
        rw [(ih _).mp hrest]
    · rintro rfl
      exact charsFrom_cons_eq_ok_iff.mpr ⟨c, tail, toUtf8 cs, cs, hc, rfl, (ih _).mpr rfl, rfl⟩

/-- Bytes are read as a text exactly if they are its bytes. -/
theorem ofUtf8_eq_ok_iff {s : String} : ofUtf8 bytes = .ok s ↔ bytes = toUtf8 s.toList := by
  rw [← charsFrom_eq_ok_iff 0, ofUtf8]
  cases charsFrom 0 0 bytes with
  | error e => simp [Functor.map, Except.map]
  | ok cs =>
    change Except.ok (String.ofList cs) = Except.ok s ↔ Except.ok cs = Except.ok s.toList
    rw [Except.ok.injEq, Except.ok.injEq]
    constructor
    · rintro rfl
      exact String.toList_ofList.symm
    · rintro rfl
      exact String.ofList_toList

theorem toUtf8_cons (c : Char) (cs : List Char) :
    toUtf8 (c :: cs) = String.utf8EncodeChar c ++ toUtf8 cs := List.flatMap_cons

theorem toUtf8_append (a b : List Char) : toUtf8 (a ++ b) = toUtf8 a ++ toUtf8 b :=
  List.flatMap_append

theorem toUtf8_inj {a b : List Char} : toUtf8 a = toUtf8 b ↔ a = b := by
  rw [← charsFrom_eq_ok_iff 0, (charsFrom_eq_ok_iff 0).mpr rfl, Except.ok.injEq]

theorem Continues.of_mem {range : Nat × Nat} (h : Continues range tail)
    (hrange : ∀ m, range.1 ≤ m ∧ m ≤ range.2 → 0x80 ≤ m ∧ m ≤ 0xBF) (hmem : b ∈ tail) :
    0x80 ≤ b.toNat ∧ b.toNat ≤ 0xBF := by
  induction tail generalizing range with
  | nil => cases hmem
  | cons b' tail ih =>
    rcases List.mem_cons.mp hmem with rfl | hmem
    · exact hrange _ h.1
    · exact ih h.2 (fun _ hm => hm) hmem

/-- No byte behind the first one of a character begins a text. -/
theorem ne_toUtf8_of_mem_tail {c : Char} {b' : UInt8} (hc : String.utf8EncodeChar c = b :: tail)
    (hmem : b' ∈ tail) : b' :: bytes ≠ toUtf8 cs := by
  intro h
  have hform := (utf8EncodeChar_eq_cons_iff.mp hc).1
  have hcontinues := hform.2.of_mem (fun _ hm => (mem_secondRange_iff.mp hm).1) hmem
  cases cs with
  | nil => cases h
  | cons d cs =>
    obtain ⟨b₀, tail', hd, ⟨hwidth, -⟩, -⟩ := isForm_utf8EncodeChar d
    rw [toUtf8_cons, hd] at h
    cases h
    rw [utf8Width_of_continuing hcontinues] at hwidth
    cases hwidth

/-- What stands before a text in the bytes of another text is a text too. -/
theorem append_toUtf8_eq_iff {a b : List Char} : bytes ++ toUtf8 a = toUtf8 b ↔
    ∃ before, bytes = toUtf8 before ∧ b = before ++ a := by
  constructor
  · intro h
    induction b generalizing bytes with
    | nil =>
      obtain ⟨rfl, ha⟩ := List.append_eq_nil_iff.mp h
      exact ⟨[], rfl, (toUtf8_inj.mp ha).symm⟩
    | cons c b ih =>
      cases bytes with
      | nil => exact ⟨[], rfl, (toUtf8_inj.mp h).symm⟩
      | cons b₀ bytes =>
        rw [toUtf8_cons, List.append_eq_append_iff] at h
        rcases h with ⟨middle, hc, ha⟩ | ⟨middle, hbytes, hb⟩
        · -- The bytes end with the character, or else the text begins within it.
          cases middle with
          | nil =>
            obtain rfl := toUtf8_inj.mp ha
            rw [List.append_nil] at hc
            exact ⟨[c], by rw [← hc]; exact (List.append_nil _).symm, rfl⟩
          | cons m middle =>
            have hmem : m ∈ bytes ++ m :: middle := by simp
            exact absurd ha.symm (ne_toUtf8_of_mem_tail hc hmem)
        · obtain ⟨before, rfl, rfl⟩ := ih hb.symm
          exact ⟨c :: before, hbytes.trans (toUtf8_cons c before).symm, rfl⟩
  · rintro ⟨before, rfl, rfl⟩
    exact (toUtf8_append before a).symm

/-- Bytes before those of a text are read with it exactly if they are the bytes of a text. -/
theorem ofUtf8_append_eq_ok_iff {t s : String} : ofUtf8 (bytes ++ toUtf8 t.toList) = .ok s ↔
    ∃ before : String, bytes = toUtf8 before.toList ∧ s = before ++ t := by
  rw [ofUtf8_eq_ok_iff, append_toUtf8_eq_iff]
  constructor
  · rintro ⟨before, rfl, hs⟩
    refine ⟨String.ofList before, by rw [String.toList_ofList], String.toList_inj.mp ?_⟩
    rw [hs, String.toList_append, String.toList_ofList]
  · rintro ⟨before, rfl, rfl⟩
    exact ⟨before.toList, rfl, String.toList_append⟩

end Reading

end ObjectTracking.Text
