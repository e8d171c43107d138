import Mathlib.Data.Finset.Card
import Mathlib.Data.List.Sort
import ObjectTracking.SlotSet
import ObjectTracking.WordSet
/-!
Sets of slots in words are sets of numbers: however the words lie, an operation changes membership
as it does for a finite set, and what is counted and listed are the members. So a set in words may
be replaced by the number of its bits, as a copy has its sets.
-/
set_option autoImplicit false

namespace ObjectTracking.WordSet
variable {s t : WordSet} {slot n : Nat}

/-! ### Bits of a word -/

theorem toBitVec_mask (slot : Nat) : (mask slot).toBitVec = BitVec.twoPow 64 (slot % 64) := by
  have hslot : slot % 64 % 2 ^ 64 % 64 = slot % 64 := by omega
  simp only [mask, UInt64.toBitVec_shiftLeft, UInt64.toBitVec_ofNat', BitVec.twoPow]
  apply BitVec.eq_of_toNat_eq
  simp [BitVec.toNat_shiftLeft]

theorem hasBit_eq (slot : Nat) (word : UInt64) :
    hasBit slot word = word.toBitVec.getLsbD (slot % 64) := by
  have hbit : slot % 64 < 64 := Nat.mod_lt _ (by decide)
  have hword : hasBit slot word = (word.toBitVec &&& BitVec.twoPow 64 (slot % 64) != 0#64) := by
    rw [← toBitVec_mask, ← UInt64.toBitVec_and]
    simp [hasBit, bne, ← UInt64.toBitVec_inj, BEq.beq]
  rw [hword, BitVec.and_twoPow]
  split
  · rename_i h
    rw [h, bne_iff_ne]
    intro hzero
    have := congrArg (·.getLsbD (slot % 64)) hzero
    simp [hbit] at this
  · rename_i h
    simpa using h

theorem hasBit_or (word other : UInt64) :
    hasBit slot (word ||| other) = (hasBit slot word || hasBit slot other) := by
  simp [hasBit_eq]

theorem hasBit_mask : hasBit n (mask slot) = (n % 64 == slot % 64) := by
  have hbit : slot % 64 < 64 := Nat.mod_lt _ (by decide)
  rw [hasBit_eq, toBitVec_mask, BitVec.getLsbD_twoPow]
  simp [hbit, eq_comm, BEq.beq]

theorem hasBit_and_not_mask (word : UInt64) :
    hasBit n (word &&& ~~~mask slot) = (n % 64 != slot % 64 && hasBit n word) := by
  have hbit : n % 64 < 64 := Nat.mod_lt _ (by decide)
  have hmask : hasBit n (mask slot) = (n % 64 == slot % 64) := hasBit_mask
  rw [hasBit_eq] at hmask
  rw [hasBit_eq, UInt64.toBitVec_and, UInt64.toBitVec_not, BitVec.getLsbD_and, BitVec.getLsbD_not,
    hmask, hasBit_eq]
  simp [hbit, bne, Bool.and_comm]

@[simp] theorem hasBit_zero (slot : Nat) : hasBit slot 0 = false := by simp [hasBit]

theorem eq_zero_iff {word : UInt64} : word = 0 ↔ ∀ bit < 64, hasBit bit word = false := by
  constructor
  · rintro rfl bit _
    exact hasBit_zero bit
  · intro h
    rw [← UInt64.toBitVec_inj]
    apply BitVec.eq_of_getLsbD_eq
    intro bit hbit
    have := h bit hbit
    rw [hasBit_eq, Nat.mod_eq_of_lt hbit] at this
    simpa using this

/-! ### Membership -/

theorem getElem?_resized (words : Array UInt64) (size ix : Nat) :
    (resized words size)[ix]? = if ix < size then some (words[ix]?.getD 0) else words[ix]? := by
  simp only [resized, Array.getElem?_append, Array.getElem?_replicate]
  grind

theorem contains_eq (s : WordSet) (n : Nat) : s.contains n = hasBit n (s.word n) := by
  unfold contains word
  split
  · rfl
  · rename_i h
    have hix : n / 64 - 1 < n / 64 := by omega
    rw [getElem?_resized, if_pos hix]
    cases s.far[n / 64 - 1]? <;> simp

theorem word_congr (s : WordSet) (h : n / 64 = slot / 64) : s.word n = s.word slot := by
  have hnear : n < 64 ↔ slot < 64 := by omega
  simp only [word, h, hnear]

theorem word_modifyWord (s : WordSet) (slot n : Nat) (change : UInt64 → UInt64) :
    (s.modifyWord slot change).word n =
      if n / 64 = slot / 64 then change (s.word slot) else s.word n := by
  unfold modifyWord word
  grind [getElem?_resized]

@[simp] theorem contains_empty (n : Nat) : (∅ : WordSet).contains n = false := by
  simp [contains, EmptyCollection.emptyCollection, empty]

theorem mod_beq (h : n / 64 = slot / 64) : (n % 64 == slot % 64) = (n == slot) := by
  rw [Bool.eq_iff_iff, beq_iff_eq, beq_iff_eq]
  omega

@[simp] theorem insert_fst (s : WordSet) (slot : Nat) : (s.insert slot).1 = !s.contains slot := by
  simp [insert, contains_eq, hasBit, bne]

@[simp] theorem erase_fst (s : WordSet) (slot : Nat) : (s.erase slot).1 = s.contains slot := by
  simp [erase, contains_eq, hasBit]

@[simp] theorem contains_insert (s : WordSet) (slot n : Nat) :
    (s.insert slot).2.contains n = (n == slot || s.contains n) := by
  rw [insert, contains_eq, word_modifyWord, contains_eq]
  split
  · rename_i h
    rw [hasBit_or, hasBit_mask, mod_beq h, word_congr s h, Bool.or_comm]
  · rename_i h
    have hne : n ≠ slot := fun heq => h (congrArg (· / 64) heq)
    simp [hne]

@[simp] theorem contains_erase (s : WordSet) (slot n : Nat) :
    (s.erase slot).2.contains n = (n != slot && s.contains n) := by
  rw [erase, contains_eq, word_modifyWord, contains_eq]
  split
  · rename_i h
    rw [hasBit_and_not_mask, bne, mod_beq h, word_congr s h, bne]
  · rename_i h
    have hne : n ≠ slot := fun heq => h (congrArg (· / 64) heq)
    simp [hne]

theorem contains_foldl_insert (slots : List Nat) (s : WordSet) (n : Nat) :
    (slots.foldl (fun s slot => (s.insert slot).2) s).contains n =
      (slots.contains n || s.contains n) := by
  induction slots generalizing s with
  | nil => rfl
  | cons slot slots ih =>
    rw [List.foldl_cons, ih, contains_insert, List.contains_cons]
    cases slots.contains n <;> cases n == slot <;> rfl

theorem contains_foldl_erase (slots : List Nat) (s : WordSet) (n : Nat) :
    (slots.foldl (fun s slot => (s.erase slot).2) s).contains n =
      (!slots.contains n && s.contains n) := by
  induction slots generalizing s with
  | nil => rfl
  | cons slot slots ih =>
    rw [List.foldl_cons, ih, contains_erase, List.contains_cons, bne]
    cases slots.contains n <;> cases n == slot <;> rfl

theorem word_union (s t : WordSet) (n : Nat) : (s ∪ t).word n = s.word n ||| t.word n := by
  unfold word
  split
  · rfl
  · rename_i h
    have hix : n / 64 - 1 < n / 64 := by omega
    simp only [getElem?_resized, if_pos hix, Option.getD_some, Union.union, union,
      Array.getElem?_mapIdx]
    cases ht : t.far[n / 64 - 1]? with
    | some other =>
      have hsize : n / 64 - 1 < t.far.size := (Array.getElem?_eq_some_iff.mp ht).1
      simp [hsize]
    | none =>
      have hsize : ¬n / 64 - 1 < t.far.size := Nat.not_lt.mpr (Array.getElem?_eq_none_iff.mp ht)
      simp [hsize]

@[simp] theorem contains_union (s t : WordSet) (n : Nat) :
    (s ∪ t).contains n = (s.contains n || t.contains n) := by
  rw [contains_eq, word_union, hasBit_or, ← contains_eq, ← contains_eq]

/-! ### The members, listed and counted -/

def words (s : WordSet) : List UInt64 := s.near :: s.far.toList

theorem contains_eq_any (s : WordSet) (n : Nat) :
    s.contains n = (s.words[n / 64]?).any (hasBit n) := by
  unfold contains words
  split
  · rename_i h
    simp [Nat.div_eq_of_lt h]
  · rename_i h
    obtain ⟨ix, hix⟩ : ∃ ix, n / 64 = ix + 1 := ⟨n / 64 - 1, by omega⟩
    simp [hix]

theorem mem_slotsOf {word : UInt64} {ix : Nat} :
    n ∈ slotsOf word ix ↔ n / 64 = ix ∧ hasBit n word = true := by
  simp only [slotsOf, List.mem_map, List.mem_filter, List.mem_range]
  constructor
  · rintro ⟨bit, ⟨hlt, hbit⟩, rfl⟩
    refine ⟨by omega, ?_⟩
    rw [hasBit_eq] at hbit ⊢
    rwa [Nat.add_mul_mod_self_right]
  · rintro ⟨rfl, hbit⟩
    refine ⟨n % 64, ⟨Nat.mod_lt _ (by decide), ?_⟩, by omega⟩
    rw [hasBit_eq] at hbit ⊢
    rwa [Nat.mod_mod]

theorem slotsOf_ascending (word : UInt64) (ix : Nat) : (slotsOf word ix).Pairwise (· < ·) := by
  rw [slotsOf, List.pairwise_map]
  refine (List.pairwise_lt_range.filter _).imp ?_
  intro bit other h
  omega

theorem length_slotsOf (word : UInt64) (ix : Nat) : (slotsOf word ix).length = ones word := by
  rw [slotsOf, List.length_map, ones, List.countP_eq_length_filter]

@[simp] theorem mem_toList : n ∈ s.toList ↔ s.contains n = true := by
  rw [contains_eq_any, toList, List.mem_flatMap]
  simp only [Prod.exists, List.mk_mem_zipIdx_iff_getElem?, mem_slotsOf, Option.any_eq_true]
  constructor
  · rintro ⟨word, ix, hword, rfl, hbit⟩
    exact ⟨word, hword, hbit⟩
  · rintro ⟨word, hword, hbit⟩
    exact ⟨word, n / 64, hword, rfl, hbit⟩

theorem toList_ascending (s : WordSet) : s.toList.Pairwise (· < ·) := by
  rw [toList, List.pairwise_flatMap]
  refine ⟨fun entry _ => slotsOf_ascending entry.1 entry.2, ?_⟩
  have hplaces : (s.words.zipIdx.map Prod.snd).Pairwise (· < ·) := by
    rw [List.zipIdx_map_snd]
    exact List.pairwise_lt_range'
  -- Members of different words lie in different ranges of 64 numbers.
  refine (List.pairwise_map.mp hplaces).imp ?_
  intro entry other hlt n hn m hm
  have hnix := (mem_slotsOf.mp hn).1
  have hmix := (mem_slotsOf.mp hm).1
  omega

theorem length_toList (s : WordSet) : s.toList.length = s.size := by
  have hlengths : (fun entry : UInt64 × Nat => (slotsOf entry.1 entry.2).length) =
      ones ∘ Prod.fst := by
    funext entry
    exact length_slotsOf entry.1 entry.2
  rw [toList, List.length_flatMap, hlengths, ← List.map_map, List.zipIdx_map_fst]
  rfl

theorem isEmpty_iff : s.isEmpty = true ↔ ∀ n, s.contains n = false := by
  have hall : s.isEmpty = s.words.all (· == 0) := by
    rw [isEmpty, words, List.all_cons, Array.all_toList]
  rw [hall, List.all_eq_true]
  constructor
  · intro h n
    rw [contains_eq_any, Option.any_eq_false]
    intro word hword
    rw [beq_iff_eq.mp (h word (List.mem_of_getElem? hword))]
    exact hasBit_zero n
  · intro h word hword
    obtain ⟨ix, hix⟩ := List.getElem?_of_mem hword
    rw [beq_iff_eq, eq_zero_iff]
    intro bit hbit
    have hmember := h (bit + ix * 64)
    have hdiv : (bit + ix * 64) / 64 = ix := by omega
    rw [contains_eq_any, hdiv, hix, Option.any_some, hasBit_eq, Nat.add_mul_mod_self_right,
      ← hasBit_eq] at hmember
    exact hmember

/-! ### As one number -/

/-- The set of the same slots whose bits are one number. -/
def slots (s : WordSet) : SlotSet := SlotSet.ofList s.toList

@[simp] theorem contains_slots (s : WordSet) (n : Nat) : s.slots.contains n = s.contains n := by
  rw [slots, SlotSet.contains_ofList, Bool.eq_iff_iff, List.contains_iff_mem, mem_toList]

theorem slots_empty : (∅ : WordSet).slots = ∅ := by
  apply SlotSet.eq_of_contains
  simp

theorem slots_insert (s : WordSet) (slot : Nat) : (s.insert slot).2.slots = s.slots.insert slot := by
  apply SlotSet.eq_of_contains
  simp

theorem slots_erase (s : WordSet) (slot : Nat) : (s.erase slot).2.slots = s.slots.erase slot := by
  apply SlotSet.eq_of_contains
  simp

theorem slots_union (s t : WordSet) : (s ∪ t).slots = s.slots ∪ t.slots := by
  apply SlotSet.eq_of_contains
  simp

theorem isEmpty_slots (s : WordSet) : s.slots.isEmpty = s.isEmpty := by
  rw [Bool.eq_iff_iff, SlotSet.isEmpty_iff, isEmpty_iff]
  simp

theorem toList_slots (s : WordSet) : s.slots.toList = s.toList := by
  refine s.slots.toList_ascending.eq_of_mem_iff s.toList_ascending ?_
  simp

end ObjectTracking.WordSet
