/-!
Sets of slots. A set is a number whose bits tell which slots it has.
-/
set_option autoImplicit false

namespace ObjectTracking

structure SlotSet where
  bits : Nat := 0
  deriving DecidableEq

namespace SlotSet

def empty : SlotSet := {}

instance : EmptyCollection SlotSet := ⟨empty⟩

def contains (s : SlotSet) (slot : Nat) : Bool := s.bits.testBit slot

instance : Membership Nat SlotSet := ⟨fun s slot => s.contains slot = true⟩

instance (slot : Nat) (s : SlotSet) : Decidable (slot ∈ s) :=
  inferInstanceAs (Decidable (s.contains slot = true))

def insert (s : SlotSet) (slot : Nat) : SlotSet := ⟨s.bits ||| (1 <<< slot)⟩

def erase (s : SlotSet) (slot : Nat) : SlotSet :=
  if s.contains slot then ⟨s.bits ^^^ (1 <<< slot)⟩ else s

def union (s t : SlotSet) : SlotSet := ⟨s.bits ||| t.bits⟩

instance : Union SlotSet := ⟨union⟩

def isEmpty (s : SlotSet) : Bool := s.bits == 0

/-- The members, ascending. -/
def toList (s : SlotSet) : List Nat := (List.range (s.bits.log2 + 1)).filter s.contains

def ofList (slots : List Nat) : SlotSet := slots.foldl insert empty

def filter (s : SlotSet) (p : Nat → Bool) : SlotSet := ofList (s.toList.filter p)

@[simp] theorem mem_iff_contains {s : SlotSet} {slot : Nat} : slot ∈ s ↔ s.contains slot = true :=
  Iff.rfl

@[simp] theorem contains_empty (slot : Nat) : (∅ : SlotSet).contains slot = false := by
  simp [contains, EmptyCollection.emptyCollection, empty]

@[simp] theorem contains_insert (s : SlotSet) (slot n : Nat) :
    (s.insert slot).contains n = (n == slot || s.contains n) := by
  simp only [contains, insert, Nat.testBit_or, Nat.one_shiftLeft, Nat.testBit_two_pow]
  by_cases h : n = slot
  · subst h; simp
  · simp [h, Ne.symm h]

@[simp] theorem contains_erase (s : SlotSet) (slot n : Nat) :
    (s.erase slot).contains n = (n != slot && s.contains n) := by
  unfold erase
  by_cases hn : n = slot
  · subst hn
    split
    · simp_all [contains, Nat.one_shiftLeft]
    · simp_all
  · split
    · simp [contains, Nat.one_shiftLeft, hn, Ne.symm hn]
    · simp [hn]

@[simp] theorem contains_union (s t : SlotSet) (n : Nat) :
    (s ∪ t).contains n = (s.contains n || t.contains n) := by
  simp [contains, Union.union, union, Nat.testBit_or]

theorem contains_foldl_insert (slots : List Nat) (s : SlotSet) (n : Nat) :
    (slots.foldl insert s).contains n = (slots.contains n || s.contains n) := by
  induction slots generalizing s with
  | nil => rfl
  | cons slot slots ih =>
    rw [List.foldl_cons, ih, contains_insert, List.contains_cons]
    cases slots.contains n <;> cases n == slot <;> rfl

@[simp] theorem contains_ofList (slots : List Nat) (n : Nat) :
    (ofList slots).contains n = slots.contains n := by
  rw [ofList, contains_foldl_insert]
  simp [contains, empty]

theorem isEmpty_iff (s : SlotSet) : s.isEmpty = true ↔ ∀ n, s.contains n = false := by
  simp only [isEmpty, contains, beq_iff_eq]
  constructor
  · intro h n
    simp [h]
  · intro h
    apply Nat.eq_of_testBit_eq
    simpa using h

@[simp] theorem mem_toList {s : SlotSet} {slot : Nat} : slot ∈ s.toList ↔ s.contains slot = true := by
  rw [toList, List.mem_filter, List.mem_range, and_iff_right_iff_imp, contains]
  intro h
  rw [Nat.lt_succ_iff, Nat.le_log2]
  · exact Nat.ge_two_pow_of_testBit h
  · intro hzero
    simp [hzero] at h

theorem toList_ascending (s : SlotSet) : s.toList.Pairwise (· < ·) :=
  List.pairwise_lt_range.filter _

theorem eq_of_contains {s t : SlotSet} (h : ∀ n, s.contains n = t.contains n) : s = t := by
  obtain ⟨a⟩ := s
  obtain ⟨b⟩ := t
  exact congrArg SlotSet.mk (Nat.eq_of_testBit_eq h)

end SlotSet

end ObjectTracking
