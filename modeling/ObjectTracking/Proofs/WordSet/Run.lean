import Mathlib.Data.Finset.Union
import Mathlib.Logic.Function.Basic
import ObjectTracking.Proofs.WordSet
/-!
Many sets of slots at once. Whatever callers do with them, the sets in words give the answers of
finite sets, and each is in every respect the finite set that the same calls make.
-/
set_option autoImplicit false

namespace ObjectTracking

/-- What callers do with sets of slots, which they tell apart by numbers. -/
inductive SetCommand where
  | insert (set slot : Nat)
  | erase (set slot : Nat)
  /-- Adds the members of another set. -/
  | unite (set other : Nat)
  | clear (set : Nat)
  /-- Makes a set a copy of another. -/
  | copy (set source : Nat)

/-- A kind of sets. To insert a slot and to erase it tells whether membership changed. -/
structure SetKind (σ : Type) where
  empty : σ
  insert : σ → Nat → Bool × σ
  erase : σ → Nat → Bool × σ
  union : σ → σ → σ

namespace SetKind
variable {σ : Type}

/-- One command: its answer, if it has one, and the sets after it. -/
def step (k : SetKind σ) (sets : Nat → σ) : SetCommand → Option Bool × (Nat → σ)
  | .insert set slot =>
    let (changed, s) := k.insert (sets set) slot
    (some changed, Function.update sets set s)
  | .erase set slot =>
    let (changed, s) := k.erase (sets set) slot
    (some changed, Function.update sets set s)
  | .unite set other => (none, Function.update sets set (k.union (sets set) (sets other)))
  | .clear set => (none, Function.update sets set k.empty)
  | .copy set source => (none, Function.update sets set (sets source))

def run (k : SetKind σ) : (Nat → σ) → List SetCommand → List (Option Bool) × (Nat → σ)
  | sets, [] => ([], sets)
  | sets, c :: cs =>
    let (answer, sets) := k.step sets c
    let (answers, sets) := k.run sets cs
    (answer :: answers, sets)

def runAnew (k : SetKind σ) (cs : List SetCommand) : List (Option Bool) × (Nat → σ) :=
  k.run (fun _ => k.empty) cs

def words : SetKind WordSet := ⟨∅, WordSet.insert, WordSet.erase, (· ∪ ·)⟩

def finite : SetKind (Finset Nat) where
  empty := ∅
  insert f slot := (decide (slot ∉ f), Insert.insert slot f)
  erase f slot := (decide (slot ∈ f), f.erase slot)
  union f g := f ∪ g

end SetKind

namespace WordSet
variable {s : WordSet} {f : Finset Nat}

/-- Whether a set in words and a finite set have the same members. -/
def SameMembers (s : WordSet) (f : Finset Nat) : Prop := ∀ n, s.contains n = decide (n ∈ f)

/-- Whether all that can be asked of a set in words is answered as for a finite set. -/
structure Behaves (s : WordSet) (f : Finset Nat) : Prop where
  contains : ∀ n, s.contains n = decide (n ∈ f)
  isEmpty : s.isEmpty = decide (f = ∅)
  size : s.size = f.card
  mem_toList : ∀ n, n ∈ s.toList ↔ n ∈ f
  ascending : s.toList.Pairwise (· < ·)

theorem SameMembers.toFinset_toList (h : SameMembers s f) : s.toList.toFinset = f := by
  ext n
  rw [List.mem_toFinset, mem_toList, h n, decide_eq_true_iff]

theorem SameMembers.behaves (h : SameMembers s f) : Behaves s f where
  contains := h
  isEmpty := by
    rw [Bool.eq_iff_iff, isEmpty_iff, decide_eq_true_iff, Finset.eq_empty_iff_forall_notMem]
    exact forall_congr' fun n => by rw [h n, decide_eq_false_iff_not]
  size := by
    have hnodup : s.toList.Nodup := s.toList_ascending.imp Nat.ne_of_lt
    rw [← length_toList, ← List.toFinset_card_of_nodup hnodup, h.toFinset_toList]
  mem_toList n := by rw [WordSet.mem_toList, h n, decide_eq_true_iff]
  ascending := s.toList_ascending

/-- Two families of sets, member by member. -/
theorem sameMembers_update {sets : Nat → WordSet} {finites : Nat → Finset Nat} {set : Nat}
    (h : ∀ i, SameMembers (sets i) (finites i)) (hset : SameMembers s f) (i : Nat) :
    SameMembers (Function.update sets set s i) (Function.update finites set f i) := by
  by_cases hi : i = set
  · subst hi
    simpa using hset
  · simpa [hi] using h i

theorem step_sameMembers {sets : Nat → WordSet} {finites : Nat → Finset Nat}
    (h : ∀ i, SameMembers (sets i) (finites i)) (c : SetCommand) :
    (SetKind.words.step sets c).1 = (SetKind.finite.step finites c).1 ∧
      ∀ i, SameMembers ((SetKind.words.step sets c).2 i) ((SetKind.finite.step finites c).2 i) := by
  cases c with
  | insert set slot =>
    refine ⟨?_, sameMembers_update h ?_⟩
    · simp [SetKind.step, SetKind.words, SetKind.finite, h set slot]
    · intro n
      change ((sets set).insert slot).2.contains n = decide (n ∈ Insert.insert slot (finites set))
      rw [contains_insert, h set n, Bool.eq_iff_iff]
      simp
  | erase set slot =>
    refine ⟨?_, sameMembers_update h ?_⟩
    · simp [SetKind.step, SetKind.words, SetKind.finite, h set slot]
    · intro n
      change ((sets set).erase slot).2.contains n = decide (n ∈ (finites set).erase slot)
      rw [contains_erase, h set n, Bool.eq_iff_iff]
      simp
  | unite set other =>
    refine ⟨rfl, sameMembers_update h ?_⟩
    intro n
    change (sets set ∪ sets other).contains n = decide (n ∈ finites set ∪ finites other)
    rw [contains_union, h set n, h other n, Bool.eq_iff_iff]
    simp
  | clear set =>
    refine ⟨rfl, sameMembers_update h ?_⟩
    intro n
    simp [SetKind.words, SetKind.finite]
  | copy set source => exact ⟨rfl, sameMembers_update h (h source)⟩

theorem run_sameMembers (cs : List SetCommand) {sets : Nat → WordSet}
    {finites : Nat → Finset Nat} (h : ∀ i, SameMembers (sets i) (finites i)) :
    (SetKind.words.run sets cs).1 = (SetKind.finite.run finites cs).1 ∧
      ∀ i, SameMembers ((SetKind.words.run sets cs).2 i) ((SetKind.finite.run finites cs).2 i) := by
  induction cs generalizing sets finites with
  | nil => exact ⟨rfl, h⟩
  | cons c cs ih =>
    obtain ⟨hanswer, hsets⟩ := step_sameMembers h c
    obtain ⟨hanswers, hafter⟩ := ih hsets
    exact ⟨congrArg₂ List.cons hanswer hanswers, hafter⟩

/-- Sets in words are sets of numbers: whatever is done with any number of them, the answers are
those of finite sets, and every set behaves as the finite set that the same commands make. -/
theorem runAnew_behaves (cs : List SetCommand) :
    (SetKind.words.runAnew cs).1 = (SetKind.finite.runAnew cs).1 ∧
      ∀ i, Behaves ((SetKind.words.runAnew cs).2 i) ((SetKind.finite.runAnew cs).2 i) := by
  have hempty : ∀ _ : Nat, SameMembers SetKind.words.empty SetKind.finite.empty := by
    intro _ n
    simp [SetKind.words, SetKind.finite]
  obtain ⟨hanswers, hsets⟩ := run_sameMembers cs hempty
  exact ⟨hanswers, fun i => (hsets i).behaves⟩

end WordSet

end ObjectTracking
