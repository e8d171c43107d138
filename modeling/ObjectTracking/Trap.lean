/-!
Computations that could be stopped. An attempt gives a value or refuses to; a trap is neither, but
what would stop a program for good, so that a refusal can be told from it.
-/
set_option autoImplicit false

namespace ObjectTracking

/-- What stops a computation. -/
inductive Trap where
  /-- Nothing stands at a position. -/
  | vacant
  /-- A text is cut within a character or past its end. -/
  | cut
  /-- A number leaves the range of its type. -/
  | overflow
  deriving DecidableEq, Repr

/-- The outcome of a computation that gives a value or refuses to, unless it is stopped. -/
inductive Attempt (α : Type) where
  | done (a : α)
  | refused
  | trapped (t : Trap)
  deriving DecidableEq, Repr

namespace Attempt
variable {α β : Type}

def bind (x : Attempt α) (f : α → Attempt β) : Attempt β :=
  match x with
  | done a => f a
  | refused => refused
  | trapped t => trapped t

instance : Monad Attempt where
  pure := done
  bind := bind

@[simp] theorem done_bind (a : α) (f : α → Attempt β) : (done a >>= f) = f a := rfl

@[simp] theorem refused_bind (f : α → Attempt β) : (refused >>= f) = refused := rfl

@[simp] theorem trapped_bind (t : Trap) (f : α → Attempt β) : (trapped t >>= f) = trapped t := rfl

@[simp] theorem pure_eq_done (a : α) : (pure a : Attempt α) = done a := rfl

theorem bind_eq_done_iff {x : Attempt α} {f : α → Attempt β} {b : β} :
    (x >>= f) = done b ↔ ∃ a, x = done a ∧ f a = done b := by
  cases x <;> simp

theorem bind_eq_trapped_iff {x : Attempt α} {f : α → Attempt β} {t : Trap} :
    (x >>= f) = trapped t ↔ x = trapped t ∨ ∃ a, x = done a ∧ f a = trapped t := by
  cases x <;> simp

def value? : Attempt α → Option α
  | done a => some a
  | _ => none

theorem value?_eq_some_iff {x : Attempt α} {a : α} : x.value? = some a ↔ x = done a := by
  cases x <;> simp [value?]

def ofOption : Option α → Attempt α
  | some a => done a
  | none => refused

@[simp] theorem ofOption_eq_done_iff {x : Option α} {a : α} : ofOption x = done a ↔ x = some a := by
  cases x <;> simp [ofOption]

@[simp] theorem ofOption_ne_trapped (x : Option α) (t : Trap) : ofOption x ≠ trapped t := by
  cases x <;> simp [ofOption]

/-- Whether a number is a signed one of so many bits. -/
def FitsIn (bits : Nat) (i : Int) : Prop :=
  -Int.ofNat (Nat.pow 2 (bits - 1)) ≤ i ∧ i < Int.ofNat (Nat.pow 2 (bits - 1))

instance (bits : Nat) (i : Int) : Decidable (FitsIn bits i) :=
  inferInstanceAs (Decidable (_ ∧ _))

theorem fitsIn_32_iff {i : Int} : FitsIn 32 i ↔ -2147483648 ≤ i ∧ i < 2147483648 := Iff.rfl

theorem fitsIn_64_iff {i : Int} :
    FitsIn 64 i ↔ -9223372036854775808 ≤ i ∧ i < 9223372036854775808 := Iff.rfl

/-- The result of an operation that refuses to leave the range of so many bits. -/
def narrowed (bits : Nat) (i : Int) : Attempt Int := if FitsIn bits i then done i else refused

@[simp] theorem narrowed_eq_done_iff {bits : Nat} {i j : Int} :
    narrowed bits i = done j ↔ FitsIn bits i ∧ i = j := by
  by_cases h : FitsIn bits i <;> simp [narrowed, h]

@[simp] theorem narrowed_ne_trapped (bits : Nat) (i : Int) (t : Trap) :
    narrowed bits i ≠ trapped t := by
  by_cases h : FitsIn bits i <;> simp [narrowed, h]

/-- The result of an operation that must not leave the range of so many bits. -/
def within (bits : Nat) (i : Int) : Attempt Int := if FitsIn bits i then done i else trapped .overflow

theorem within_of_fitsIn {bits : Nat} {i : Int} (h : FitsIn bits i) : within bits i = done i :=
  if_pos h

end Attempt

end ObjectTracking
