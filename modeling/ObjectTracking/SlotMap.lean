/-!
Values stored by slot. A map is known by what it holds at each slot.
-/
set_option autoImplicit false

namespace ObjectTracking

@[ext] structure SlotMap (α : Type) where
  get? : Nat → Option α

namespace SlotMap
variable {α : Type}

def empty : SlotMap α := ⟨fun _ => none⟩

instance : EmptyCollection (SlotMap α) := ⟨empty⟩

def contains (m : SlotMap α) (slot : Nat) : Bool := (m.get? slot).isSome

def insert (m : SlotMap α) (slot : Nat) (a : α) : SlotMap α :=
  ⟨fun s => if s = slot then some a else m.get? s⟩

def erase (m : SlotMap α) (slot : Nat) : SlotMap α :=
  ⟨fun s => if s = slot then none else m.get? s⟩

def map (f : α → α) (m : SlotMap α) : SlotMap α := ⟨fun s => (m.get? s).map f⟩

@[simp] theorem get?_empty (slot : Nat) : (∅ : SlotMap α).get? slot = none := rfl

@[simp] theorem get?_insert (m : SlotMap α) (slot s : Nat) (a : α) :
    (m.insert slot a).get? s = if s = slot then some a else m.get? s := rfl

@[simp] theorem get?_erase (m : SlotMap α) (slot s : Nat) :
    (m.erase slot).get? s = if s = slot then none else m.get? s := rfl

@[simp] theorem get?_map (f : α → α) (m : SlotMap α) (s : Nat) :
    (m.map f).get? s = (m.get? s).map f := rfl

/-- What holds of a value and of all others in a map holds of all once the value is in it. -/
theorem forall_insert {P : Nat → α → Prop} {m : SlotMap α} {slot : Nat} {a : α} (ha : P slot a)
    (h : ∀ s b, m.get? s = some b → P s b) : ∀ s b, (m.insert slot a).get? s = some b → P s b := by
  intro s b hb
  rw [get?_insert] at hb
  split at hb
  · rename_i hs
    rw [hs, ← Option.some.inj hb]
    exact ha
  · exact h s b hb

theorem forall_erase {P : Nat → α → Prop} {m : SlotMap α} {slot : Nat}
    (h : ∀ s b, m.get? s = some b → P s b) : ∀ s b, (m.erase slot).get? s = some b → P s b := by
  intro s b hb
  rw [get?_erase] at hb
  split at hb
  · cases hb
  · exact h s b hb

end SlotMap

end ObjectTracking
