/-!
Values stored by key. A map is known by what it holds for each key.
-/
set_option autoImplicit false

namespace ObjectTracking

/-- At most one value for each key. -/
structure KeyMap (κ α : Type) where
  get? : κ → Option α

namespace KeyMap
variable {κ α : Type} [DecidableEq κ]

instance : EmptyCollection (KeyMap κ α) := ⟨⟨fun _ => none⟩⟩

def insert (m : KeyMap κ α) (key : κ) (a : α) : KeyMap κ α :=
  ⟨fun k => if k = key then some a else m.get? k⟩

omit [DecidableEq κ] in
@[simp] theorem get?_empty (key : κ) : (∅ : KeyMap κ α).get? key = none := rfl

@[simp] theorem get?_insert (m : KeyMap κ α) (key k : κ) (a : α) :
    (m.insert key a).get? k = if k = key then some a else m.get? k := rfl

end KeyMap

end ObjectTracking
