import ObjectTracking.Proofs.LocalCopy.Run
/-!
A copy slot by slot. What a copy notes of one slot is a cell; a change of one cell leaves the others
alone, and changes of different cells may come in either order.
-/
set_option autoImplicit false

namespace ObjectTracking
open Markup

def SlotSet.put (s : SlotSet) (slot : Nat) (member : Bool) : SlotSet :=
  if member then s.insert slot else s.erase slot

@[simp] theorem SlotSet.contains_put (s : SlotSet) (slot n : Nat) (member : Bool) :
    (s.put slot member).contains n = if n = slot then member else s.contains n := by
  unfold put
  cases member with
  | false => by_cases h : n = slot <;> simp [h]
  | true => by_cases h : n = slot <;> simp [h]

def SlotMap.put {α : Type} (m : SlotMap α) (slot : Nat) : Option α → SlotMap α
  | none => m.erase slot
  | some a => m.insert slot a

@[simp] theorem SlotMap.get?_put {α : Type} (m : SlotMap α) (slot n : Nat) (a? : Option α) :
    (m.put slot a?).get? n = if n = slot then a? else m.get? n := by
  cases a? <;> rfl

/-- What a copy notes of a slot. -/
structure Cell where
  value? : Option Value
  loaded : Bool
  assigned : Bool
  deleted : Bool
  touched : Bool

namespace LocalCopy
variable {cat : Catalog} {o o' : LocalCopy} {p q : Property} {m n slot : Nat} {c d : Cell}

def cell (o : LocalCopy) (slot : Nat) : Cell :=
  ⟨o.values.get? slot, o.loaded.contains slot, o.assigned.contains slot, o.deleted.contains slot,
    o.touched.contains slot⟩

def put (o : LocalCopy) (slot : Nat) (c : Cell) : LocalCopy :=
  { o with
    values := o.values.put slot c.value?
    loaded := o.loaded.put slot c.loaded
    assigned := o.assigned.put slot c.assigned
    deleted := o.deleted.put slot c.deleted
    touched := o.touched.put slot c.touched }

@[simp] theorem id_put : (o.put n c).id = o.id := rfl
@[simp] theorem type_put : (o.put n c).type = o.type := rfl
@[simp] theorem session_put : (o.put n c).session = o.session := rfl
@[simp] theorem version_put : (o.put n c).version = o.version := rfl
@[simp] theorem isNew_put : (o.put n c).isNew = o.isNew := rfl
@[simp] theorem link_put : (o.put n c).link slot = o.link slot := rfl

theorem cell_put (o : LocalCopy) (n m : Nat) (c : Cell) :
    (o.put n c).cell m = if m = n then c else o.cell m := by
  by_cases h : m = n <;> simp [cell, put, h]

@[simp] theorem cell_put_self (o : LocalCopy) (n : Nat) (c : Cell) : (o.put n c).cell n = c := by
  simp [cell_put]

theorem cell_put_of_ne (h : m ≠ n) : (o.put n c).cell m = o.cell m := by
  simp [cell_put, h]

structure SameFrame (o o' : LocalCopy) : Prop where
  id : o'.id = o.id
  type : o'.type = o.type
  session : o'.session = o.session
  isNew : o'.isNew = o.isNew
  watched : o'.watched = o.watched

theorem eq_of_cells (h : SameFrame o o') (hcells : ∀ n, o'.cell n = o.cell n) : o' = o := by
  obtain ⟨hid, htype, hsession, hnew, hwatched⟩ := h
  have hvalues : o'.values = o.values :=
    SlotMap.ext (funext fun n => congrArg Cell.value? (hcells n))
  have hloaded := SlotSet.eq_of_contains fun n => congrArg Cell.loaded (hcells n)
  have hassigned := SlotSet.eq_of_contains fun n => congrArg Cell.assigned (hcells n)
  have hdeleted := SlotSet.eq_of_contains fun n => congrArg Cell.deleted (hcells n)
  have htouched := SlotSet.eq_of_contains fun n => congrArg Cell.touched (hcells n)
  cases o
  cases o'
  simp_all

theorem put_comm (h : m ≠ n) (o : LocalCopy) (c d : Cell) :
    (o.put m c).put n d = (o.put n d).put m c := by
  refine eq_of_cells ⟨rfl, rfl, rfl, rfl, rfl⟩ ?_
  intro k
  simp only [cell_put]
  by_cases hm : k = m
  · have hn : k ≠ n := fun hn => h (hm.symm.trans hn)
    simp [hm, h]
  · simp [hm]

@[simp] theorem put_put (o : LocalCopy) (n : Nat) (c d : Cell) : (o.put n c).put n d = o.put n d := by
  refine eq_of_cells ⟨rfl, rfl, rfl, rfl, rfl⟩ ?_
  intro k
  simp only [cell_put]
  split <;> rfl

theorem put_cell (o : LocalCopy) (n : Nat) : o.put n (o.cell n) = o := by
  refine eq_of_cells ⟨rfl, rfl, rfl, rfl, rfl⟩ ?_
  intro k
  rw [cell_put]
  split
  · rename_i h
    rw [h]
  · rfl

theorem eq_put_of_cells {f : Cell → Cell} (h : SameFrame o o')
    (hcells : ∀ n, o'.cell n = if n = slot then f (o.cell n) else o.cell n) :
    o' = o.put slot (f (o.cell slot)) := by
  refine eq_of_cells ⟨h.id, h.type, h.session, h.isNew, h.watched⟩ ?_
  intro n
  rw [hcells, cell_put]
  split
  · rename_i hn
    rw [hn]
  · rfl

theorem created_eq_put (o : LocalCopy) (slot : Nat) (v : Value) : o.created slot v =
    o.put slot { o.cell slot with value? := some (v.copy.attach (o.link slot)) } := by
  refine eq_put_of_cells (f := fun c => { c with value? := _ }) ⟨rfl, rfl, rfl, rfl, rfl⟩ ?_
  intro n
  by_cases h : n = slot <;> simp [cell, created, h]

theorem withDeleted_eq_put (o : LocalCopy) (slot : Nat) : o.withDeleted slot =
    o.put slot ⟨none, (o.cell slot).loaded, false, true, false⟩ := by
  refine eq_put_of_cells (f := fun c => ⟨none, c.loaded, false, true, false⟩)
    ⟨rfl, rfl, rfl, rfl, rfl⟩ ?_
  intro n
  by_cases h : n = slot <;> simp [cell, withDeleted, h]

theorem withAssigned_eq_put (o : LocalCopy) (slot : Nat) (v : Value) : o.withAssigned slot v =
    o.put slot { o.cell slot with
      value? := some (v.attach (o.link slot)), assigned := true, deleted := false } := by
  refine eq_put_of_cells (f := fun c => { c with value? := _, assigned := true, deleted := false })
    ⟨rfl, rfl, rfl, rfl, rfl⟩ ?_
  intro n
  by_cases h : n = slot <;> simp [cell, withAssigned, h]

end LocalCopy

end ObjectTracking
