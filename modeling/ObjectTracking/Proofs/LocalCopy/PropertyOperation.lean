import ObjectTracking.Proofs.LocalCopy.Cell
import ObjectTracking.Proofs.LocalCopy.Needed
/-!
Operations on one property: it is assigned or deleted, or its value is changed in place in whatever
way. Each of them reads and writes the cell of the property's slot and no other.
-/
set_option autoImplicit false

namespace ObjectTracking

/-- An operation on one property. A value is changed in place by any edit that gives it no links but
its own and reports through no others. -/
inductive PropertyOperation (α : Type) where
  | set (p : Property) (v : Value)
  | delete (p : Property)
  | composite (p : Property) (edit : Composite → Edited Composite α)
      (own : ∀ c, (edit c).Own Composite.links c)
  | collection (p : Property) (edit : Collection → Edited Collection α)
      (own : ∀ c, (edit c).Own Collection.links c)

namespace PropertyOperation
variable {α : Type}

def property : PropertyOperation α → Property
  | set p _ => p
  | delete p => p
  | composite p _ _ => p
  | collection p _ _ => p

end PropertyOperation

namespace LocalCopy
variable {α : Type} {o o' : LocalCopy} {p q : Property} {m n slot : Nat} {c : Cell}

def apply (o : LocalCopy) : PropertyOperation α → Edited LocalCopy (Option α)
  | .set p v => (o.set p v).map fun _ => none
  | .delete p => (o.delete p).map fun _ => none
  | .composite p edit _ => (o.editComposite p edit).map some
  | .collection p edit _ => (o.editCollection p edit).map some

section Put

theorem put_created (h : m ≠ slot) (o : LocalCopy) (c : Cell) (v : Value) :
    (o.put m c).created slot v = (o.created slot v).put m c := by
  rw [created_eq_put, created_eq_put, cell_put_of_ne (Ne.symm h), put_comm h]
  rfl

theorem put_withDeleted (h : m ≠ slot) (o : LocalCopy) (c : Cell) :
    (o.put m c).withDeleted slot = (o.withDeleted slot).put m c := by
  rw [withDeleted_eq_put, withDeleted_eq_put, cell_put_of_ne (Ne.symm h), put_comm h]

theorem put_withAssigned (h : m ≠ slot) (o : LocalCopy) (c : Cell) (v : Value) :
    (o.put m c).withAssigned slot v = (o.withAssigned slot v).put m c := by
  rw [withAssigned_eq_put, withAssigned_eq_put, cell_put_of_ne (Ne.symm h), put_comm h]
  rfl

theorem storeEdited_eq_put {r : Edited Value α} (hown : ∀ l ∈ r.signals, l = o.link slot) :
    (o.storeEdited slot r).state = o.put slot { o.cell slot with
      value? := some r.state, touched := o.touched.contains slot || !r.signals.isEmpty } := by
  refine eq_put_of_cells (f := fun c => { c with
    value? := some r.state, touched := c.touched || !r.signals.isEmpty }) ⟨rfl, rfl, rfl, rfl, rfl⟩ ?_
  intro n
  have hloaded : (o.storeEdited slot r).state.loaded = o.loaded := rfl
  have htouched : (o.storeEdited slot r).state.touched.contains n =
      if n = slot then o.touched.contains n || !r.signals.isEmpty else o.touched.contains n := by
    rw [Bool.eq_iff_iff, touched_storeEdited hown]
    by_cases h : n = slot <;> simp [h]
  rcases eq_or_ne n slot with rfl | h
  · simp [cell, hloaded, htouched]
  · simp [cell, hloaded, htouched, h]

theorem put_storeEdited (h : m ≠ slot) {r : Edited Value α}
    (hown : ∀ l ∈ r.signals, l = o.link slot) (c : Cell) :
    (o.put m c).storeEdited slot r = (o.storeEdited slot r).within [] (·.put m c) := by
  have hstate : ((o.put m c).storeEdited slot r).state = (o.storeEdited slot r).state.put m c := by
    rw [storeEdited_eq_put (o := o.put m c) hown, storeEdited_eq_put hown,
      cell_put_of_ne (Ne.symm h), put_comm h]
    simp [put, Ne.symm h]
  exact congrArg (Edited.mk r.result · r.signals) hstate

theorem read_put (h : slot ≠ m) (q : Property) : (o.put m c).read slot q = o.read slot q := by
  simp [read, put, h]

theorem get_put (h : o.type.slotOf? p ≠ some m) : (o.put m c).get p = o.get p := by
  have hresolve : (o.put m c).resolve p = o.resolve p := rfl
  unfold get
  rw [hresolve]
  cases hr : o.resolve p with
  | error e => rfl
  | ok r =>
    obtain ⟨slot, q⟩ := r
    have hslot : slot ≠ m := by
      rintro rfl
      exact h (resolve_eq_ok_iff.mp hr).1
    exact read_put hslot q

theorem instantiate_put (h : o.type.slotOf? p ≠ some m) : (o.put m c).instantiate p =
    (o.instantiate p).map fun r => (r.1, r.2.1, r.2.2.put m c) := by
  have hresolve : (o.put m c).resolve p = o.resolve p := rfl
  have hmutable : ∀ q, (o.put m c).checkMutable q = o.checkMutable q := fun _ => rfl
  unfold instantiate
  rw [hresolve]
  cases hr : o.resolve p with
  | error e => rfl
  | ok r =>
    obtain ⟨slot, q⟩ := r
    obtain ⟨hfound, hq, -⟩ := resolve_eq_ok_iff.mp hr
    have hslot : slot ≠ m := by
      rintro rfl
      exact h hfound
    have hget : (o.put m c).get q = o.get q := by
      apply get_put
      rw [ObjectType.slotOf?_property hfound hq, ← hfound]
      exact h
    have hheld : (o.put m c).values.contains slot = o.values.contains slot := by
      simp [put, SlotMap.contains, hslot]
    have hdeleted : (o.put m c).deleted.contains slot = o.deleted.contains slot := by
      simp [put, hslot]
    simp only [bind, Except.bind, hmutable, hget, hheld, hdeleted, version_put, link_put]
    cases o.checkMutable q with
    | error e => rfl
    | ok u =>
      dsimp only
      cases o.values.contains slot with
      | true => rfl
      | false =>
        cases q.default? with
        | none =>
          dsimp only
          cases o.get q <;> rfl
        | some v =>
          cases q.has .autoCreate o.version && !o.deleted.contains slot with
          | true => exact congrArg (fun o' => Except.ok (slot, q, o')) (put_created (Ne.symm hslot) o c v)
          | false =>
            dsimp only
            cases o.get q <;> rfl

theorem delete_put (h : o.type.slotOf? p ≠ some m) :
    (o.put m c).delete p = (o.delete p).within [] (·.put m c) := by
  have hresolve : (o.put m c).resolve p = o.resolve p := rfl
  unfold delete
  rw [hresolve]
  cases hr : o.resolve p with
  | error e => rfl
  | ok r =>
    obtain ⟨slot, q⟩ := r
    have hslot : m ≠ slot := by
      rintro rfl
      exact h (resolve_eq_ok_iff.mp hr).1
    dsimp only
    by_cases hn : q.nullable = true
    · by_cases hd : q.has .deletable o.version = true
      · simp only [hn, hd, version_put, Bool.not_true, Bool.false_eq_true, if_false]
        exact congrArg (Edited.done () · (o.link slot)) (put_withDeleted hslot o c)
      · simp only [hn, hd, version_put, Bool.not_true, Bool.false_eq_true, if_false, Bool.not_false,
          if_true]
        rfl
    · simp only [hn, Bool.not_false, if_true]
      rfl

theorem set_put (h : o.type.slotOf? p ≠ some m) (v : Value) :
    (o.put m c).set p v = (o.set p v).within [] (·.put m c) := by
  have hresolve : (o.put m c).resolve p = o.resolve p := rfl
  unfold set
  rw [hresolve, delete_put h]
  split
  · rfl
  · cases hr : o.resolve p with
    | error e => rfl
    | ok r =>
      obtain ⟨slot, q⟩ := r
      have hslot : m ≠ slot := by
        rintro rfl
        exact h (resolve_eq_ok_iff.mp hr).1
      have hmutable : (o.put m c).checkMutable q = o.checkMutable q := rfl
      simp only [hmutable]
      cases o.checkMutable q with
      | error e => rfl
      | ok u =>
        cases q.normalise v with
        | error e => rfl
        | ok v => exact congrArg (Edited.done () · (o.link slot)) (put_withAssigned hslot o c v)

end Put

def editValue (o : LocalCopy) (p : Property) (edit : Value → Option (Edited Value α)) :
    Edited LocalCopy α :=
  match o.instantiate p with
  | .error e => .failed e o
  | .ok (slot, q, o) =>
    match (o.values.get? slot).bind edit with
    | some r => o.storeEdited slot r
    | none => .failed (.typeMismatch q.name) o

theorem editComposite_eq_editValue (o : LocalCopy) (p : Property)
    (edit : Composite → Edited Composite α) : o.editComposite p edit =
      o.editValue p fun v => v.composite?.map fun c => (edit c).within [] .composite := by
  unfold editComposite editValue
  cases o.instantiate p with
  | error e => rfl
  | ok r =>
    obtain ⟨slot, q, o'⟩ := r
    dsimp only
    cases o'.values.get? slot with
    | none => rfl
    | some v => cases v <;> rfl

theorem editCollection_eq_editValue (o : LocalCopy) (p : Property)
    (edit : Collection → Edited Collection α) : o.editCollection p edit =
      o.editValue p fun v => v.collection?.map fun c => (edit c).within [] .collection := by
  unfold editCollection editValue
  cases o.instantiate p with
  | error e => rfl
  | ok r =>
    obtain ⟨slot, q, o'⟩ := r
    dsimp only
    cases o'.values.get? slot with
    | none => rfl
    | some v => cases v <;> rfl

theorem Tied.own_signals (h : Tied o) {edit : Value → Option (Edited Value α)}
    (hown : ∀ v r, edit v = some r → r.Own Value.links v) {r : Edited Value α}
    (hr : (o.values.get? slot).bind edit = some r) : ∀ l ∈ r.signals, l = o.link slot := by
  obtain ⟨v, hv, hr⟩ := Option.bind_eq_some_iff.mp hr
  intro l hl
  exact h slot v hv l ((hown v r hr).signals hl)

theorem editValue_put (htied : Tied o) {edit : Value → Option (Edited Value α)}
    (hown : ∀ v r, edit v = some r → r.Own Value.links v) (h : o.type.slotOf? p ≠ some m) :
    (o.put m c).editValue p edit = (o.editValue p edit).within [] (·.put m c) := by
  unfold editValue
  rw [instantiate_put h]
  cases hi : o.instantiate p with
  | error e => rfl
  | ok r =>
    obtain ⟨slot, q, o'⟩ := r
    have hslot : m ≠ slot := by
      rintro rfl
      exact h (resolve_eq_ok_iff.mp (instantiate_eq_ok hi).1).1
    have hheld : (o'.put m c).values.get? slot = o'.values.get? slot := by
      simp [put, Ne.symm hslot]
    simp only [Except.map, hheld]
    cases hr : (o'.values.get? slot).bind edit with
    | none => rfl
    | some r => exact put_storeEdited hslot ((htied.instantiate hi).own_signals hown hr) c

theorem instantiate_writes (hi : o.instantiate p = .ok (slot, q, o')) : ∃ c, o' = o.put slot c := by
  obtain ⟨-, -, ⟨-, rfl⟩ | ⟨v, -, -, -, -, rfl⟩⟩ := instantiate_eq_ok hi
  · exact ⟨o'.cell slot, (put_cell o' slot).symm⟩
  · exact ⟨_, created_eq_put o slot v⟩

/-- An operation writes the cell of the slot of its property, if it writes at all. -/
def WritesOnly (o : LocalCopy) (p : Property) (o' : LocalCopy) : Prop :=
  o' = o ∨ ∃ slot c, o.type.slotOf? p = some slot ∧ o' = o.put slot c

theorem editValue_writesOnly (htied : Tied o) {edit : Value → Option (Edited Value α)}
    (hown : ∀ v r, edit v = some r → r.Own Value.links v) :
    o.WritesOnly p (o.editValue p edit).state := by
  unfold editValue
  cases hi : o.instantiate p with
  | error e => exact .inl rfl
  | ok r =>
    obtain ⟨slot, q, o'⟩ := r
    have hslot : o.type.slotOf? p = some slot := (resolve_eq_ok_iff.mp (instantiate_eq_ok hi).1).1
    obtain ⟨c, hc⟩ := instantiate_writes hi
    dsimp only
    cases hr : (o'.values.get? slot).bind edit with
    | none => exact .inr ⟨slot, c, hslot, hc⟩
    | some r =>
      have hstored := storeEdited_eq_put ((htied.instantiate hi).own_signals hown hr)
      subst hc
      exact .inr ⟨slot, _, hslot, hstored.trans (put_put o slot c _)⟩

theorem delete_writesOnly (o : LocalCopy) (p : Property) : o.WritesOnly p (o.delete p).state := by
  rcases delete_eq o p with ⟨e, h⟩ | ⟨slot, q, hr, -, -, h⟩
  · rw [h]
    exact .inl rfl
  · rw [h]
    exact .inr ⟨slot, _, (resolve_eq_ok_iff.mp hr).1, withDeleted_eq_put o slot⟩

theorem set_writesOnly (o : LocalCopy) (p : Property) (v : Value) :
    o.WritesOnly p (o.set p v).state := by
  cases hv : v.isNull with
  | true =>
    have hset : o.set p v = o.delete p := by simp [set, hv]
    rw [hset]
    exact delete_writesOnly o p
  | false =>
    rcases set_eq o p hv with ⟨e, h⟩ | ⟨slot, q, v', hr, -, -, h⟩
    · rw [h]
      exact .inl rfl
    · rw [h]
      exact .inr ⟨slot, _, (resolve_eq_ok_iff.mp hr).1, withAssigned_eq_put o slot v'⟩

section Apply
variable {op : PropertyOperation α}

theorem own_composite {edit : Composite → Edited Composite α}
    (hown : ∀ c, (edit c).Own Composite.links c) (v : Value) (r : Edited Value α)
    (hr : (v.composite?.map fun c => (edit c).within [] Value.composite) = some r) :
    r.Own Value.links v := by
  cases v with
  | composite c =>
    obtain rfl := Option.some.inj hr
    exact ⟨(hown c).state, (hown c).signals⟩
  | _ => cases hr

theorem own_collection {edit : Collection → Edited Collection α}
    (hown : ∀ c, (edit c).Own Collection.links c) (v : Value) (r : Edited Value α)
    (hr : (v.collection?.map fun c => (edit c).within [] Value.collection) = some r) :
    r.Own Value.links v := by
  cases v with
  | collection c =>
    obtain rfl := Option.some.inj hr
    exact ⟨(hown c).state, (hown c).signals⟩
  | _ => cases hr

/-- An operation gives and does the same whatever is in the cells of other properties. -/
theorem apply_put (htied : Tied o) (h : o.type.slotOf? op.property ≠ some m) (c : Cell) :
    (o.put m c).apply op = (o.apply op).within [] (·.put m c) := by
  cases op with
  | set p v => exact congrArg (Edited.map fun _ => none) (set_put h v)
  | delete p => exact congrArg (Edited.map fun _ => none) (delete_put h)
  | composite p edit hown =>
    have hedit : (o.put m c).editComposite p edit = (o.editComposite p edit).within [] (·.put m c) := by
      rw [editComposite_eq_editValue, editComposite_eq_editValue]
      exact editValue_put htied (own_composite hown) h
    exact congrArg (Edited.map some) hedit
  | collection p edit hown =>
    have hedit : (o.put m c).editCollection p edit =
        (o.editCollection p edit).within [] (·.put m c) := by
      rw [editCollection_eq_editValue, editCollection_eq_editValue]
      exact editValue_put htied (own_collection hown) h
    exact congrArg (Edited.map some) hedit

theorem apply_writesOnly (htied : Tied o) (op : PropertyOperation α) :
    o.WritesOnly op.property (o.apply op).state := by
  cases op with
  | set p v => exact set_writesOnly o p v
  | delete p => exact delete_writesOnly o p
  | composite p edit hown =>
    change o.WritesOnly p (o.editComposite p edit).state
    rw [editComposite_eq_editValue]
    exact editValue_writesOnly htied (own_composite hown)
  | collection p edit hown =>
    change o.WritesOnly p (o.editCollection p edit).state
    rw [editCollection_eq_editValue]
    exact editValue_writesOnly htied (own_collection hown)

theorem Tied.apply (cat : Catalog) (h : Tied o) (op : PropertyOperation α) :
    Tied (o.apply op).state := by
  cases op with
  | set p v => exact (perform_outcome cat o (.set p v)).tied h
  | delete p => exact (perform_outcome cat o (.delete p)).tied h
  | composite p edit hown => exact h.inPlace (editComposite_inPlace o p hown)
  | collection p edit hown => exact h.inPlace (editCollection_inPlace o p hown)

end Apply

end LocalCopy

end ObjectTracking
