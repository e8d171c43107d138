import ObjectTracking.Proofs.LocalCopy.Sound
import ObjectTracking.Proofs.Mail
import ObjectTracking.Proofs.ObjectType
import ObjectTracking.Proofs.Property
/-!
The core invariant of a copy: its values and its sets of slots tell one story, whatever was done to
it and whether or not that succeeded.

A load is the one operation that stores values one by one and may give up in between. What it keeps
at every element is that values are values, and stand in slots that the type has; the rest holds
again once it has settled the sets or cleared them.
-/
set_option autoImplicit false

namespace ObjectTracking
open Markup

namespace ObjectType
variable {t : ObjectType} {slot : Nat}

/-- A slot of the type. -/
def Knows (t : ObjectType) (slot : Nat) : Prop := ∃ q, t.property? slot = some q

/-- Whatever is created on read is a value. It is if every property that is created on read defaults
to a composite or a collection. -/
def CreatesValues (t : ObjectType) : Prop :=
  ∀ q ∈ t.properties, q.flags.contains .autoCreate = true → ∀ v, q.default? = some v →
    v.isNull = false

theorem isApplicable_iff {version : ProtocolVersion} : t.isApplicable version slot = true ↔
    ∃ q, t.property? slot = some q ∧ q.isApplicable version = true :=
  Option.any_eq_true _ _

theorem knows_of_isApplicable {version : ProtocolVersion}
    (h : t.isApplicable version slot = true) : t.Knows slot := by
  obtain ⟨q, hq, -⟩ := isApplicable_iff.mp h
  exact ⟨q, hq⟩

theorem isApplicable_of_requested {asked : PropertySet} {summary : Bool}
    {version : ProtocolVersion} (h : (t.requested asked summary version).contains slot = true) :
    t.isApplicable version slot = true := by
  rw [requested, SlotSet.contains_ofList, List.contains_iff_mem, List.mem_filter] at h
  exact h.2

end ObjectType

@[simp] theorem Value.isNull_attach (v : Value) (k : Link) : (v.attach k).isNull = v.isNull := by
  cases v <;> rfl

@[simp] theorem Value.isNull_copy (v : Value) : v.copy.isNull = v.isNull := by
  cases v <;> rfl

theorem Value.isNull_perform {cat : Catalog} {e : ValueEdit} {v : Value} {r : Edited Value Unit}
    (h : v.perform cat e = some r) : r.state.isNull = false := by
  cases e <;> cases v <;> cases h <;> rfl

theorem Shape.Takes.not_null {property : String} {shape : Shape} {v v' : Value}
    (h : shape.Takes property v v') : v'.isNull = false := by
  cases h <;> rfl

namespace LocalCopy
variable {cat : Catalog} {o o' : LocalCopy} {p q : Property} {slot : Nat} {v : Value}

/-- The values and the sets of a copy tell one story. -/
structure Core (o : LocalCopy) : Prop where
  /-- No slot was both assigned and deleted. -/
  disjoint : ∀ slot, o.assigned.contains slot = true → o.deleted.contains slot = false
  deleted : ∀ slot, o.deleted.contains slot = true → o.values.get? slot = none
  assigned : ∀ slot, o.assigned.contains slot = true → ∃ v, o.values.get? slot = some v
  touched : ∀ slot, o.touched.contains slot = true → ∃ v, o.values.get? slot = some v
  stored : ∀ slot v, o.values.get? slot = some v → v.isNull = false
  /-- Every slot that is spoken of is one of the type. -/
  known : ∀ slot, o.values.contains slot = true ∨ o.loaded.contains slot = true ∨
    o.assigned.contains slot = true ∨ o.deleted.contains slot = true ∨
      o.touched.contains slot = true → o.type.Knows slot
  new : o.isNew = true → o.loaded = ∅

/-- What is stored are values in slots of the type. -/
structure Stored (o : LocalCopy) : Prop where
  values : ∀ slot v, o.values.get? slot = some v → v.isNull = false ∧ o.type.Knows slot
  loaded : ∀ slot, o.loaded.contains slot = true → o.type.Knows slot
  deleted : ∀ slot, o.deleted.contains slot = true → o.type.Knows slot

theorem knows_of_resolve (h : o.resolve p = .ok (slot, q)) : o.type.Knows slot :=
  ⟨q, (resolve_eq_ok_iff.mp h).2.1⟩

theorem Stored.clear (o : LocalCopy) : Stored o.clear := by
  refine ⟨?_, ?_, ?_⟩ <;> simp [LocalCopy.clear]

theorem Stored.insert (h : Stored o) (hv : v.isNull = false) (hslot : o.type.Knows slot) :
    ∀ n w, (o.values.insert slot v).get? n = some w → w.isNull = false ∧ o.type.Knows n :=
  SlotMap.forall_insert ⟨hv, hslot⟩ h.values

theorem Stored.withDeleted (h : Stored o) (hslot : o.type.Knows slot) :
    Stored (o.withDeleted slot) := by
  refine ⟨SlotMap.forall_erase h.values, h.loaded, ?_⟩
  intro n hn
  simp only [LocalCopy.withDeleted, SlotSet.contains_insert, Bool.or_eq_true, beq_iff_eq] at hn
  rcases hn with rfl | hn
  · exact hslot
  · exact h.deleted n hn

theorem Stored.withAssigned (h : Stored o) (hv : v.isNull = false) (hslot : o.type.Knows slot) :
    Stored (o.withAssigned slot v) := by
  refine ⟨h.insert (by simpa using hv) hslot, h.loaded, ?_⟩
  intro n hn
  simp only [LocalCopy.withAssigned, SlotSet.contains_erase, Bool.and_eq_true] at hn
  exact h.deleted n hn.2

theorem Stored.instantiate (h : Stored o) (hd : o.type.CreatesValues)
    (hi : o.instantiate p = .ok (slot, q, o')) : Stored o' := by
  obtain ⟨hr, _, ⟨_, rfl⟩ | ⟨v, _, _, hv, hauto, rfl⟩⟩ := instantiate_eq_ok hi
  · exact h
  · have hflag : q.flags.contains .autoCreate = true := by
      rw [Property.has, Bool.and_eq_true] at hauto
      exact hauto.1
    have hnull := hd q (List.mem_of_getElem? (resolve_eq_ok_iff.mp hr).2.1) hflag v hv
    exact ⟨h.insert (by simpa using hnull) (knows_of_resolve hr), h.loaded, h.deleted⟩

theorem Stored.storeEdited (h : Stored o) {e : ValueEdit} {r : Edited Value Unit}
    (hslot : o.type.Knows slot) (hr : v.perform cat e = some r) :
    Stored (o.storeEdited slot r).state :=
  ⟨h.insert (Value.isNull_perform hr) hslot, h.loaded, h.deleted⟩

theorem Stored.markSaved (h : Stored o) (hs : Sound o) : Stored o.markSaved := by
  refine ⟨?_, ?_, ?_⟩
  · intro n w hw
    obtain ⟨v, hv, rfl⟩ := Option.map_eq_some_iff.mp hw
    obtain ⟨hnull, hknown⟩ := h.values n v hv
    exact ⟨by cases v <;> simp_all [settled, Value.isNull], hknown⟩
  · intro n hn
    simp only [LocalCopy.markSaved, SlotSet.contains_union, Bool.or_eq_true] at hn
    rcases hn with (hn | hn) | hn
    · exact h.loaded n hn
    · obtain ⟨v, hv⟩ := hs.assigned n hn
      exact (h.values n v hv).2
    · exact h.deleted n hn
  · simp [LocalCopy.markSaved]

section Load

theorem Stored.loadSlot (h : Stored o) (hslot : o.type.Knows slot) (q : Property) (tag : Tag)
    (content : Forest) : Stored (o.loadSlot cat slot q tag content).state := by
  obtain ⟨v, -, hstate⟩ := loadSlot_eq cat o slot q tag content
  rw [hstate]
  refine ⟨?_, ?_, h.deleted⟩
  · cases hnull : v.isNull with
    | true => exact SlotMap.forall_erase h.values
    | false => exact h.insert (by simpa using hnull) hslot
  · intro n hn
    simp only [SlotSet.contains_insert, Bool.or_eq_true, beq_iff_eq] at hn
    rcases hn with rfl | hn
    · exact hslot
    · exact h.loaded n hn

/-- A load clears the copy or settles its sets, wherever the elements have brought it. -/
theorem load_state (cat : Catalog) (o : LocalCopy) (content : Forest) (clearFirst : Bool)
    (asked : PropertySet) (summary : Bool) :
    ∃ w, w = (content.walk (loadElement cat) (o.loadStart clearFirst)).state ∧
      ((o.load cat content clearFirst asked summary).state = w.clear ∨
        (o.load cat content clearFirst asked summary).state =
          { w with
            loaded := w.loaded ∪ w.type.requested asked summary w.version
            assigned := ∅, deleted := ∅, touched := ∅, isNew := false }) := by
  refine ⟨_, rfl, ?_⟩
  cases h : (content.walk (loadElement cat) (o.loadStart clearFirst)).stop? with
  | some stop =>
    left
    have hsome : (content.walk (loadElement cat) (if clearFirst then o.clear else o)).stop? =
      some stop := h
    simp [LocalCopy.load, hsome, loadStart]
  | none =>
    right
    have hnone : (content.walk (loadElement cat) (if clearFirst then o.clear else o)).stop? =
      none := h
    simp [LocalCopy.load, hnone, loadStart]

/-- What holds of a cleared copy, and stays while slots are read that the version knows and when the
sets are settled in the end, stays through a load. -/
theorem load_induction {P : LocalCopy → Prop} (hclear : ∀ o : LocalCopy, P o.clear)
    (hslot : ∀ (o : LocalCopy) slot q tag content, o.type.property? slot = some q →
      q.isApplicable o.version = true → P o → P (loadSlot cat slot q tag content o).state)
    (hend : ∀ (o : LocalCopy) asked summary, P o → P { o with
      loaded := o.loaded ∪ o.type.requested asked summary o.version
      assigned := ∅, deleted := ∅, touched := ∅, isNew := false })
    (h : P o) (content : Forest) (clearFirst : Bool) (asked : PropertySet) (summary : Bool) :
    P (o.load cat content clearFirst asked summary).state := by
  have hentry : ∀ slots tag content (o : LocalCopy), P o →
      P (o.loadEntry cat slots tag content).state := by
    intro slots tag content o ho
    rcases loadEntry_eq cat o slots tag content with ⟨n, q, hq, happlicable, -, he⟩ | ⟨-, he⟩
    · rw [he]
      exact hslot o n q tag content hq happlicable ho
    · rw [he]
      exact ho
  have helement : ∀ tag content (o : LocalCopy), P o → P (o.loadElement cat tag content).state := by
    intro tag content o ho
    rcases loadElement_eq cat o tag content with
      ⟨n, q, hq, happlicable, -, he⟩ | ⟨slots, -, he⟩ | ⟨-, he⟩
    · rw [he]
      exact hslot o n q tag content hq happlicable ho
    · rw [he]
      exact Forest.walk_induction ho fun x _ => hentry slots x.1 x.2
    · rw [he]
      exact ho
  have hstart : P (o.loadStart clearFirst) := by
    cases clearFirst with
    | true => exact hclear o
    | false => exact h
  obtain ⟨w, hw, hstate | hstate⟩ := load_state cat o content clearFirst asked summary
  · rw [hstate]
    exact hclear w
  · have hread : P w := by
      rw [hw]
      exact Forest.walk_induction hstart fun x _ => helement x.1 x.2
    rw [hstate]
    exact hend w asked summary hread

theorem Stored.load (h : Stored o) (content : Forest) (clearFirst : Bool) (asked : PropertySet)
    (summary : Bool) : Stored (o.load cat content clearFirst asked summary).state := by
  refine load_induction (P := Stored) .clear ?_ ?_ h content clearFirst asked summary
  · intro o slot q tag content hq _ ho
    exact ho.loadSlot ⟨q, hq⟩ q tag content
  · intro o asked summary ho
    refine ⟨ho.values, ?_, by simp⟩
    intro n hn
    simp only [SlotSet.contains_union, Bool.or_eq_true] at hn
    rcases hn with hn | hn
    · exact ho.loaded n hn
    · exact ObjectType.knows_of_isApplicable (ObjectType.isApplicable_of_requested hn)

end Load

theorem Outcome.stored {op : Operation} {event : Option Event} (ho : Outcome cat o op event o')
    (hd : o.type.CreatesValues) (hs : Sound o) (h : Stored o) : Stored o' := by
  cases ho with
  | failed => exact h
  | deleted _ _ hr => exact h.withDeleted (knows_of_resolve hr)
  | assigned hv hr _ hn =>
    exact h.withAssigned (Property.normalise_takes hv hn).not_null (knows_of_resolve hr)
  | refused hi => exact h.instantiate hd hi
  | edited hi hv hp =>
    have hreached := h.instantiate hd hi
    exact hreached.storeEdited (hreached.values _ _ hv).2 hp
  | cleared => exact .clear o
  | loaded content clearFirst asked summary => exact h.load content clearFirst asked summary
  | saved => exact h.markSaved hs

def Unloaded (o : LocalCopy) : Prop := o.isNew = true → o.loaded = ∅

theorem Outcome.unloaded {op : Operation} {event : Option Event} (ho : Outcome cat o op event o')
    (h : Unloaded o) : Unloaded o' := by
  have hreached : ∀ {p q slot o'}, o.instantiate p = .ok (slot, q, o') → Unloaded o' := by
    intro p q slot o' hi
    obtain ⟨-, -, ⟨-, rfl⟩ | ⟨v, -, -, -, -, rfl⟩⟩ := instantiate_eq_ok hi
    · exact h
    · exact h
  cases ho with
  | failed => exact h
  | deleted => exact h
  | assigned => exact h
  | refused hi => exact hreached hi
  | edited hi =>
    have hu := hreached hi
    exact hu
  | cleared => exact fun _ => rfl
  | loaded content clearFirst asked summary =>
    obtain ⟨w, -, hstate | hstate⟩ := load_state cat o content clearFirst asked summary
    · rw [hstate]
      exact fun _ => rfl
    · rw [hstate]
      exact fun hnew => by cases hnew
  | saved => exact fun hnew => by cases hnew

theorem Stored.run {ops : List Operation} (h : Stored o) (hd : o.type.CreatesValues)
    (hs : Sound o) : Stored (o.run cat ops) := by
  refine (run_induction cat (P := fun o' => (Sound o' ∧ o'.type = o.type) ∧ Stored o')
    ⟨⟨hs, rfl⟩, h⟩ ?_).2
  rintro o' op - ⟨⟨hs', htype⟩, h'⟩
  have ho := perform_outcome cat o' op
  exact ⟨⟨ho.sound hs', ho.same.2.1.trans htype⟩, ho.stored (htype ▸ hd) hs' h'⟩

theorem Unloaded.run (h : Unloaded o) (ops : List Operation) : Unloaded (o.run cat ops) :=
  run_induction cat h fun o op _ h => (perform_outcome cat o op).unloaded h

theorem Sound.core (hs : Sound o) (h : Stored o) (hu : Unloaded o) : Core o := by
  have hheld : ∀ slot, (∃ v, o.values.get? slot = some v) → o.type.Knows slot := by
    rintro slot ⟨v, hv⟩
    exact (h.values slot v hv).2
  refine ⟨?_, hs.deleted, hs.assigned, hs.touched, fun slot v hv => (h.values slot v hv).1, ?_, hu⟩
  · intro slot hassigned
    obtain ⟨v, hv⟩ := hs.assigned slot hassigned
    cases hdeleted : o.deleted.contains slot with
    | false => rfl
    | true =>
      rw [hs.deleted slot hdeleted] at hv
      cases hv
  · rintro slot (hv | hl | ha | hd | ht)
    · exact hheld slot (Option.isSome_iff_exists.mp hv)
    · exact h.loaded slot hl
    · exact hheld slot (hs.assigned slot ha)
    · exact h.deleted slot hd
    · exact hheld slot (hs.touched slot ht)

/-- In every run from a new copy, whatever in it succeeds or fails, values and sets tell one
story. -/
theorem core_run (cat : Catalog) (id : Nat) (type : ObjectType) (session : Session)
    (hd : type.CreatesValues) (ops : List Operation) :
    Core ((new id type session).run cat ops) :=
  ((Sound.new id type session).run ops).core
    (Stored.run (Stored.clear (new id type session)) hd (.new id type session))
    (Unloaded.run (fun _ => rfl) ops)

theorem mail_createsValues {type : ObjectType} (ht : type ∈ Mail.types) : type.CreatesValues := by
  have hall : (Mail.types.all fun t => t.properties.all fun q =>
      q.default?.all fun v => !v.isNull) = true := by decide
  intro q hq _ v hv
  have h := List.all_eq_true.mp (List.all_eq_true.mp hall type ht) q hq
  simpa [hv] using h

/-- The document of a meeting breaks off. It is loaded again, everybody invited is taken off the list,
the subject is deleted and a location is given. -/
def relocated : List Operation :=
  [.load (.element ⟨some .types, "Subject", []⟩ (.text "Planning" .closed) .cut) true {} false,
    .load (Mail.meeting ["Accept", "Decline"]) true {} false,
    .edit Mail.Calendar.requiredAttendees (.collection .clear), .delete Mail.Item.subject,
    .set Mail.Calendar.location (.scalar (.text "Upstairs"))]

theorem relocated_core : Mail.Calendar.type.CreatesValues ∧
    Core ((new 0 Mail.Calendar.type Mail.session).run (Mail.catalog []) relocated) :=
  have hd : Mail.Calendar.type.CreatesValues := mail_createsValues (by simp [Mail.types])
  ⟨hd, core_run (Mail.catalog []) 0 Mail.Calendar.type Mail.session hd relocated⟩

end LocalCopy

end ObjectTracking
