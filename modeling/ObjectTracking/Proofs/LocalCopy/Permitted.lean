import ObjectTracking.Proofs.LocalCopy.Sound
import ObjectTracking.Proofs.Mail
import ObjectTracking.Proofs.ObjectType
/-!
What a copy asks of the server, and what the flags of its properties permit. The flags are checked
when a property is changed; the operations are chosen later, from what the changes have left. They
stay within the flags but for one case: a collection that has lost all its items is sent as a
deletion, and nobody has checked that its property may be deleted.
-/
set_option autoImplicit false

namespace ObjectTracking

namespace LocalCopy
variable {cat : Catalog} {o o' : LocalCopy} {p q : Property} {slot : Nat}

/-- What a copy of an object that the server has may ask for. A deletion is one that the copy itself
would accept. -/
def Permits (o : LocalCopy) : UpdateOp → Prop
  | .set q _ | .setItem q _ _ | .deleteItem q _ =>
    q.has .settable o.version = true ∧ q.has .updatable o.version = true
  | .append q _ =>
    q.has .settable o.version = true ∧ q.has .updatable o.version = true ∧
      q.has .appendable o.version = true
  | .delete q =>
    q.nullable = true ∧ q.has .deletable o.version = true ∧ (o.delete q).result = .ok ()

/-- A slot holds a collection without items that is to be sent whole. -/
def Emptied (o : LocalCopy) (slot : Nat) (q : Property) : Prop :=
  ∃ c, o.values.get? slot = some (.collection c) ∧ c.entries = [] ∧
    (o.assigned.contains slot = true ∨
      o.touched.contains slot = true ∧ o.sendsItems q c = false)

/-- Every change was checked when it was made. -/
structure Checked (o : LocalCopy) : Prop where
  changed : ∀ slot, o.assigned.contains slot = true ∨ o.touched.contains slot = true →
    ∃ q, o.resolve q = .ok (slot, q) ∧ o.checkMutable q = .ok ()
  deleted : ∀ slot, o.deleted.contains slot = true →
    ∃ q, o.resolve q = .ok (slot, q) ∧ q.nullable = true ∧ q.has .deletable o.version = true

/-- The property of a slot is found there by itself. -/
theorem resolve_self (h : o.resolve p = .ok (slot, q)) : o.resolve q = .ok (slot, q) := by
  obtain ⟨hslot, hq, happlicable⟩ := resolve_eq_ok_iff.mp h
  exact resolve_eq_ok_iff.mpr ⟨ObjectType.slotOf?_property hslot hq, hq, happlicable⟩

theorem checkMutable_eq_ok_iff : o.checkMutable q = .ok () ↔
    q.has .settable o.version = true ∧ (o.isNew = false → q.has .updatable o.version = true) := by
  unfold checkMutable
  cases q.has .settable o.version <;> cases o.isNew <;> cases q.has .updatable o.version <;> simp

theorem delete_isOk (h : o.resolve q = .ok (slot, q)) (hnullable : q.nullable = true)
    (hdeletable : q.has .deletable o.version = true) : (o.delete q).result = .ok () := by
  simp [delete, h, hnullable, hdeletable, Edited.done]

theorem Checked.of_clean (ha : o.assigned = ∅) (hd : o.deleted = ∅) (ht : o.touched = ∅) :
    Checked o := by
  refine ⟨?_, ?_⟩
  · simp [ha, ht]
  · simp [hd]

theorem Checked.withDeleted (h : Checked o) (hr : o.resolve p = .ok (slot, q))
    (hnullable : q.nullable = true) (hdeletable : q.has .deletable o.version = true) :
    Checked (o.withDeleted slot) := by
  refine ⟨?_, ?_⟩
  · intro n hn
    simp only [LocalCopy.withDeleted, SlotSet.contains_erase, Bool.and_eq_true] at hn
    exact h.changed n (hn.imp And.right And.right)
  · intro n hn
    simp only [LocalCopy.withDeleted, SlotSet.contains_insert, Bool.or_eq_true, beq_iff_eq] at hn
    rcases hn with rfl | hn
    · exact ⟨q, resolve_self hr, hnullable, hdeletable⟩
    · exact h.deleted n hn

theorem Checked.withAssigned (h : Checked o) (hr : o.resolve p = .ok (slot, q))
    (hm : o.checkMutable q = .ok ()) (v : Value) : Checked (o.withAssigned slot v) := by
  refine ⟨?_, ?_⟩
  · intro n hn
    simp only [LocalCopy.withAssigned, SlotSet.contains_insert, Bool.or_eq_true, beq_iff_eq] at hn
    rcases hn with (rfl | hn) | hn
    · exact ⟨q, resolve_self hr, hm⟩
    · exact h.changed n (.inl hn)
    · exact h.changed n (.inr hn)
  · intro n hn
    simp only [LocalCopy.withAssigned, SlotSet.contains_erase, Bool.and_eq_true] at hn
    exact h.deleted n hn.2

/-- A value that is created on read leaves the checks and the sets as they are. -/
theorem Checked.instantiate (h : Checked o) (hi : o.instantiate p = .ok (slot, q, o')) :
    Checked o' ∧ o'.resolve q = .ok (slot, q) ∧ o'.checkMutable q = .ok () := by
  obtain ⟨hr, hm, ⟨-, rfl⟩ | ⟨v, -, -, -, -, rfl⟩⟩ := instantiate_eq_ok hi
  · exact ⟨h, resolve_self hr, hm⟩
  · exact ⟨⟨h.changed, h.deleted⟩, resolve_self hr, hm⟩

theorem Checked.storeEdited (h : Checked o) {e : ValueEdit} {v : Value} {r : Edited Value Unit}
    (hr : o.resolve q = .ok (slot, q)) (hm : o.checkMutable q = .ok ())
    (hv : v.attach (o.link slot) = v) (hp : v.perform cat e = some r) :
    Checked (o.storeEdited slot r).state := by
  refine ⟨?_, h.deleted⟩
  rintro n (hn | hn)
  · exact h.changed n (.inl hn)
  · rcases (contains_touched_storeEdited hv hp n).mp hn with hn | ⟨rfl, -⟩
    · exact h.changed n (.inr hn)
    · exact ⟨q, hr, hm⟩

theorem Outcome.checked {op : Operation} {event : Option Event} (ho : Outcome cat o op event o')
    (hs : Sound o) (h : Checked o) : Checked o' := by
  cases ho with
  | failed => exact h
  | deleted _ _ hr hn hd => exact h.withDeleted hr hn hd
  | assigned _ hr hm => exact h.withAssigned hr hm _
  | refused hi => exact (h.instantiate hi).1
  | edited hi hv hp =>
    obtain ⟨h', hr, hm⟩ := h.instantiate hi
    exact h'.storeEdited hr hm ((hs.instantiate hi).attached _ _ hv) hp
  | cleared => exact .of_clean rfl rfl rfl
  | loaded content clearFirst asked summary =>
    obtain ⟨o', -, ⟨-, hstate⟩ | ⟨-, ⟨loaded, hstate⟩, -⟩⟩ :=
      load_eq cat o content clearFirst asked summary
    all_goals
      rw [hstate]
      exact .of_clean rfl rfl rfl
  | saved => exact .of_clean rfl rfl rfl

theorem Checked.run (h : Checked o) (hs : Sound o) (ops : List Operation) :
    Checked (o.run cat ops) := by
  refine (run_induction cat (P := fun o' => Sound o' ∧ Checked o') ⟨hs, h⟩ ?_).2
  rintro o' op - ⟨hs', h'⟩
  have ho := perform_outcome cat o' op
  exact ⟨ho.sound hs', ho.checked hs' h'⟩

theorem mem_payload_iff {op : UpdateOp} :
    op ∈ o.payload ↔ ∃ slot q, o.type.property? slot = some q ∧ op ∈ o.slotOps slot q := by
  simp only [payload, List.mem_flatMap, Prod.exists, List.mem_zipIdx_iff_getElem?,
    ObjectType.property?]
  exact exists_comm

/-- Where an operation for a slot comes from. -/
theorem mem_slotOps {op : UpdateOp} (h : op ∈ o.slotOps slot q) :
    o.deleted.contains slot = true ∧ op = .delete q ∨
    (o.assigned.contains slot = true ∨ o.touched.contains slot = true) ∧
      (Emptied o slot q ∧ op = .delete q ∨ (∃ v, o.values.get? slot = some v ∧ op = .set q v) ∨
        ∃ c, o.values.get? slot = some (.collection c) ∧ o.sendsItems q c = true ∧
          op ∈ itemOps q c) := by
  unfold slotOps at h
  cases happlicable : q.isApplicable o.version with
  | false => simp [happlicable] at h
  | true =>
    cases hdeleted : o.deleted.contains slot with
    | true => exact .inl ⟨rfl, by simpa [happlicable, hdeleted] using h⟩
    | false =>
      cases hchanged : o.assigned.contains slot || o.touched.contains slot with
      | false =>
        rw [Bool.or_eq_false_iff] at hchanged
        simp [happlicable, hdeleted, hchanged.1, hchanged.2] at h
      | true =>
        rw [Bool.or_eq_true] at hchanged
        refine .inr ⟨hchanged, ?_⟩
        have hsome : (!o.assigned.contains slot && !o.touched.contains slot) = false := by
          rcases hchanged with h | h <;> simp [h]
        simp only [happlicable, hdeleted, hsome, Bool.not_true, Bool.false_eq_true, if_false] at h
        cases hv : o.values.get? slot with
        | none => simp [hv] at h
        | some v =>
          cases v with
          | collection c =>
            simp only [hv] at h
            split at h
            · rename_i hitems
              rw [Bool.and_eq_true] at hitems
              exact .inr (.inr ⟨c, rfl, hitems.2, h⟩)
            · rename_i hwhole
              split at h
              · rename_i hempty
                refine .inl ⟨⟨c, hv, List.isEmpty_iff.mp hempty, ?_⟩, by simpa using h⟩
                cases hassigned : o.assigned.contains slot with
                | true => exact .inl rfl
                | false =>
                  refine .inr ⟨by simpa [hassigned] using hchanged, ?_⟩
                  simpa [hassigned] using hwhole
              · exact .inr (.inl ⟨_, rfl, by simpa using h⟩)
          | _ => exact .inr (.inl ⟨_, rfl, by simpa [hv] using h⟩)

theorem mem_itemOps {op : UpdateOp} {c : Collection} (h : op ∈ itemOps q c) :
    (∃ item ∈ c.added, op = .append q item) ∨ (∃ n, op = .deleteItem q n) ∨
      ∃ n item, (n, item) ∈ c.modified ∧ op = .setItem q n item := by
  simp only [itemOps, List.mem_append, List.mem_map] at h
  rcases h with (⟨item, hadded, rfl⟩ | ⟨n, -, rfl⟩) | ⟨⟨n, item⟩, hmodified, rfl⟩
  · exact .inl ⟨item, hadded, rfl⟩
  · exact .inr (.inl ⟨n, rfl⟩)
  · exact .inr (.inr ⟨n, item, hmodified, rfl⟩)

theorem delete_mem_slotOps (h : Emptied o slot q) (happlicable : q.isApplicable o.version = true)
    (hdeleted : o.deleted.contains slot = false) : UpdateOp.delete q ∈ o.slotOps slot q := by
  obtain ⟨c, hc, hempty, hassigned | ⟨htouched, hitems⟩⟩ := h
  · simp [slotOps, happlicable, hdeleted, hassigned, hc, hempty]
  · simp [slotOps, happlicable, hdeleted, htouched, hitems, hc, hempty]

theorem permits_itemOps {c : Collection} (hsettable : q.has .settable o.version = true)
    (hupdatable : q.has .updatable o.version = true) (hitems : o.sendsItems q c = true) :
    ∀ op ∈ itemOps q c, o.Permits op := by
  intro op hop
  rcases mem_itemOps hop with ⟨item, hadded, rfl⟩ | ⟨position, rfl⟩ | ⟨position, item, -, rfl⟩
  · refine ⟨hsettable, hupdatable, ?_⟩
    rw [sendsItems, Bool.and_eq_true, Bool.or_eq_true] at hitems
    rcases hitems.2 with hnone | happendable
    · rw [List.isEmpty_iff.mp hnone] at hadded
      cases hadded
    · exact happendable
  · exact ⟨hsettable, hupdatable⟩
  · exact ⟨hsettable, hupdatable⟩

/-- A changed slot of an object that the server has holds a property that may be updated. -/
theorem Checked.mutable (h : Checked o) (hnew : o.isNew = false)
    (hq : o.type.property? slot = some q)
    (hchanged : o.assigned.contains slot = true ∨ o.touched.contains slot = true) :
    o.resolve q = .ok (slot, q) ∧ q.has .settable o.version = true ∧
      q.has .updatable o.version = true := by
  obtain ⟨q', hr, hm⟩ := h.changed slot hchanged
  obtain rfl := Option.some.inj (hq.symm.trans (resolve_eq_ok_iff.mp hr).2.1)
  obtain ⟨hsettable, hupdatable⟩ := checkMutable_eq_ok_iff.mp hm
  exact ⟨hr, hsettable, hupdatable hnew⟩

theorem Checked.permitted_iff (h : Checked o) (hs : Sound o) (hnew : o.isNew = false) :
    (∀ op ∈ o.payload, o.Permits op) ↔
    ∀ slot q, o.type.property? slot = some q → Emptied o slot q →
      q.nullable = true ∧ q.has .deletable o.version = true := by
  constructor
  · intro hpermitted slot q hq hemptied
    have hkept : o.deleted.contains slot = false := by
      cases hdeleted : o.deleted.contains slot with
      | false => rfl
      | true =>
        obtain ⟨c, hc, -⟩ := hemptied
        rw [hs.deleted slot hdeleted] at hc
        cases hc
    have hchanged : o.assigned.contains slot = true ∨ o.touched.contains slot = true := by
      obtain ⟨c, -, -, hchanged⟩ := hemptied
      exact hchanged.imp_right And.left
    obtain ⟨hr, -, -⟩ := h.mutable hnew hq hchanged
    have hop := delete_mem_slotOps hemptied (resolve_eq_ok_iff.mp hr).2.2 hkept
    obtain ⟨hnullable, hdeletable, -⟩ := hpermitted _ (mem_payload_iff.mpr ⟨slot, q, hq, hop⟩)
    exact ⟨hnullable, hdeletable⟩
  · intro hemptied op hop
    obtain ⟨slot, q, hq, hop⟩ := mem_payload_iff.mp hop
    rcases mem_slotOps hop with ⟨hdeleted, rfl⟩ | ⟨hchanged, hcase⟩
    · obtain ⟨q', hr, hnullable, hdeletable⟩ := h.deleted slot hdeleted
      obtain rfl := Option.some.inj (hq.symm.trans (resolve_eq_ok_iff.mp hr).2.1)
      exact ⟨hnullable, hdeletable, delete_isOk hr hnullable hdeletable⟩
    · obtain ⟨hr, hsettable, hupdatable⟩ := h.mutable hnew hq hchanged
      rcases hcase with ⟨hempty, rfl⟩ | ⟨v, -, rfl⟩ | ⟨c, -, hitems, hop⟩
      · obtain ⟨hnullable, hdeletable⟩ := hemptied slot q hq hempty
        exact ⟨hnullable, hdeletable, delete_isOk hr hnullable hdeletable⟩
      · exact ⟨hsettable, hupdatable⟩
      · exact permits_itemOps hsettable hupdatable hitems op hop

/-- A copy of an object that the server has asks for nothing that its properties forbid, exactly if
every property whose collection was emptied may be deleted. -/
theorem payload_permitted_iff (cat : Catalog) (id : Nat) (type : ObjectType) (session : Session)
    (ops : List Operation) (hnew : ((new id type session).run cat ops).isNew = false) :
    (∀ op ∈ ((new id type session).run cat ops).payload,
      ((new id type session).run cat ops).Permits op) ↔
    ∀ slot q, type.property? slot = some q → Emptied ((new id type session).run cat ops) slot q →
      q.nullable = true ∧ q.has .deletable session.version = true := by
  have hsound : Sound (new id type session) := .new id type session
  have hchecked : Checked (new id type session) := .of_clean rfl rfl rfl
  obtain ⟨-, htype, hsession⟩ := run_same cat (new id type session) ops
  have hpermitted := (hchecked.run hsound ops).permitted_iff (hsound.run ops) hnew
  rwa [htype, version, hsession] at hpermitted

def revoked : List Operation :=
  [.load (.element ⟨some .types, "PermissionSet", []⟩
      (.element ⟨some .types, "Permissions", []⟩
        (.element ⟨some .types, "Permission", []⟩ .closed .closed) .closed) .closed) true {} false,
    .edit Mail.Folder.permissionSet (.collection (.remove 0))]

theorem revoked_permitted_iff :
    ((new 0 Mail.Folder.type Mail.session).run (Mail.catalog []) revoked).isNew = false ∧
    ((∀ op ∈ ((new 0 Mail.Folder.type Mail.session).run (Mail.catalog []) revoked).payload,
        ((new 0 Mail.Folder.type Mail.session).run (Mail.catalog []) revoked).Permits op) ↔
      ∀ slot q, Mail.Folder.type.property? slot = some q →
        Emptied ((new 0 Mail.Folder.type Mail.session).run (Mail.catalog []) revoked) slot q →
          q.nullable = true ∧ q.has .deletable Mail.session.version = true) :=
  ⟨rfl, payload_permitted_iff (Mail.catalog []) 0 Mail.Folder.type Mail.session revoked rfl⟩

/-- The permissions of a folder may be changed but not deleted, yet without any of them the copy asks
for their deletion, which it would not accept itself. -/
theorem revoked_forbidden :
    ((new 0 Mail.Folder.type Mail.session).run (Mail.catalog []) revoked).isNew = false ∧
    ¬ ∀ op ∈ ((new 0 Mail.Folder.type Mail.session).run (Mail.catalog []) revoked).payload,
      ((new 0 Mail.Folder.type Mail.session).run (Mail.catalog []) revoked).Permits op := by
  refine ⟨rfl, ?_⟩
  intro hpermitted
  have hdeletable := (hpermitted (.delete Mail.Folder.permissionSet) (by exact .head _)).2.1
  exact absurd hdeletable (by decide)

end LocalCopy

end ObjectTracking
