import ObjectTracking.Proofs.LocalCopy.Load
/-!
What every run keeps of a copy: the values in it report to their slots, a deleted slot has no value,
and an assigned or touched one has.
-/
set_option autoImplicit false

namespace ObjectTracking

namespace LocalCopy
variable {cat : Catalog} {o o' : LocalCopy} {p q : Property} {slot : Nat}

/-- The parts of a copy fit together. -/
structure Sound (o : LocalCopy) : Prop where
  attached : ∀ slot v, o.values.get? slot = some v → v.attach (o.link slot) = v
  deleted : ∀ slot, o.deleted.contains slot = true → o.values.get? slot = none
  assigned : ∀ slot, o.assigned.contains slot = true → ∃ v, o.values.get? slot = some v
  touched : ∀ slot, o.touched.contains slot = true → ∃ v, o.values.get? slot = some v

/-- The values in a copy report to their slots. -/
def Attached (o : LocalCopy) : Prop :=
  ∀ slot v, o.values.get? slot = some v → v.attach (o.link slot) = v

section Attached
variable {v : Value}

theorem Attached.insert (h : Attached o) (hv : v.attach (o.link slot) = v) :
    Attached { o with values := o.values.insert slot v } :=
  SlotMap.forall_insert hv h

theorem Attached.created (h : Attached o) : Attached (o.created slot v) :=
  h.insert (by simp)

theorem Attached.withAssigned (h : Attached o) : Attached (o.withAssigned slot v) :=
  h.insert (v := v.attach (o.link slot)) (by simp)

theorem Attached.withDeleted (h : Attached o) : Attached (o.withDeleted slot) :=
  SlotMap.forall_erase h

theorem Attached.instantiate (h : Attached o) (hi : o.instantiate p = .ok (slot, q, o')) :
    Attached o' := by
  obtain ⟨_, _, ⟨_, rfl⟩ | ⟨v, _, _, _, _, rfl⟩⟩ := instantiate_eq_ok hi
  · exact h
  · exact h.created

theorem Attached.storeEdited (h : Attached o) {α : Type} {r : Edited Value α}
    (hr : r.state.attach (o.link slot) = r.state) : Attached (o.storeEdited slot r).state :=
  h.insert hr

theorem Attached.clear (o : LocalCopy) : Attached o.clear := by
  intro slot v hv
  simp [LocalCopy.clear] at hv

theorem attach_settled (v : Value) (l : Link) (hv : v.attach l = v) :
    (settled v).attach l = settled v := by
  cases v with
  | collection c =>
    have hc : c.attach (some l) = c := by simpa [Value.attach] using hv
    obtain ⟨hlink, hentries⟩ := Collection.attach_eq_self_iff.mp hc
    simp only [settled, Value.attach, Value.collection.injEq, Collection.attach_eq_self_iff]
    refine ⟨hlink, ?_⟩
    intro e he
    obtain ⟨n, hn, rfl⟩ := List.mem_mapIdx.mp he
    exact hentries c.entries[n] (List.getElem_mem hn)
  | _ => exact hv

theorem Attached.markSaved (h : Attached o) : Attached o.markSaved := by
  intro n w hw
  obtain ⟨v, hv, rfl⟩ := Option.map_eq_some_iff.mp hw
  exact attach_settled v _ (h n v hv)

theorem Attached.load (h : Attached o) (content : Markup.Forest) (clearFirst : Bool)
    (asked : PropertySet) (summary : Bool) :
    Attached (o.load cat content clearFirst asked summary).state := by
  obtain ⟨o', hread, ⟨_, hstate⟩ | ⟨_, ⟨loaded, hstate⟩, _⟩⟩ :=
    load_eq cat o content clearFirst asked summary
  · rw [hstate]
    exact .clear o'
  · rw [hstate]
    intro n w hw
    have hstart : Attached (o.loadStart clearFirst) := by
      cases clearFirst
      · exact h
      · exact .clear o
    change w.attach (o'.link n) = w
    rw [hread.link n]
    rcases hread.values n with heq | hfresh
    · exact hstart n w (heq ▸ hw)
    · exact (hfresh w hw).1

theorem Attached.new (id : Nat) (type : ObjectType) (session : Session) :
    Attached (.new id type session) := by
  intro slot v hv
  simp [LocalCopy.new] at hv

theorem Outcome.attached {op : Operation} {event : Option Event} (ho : Outcome cat o op event o')
    (h : Attached o) : Attached o' := by
  cases ho with
  | failed => exact h
  | deleted => exact h.withDeleted
  | assigned => exact h.withAssigned
  | refused hreached => exact h.instantiate hreached
  | edited hreached hheld hperformed =>
    have h' := h.instantiate hreached
    exact h'.storeEdited (Value.perform_attach (h' _ _ hheld) hperformed)
  | cleared => exact .clear o
  | loaded content clearFirst asked summary => exact h.load content clearFirst asked summary
  | saved => exact h.markSaved

end Attached

theorem contains_foldl_insert (ks : List Link) (s : SlotSet) (n : Nat) :
    (ks.foldl (fun s k => s.insert k.slot) s).contains n =
      (s.contains n || ks.any (·.slot == n)) := by
  induction ks generalizing s with
  | nil => simp
  | cons k ks ih =>
    rw [List.foldl_cons, ih, SlotSet.contains_insert, List.any_cons]
    cases h : k.slot == n
    · have : (n == k.slot) = false := by
        rw [beq_eq_false_iff_ne] at h ⊢
        exact Ne.symm h
      simp [this]
    · have : (n == k.slot) = true := by
        rw [beq_iff_eq] at h ⊢
        exact h.symm
      simp [this]

/-- A copy hears of a slot what is reported through its link. -/
theorem contains_touched_hear (o : LocalCopy) (signals : List Link) (n : Nat) :
    (o.hear signals).touched.contains n = true ↔
      o.touched.contains n = true ∨ o.link n ∈ signals := by
  simp only [hear, contains_foldl_insert, Bool.or_eq_true, List.any_filter, List.any_eq_true,
    Bool.and_eq_true, beq_iff_eq]
  apply or_congr_right
  constructor
  · rintro ⟨⟨copy, s⟩, hk, rfl, rfl⟩
    exact hk
  · intro hk
    exact ⟨o.link n, hk, rfl, rfl⟩

section Stored
variable {α : Type}

@[simp] theorem storeEdited_values (o : LocalCopy) (slot : Nat) (r : Edited Value α) :
    (o.storeEdited slot r).state.values = o.values.insert slot r.state := rfl
@[simp] theorem storeEdited_assigned (o : LocalCopy) (slot : Nat) (r : Edited Value α) :
    (o.storeEdited slot r).state.assigned = o.assigned := rfl
@[simp] theorem storeEdited_deleted (o : LocalCopy) (slot : Nat) (r : Edited Value α) :
    (o.storeEdited slot r).state.deleted = o.deleted := rfl
@[simp] theorem storeEdited_type (o : LocalCopy) (slot : Nat) (r : Edited Value α) :
    (o.storeEdited slot r).state.type = o.type := rfl
@[simp] theorem storeEdited_session (o : LocalCopy) (slot : Nat) (r : Edited Value α) :
    (o.storeEdited slot r).state.session = o.session := rfl
@[simp] theorem storeEdited_link (o : LocalCopy) (slot n : Nat) (r : Edited Value α) :
    (o.storeEdited slot r).state.link n = o.link n := rfl

end Stored

section Edited
variable {e : ValueEdit} {v : Value} {r : Edited Value Unit}

/-- An edit touches its own slot if it counts as a change, and no other. -/
theorem contains_touched_storeEdited (hv : v.attach (o.link slot) = v)
    (hr : v.perform cat e = some r) (n : Nat) :
    (o.storeEdited slot r).state.touched.contains n = true ↔
      o.touched.contains n = true ∨ n = slot ∧ v.changes cat e = true := by
  have h := contains_touched_hear { o with values := o.values.insert slot r.state } r.signals n
  refine h.trans (or_congr_right ?_)
  rw [(Value.reportsTo_of_attach hv).mem_signals_perform hr]
  simp only [link, Option.some.injEq, Link.mk.injEq, true_and]
  exact and_congr_left' eq_comm

end Edited

theorem Sound.created (h : Sound o) {v : Value} (hdeleted : o.deleted.contains slot = false) :
    Sound (o.created slot v) := by
  refine ⟨Attached.created h.attached, ?_, ?_, ?_⟩
  · intro n hn
    have hne : n ≠ slot := by
      rintro rfl
      simp [LocalCopy.created, hdeleted] at hn
    simpa [LocalCopy.created, hne] using h.deleted n hn
  · intro n hn
    by_cases hne : n = slot
    · simp [LocalCopy.created, hne]
    · simpa [LocalCopy.created, hne] using h.assigned n hn
  · intro n hn
    by_cases hne : n = slot
    · simp [LocalCopy.created, hne]
    · simpa [LocalCopy.created, hne] using h.touched n hn

theorem Sound.instantiate (h : Sound o) (hi : o.instantiate p = .ok (slot, q, o')) : Sound o' := by
  obtain ⟨_, _, ⟨_, rfl⟩ | ⟨v, _, hdeleted, _, _, rfl⟩⟩ := instantiate_eq_ok hi
  · exact h
  · exact h.created hdeleted

theorem Sound.storeEdited (h : Sound o) {e : ValueEdit} {v : Value} {r : Edited Value Unit}
    (hv : o.values.get? slot = some v) (hr : v.perform cat e = some r) :
    Sound (o.storeEdited slot r).state := by
  have hattached := h.attached slot v hv
  have hheld : ∀ n, (∃ w, o.values.get? n = some w) →
      ∃ w, (o.storeEdited slot r).state.values.get? n = some w := by
    intro n hn
    by_cases hne : n = slot <;> simp [hne, hn]
  refine ⟨Attached.storeEdited h.attached (Value.perform_attach hattached hr), ?_, ?_, ?_⟩
  · intro n hn
    have hnone := h.deleted n hn
    have hne : n ≠ slot := by
      rintro rfl
      rw [hv] at hnone
      cases hnone
    simpa [hne] using hnone
  · intro n hn
    exact hheld n (h.assigned n hn)
  · intro n hn
    rcases (contains_touched_storeEdited hattached hr n).mp hn with hn | ⟨rfl, _⟩
    · exact hheld n (h.touched n hn)
    · exact hheld n ⟨v, hv⟩

theorem Sound.withDeleted (h : Sound o) (slot : Nat) : Sound (o.withDeleted slot) := by
  refine ⟨Attached.withDeleted h.attached, ?_, ?_, ?_⟩
  · intro n hn
    by_cases hne : n = slot
    · simp [LocalCopy.withDeleted, hne]
    · simpa [LocalCopy.withDeleted, hne] using h.deleted n (by
        simpa [LocalCopy.withDeleted, hne] using hn)
  · intro n hn
    simp only [LocalCopy.withDeleted, SlotSet.contains_erase, Bool.and_eq_true, bne_iff_ne] at hn
    simpa [LocalCopy.withDeleted, hn.1] using h.assigned n hn.2
  · intro n hn
    simp only [LocalCopy.withDeleted, SlotSet.contains_erase, Bool.and_eq_true, bne_iff_ne] at hn
    simpa [LocalCopy.withDeleted, hn.1] using h.touched n hn.2

theorem Sound.withAssigned (h : Sound o) (slot : Nat) (v : Value) :
    Sound (o.withAssigned slot v) := by
  refine ⟨Attached.withAssigned h.attached, ?_, ?_, ?_⟩
  · intro n hn
    simp only [LocalCopy.withAssigned, SlotSet.contains_erase, Bool.and_eq_true, bne_iff_ne] at hn
    simpa [LocalCopy.withAssigned, hn.1] using h.deleted n hn.2
  · intro n hn
    by_cases hne : n = slot
    · simp [LocalCopy.withAssigned, hne]
    · simpa [LocalCopy.withAssigned, hne] using h.assigned n (by
        simpa [LocalCopy.withAssigned, hne] using hn)
  · intro n hn
    by_cases hne : n = slot
    · simp [LocalCopy.withAssigned, hne]
    · simpa [LocalCopy.withAssigned, hne] using h.touched n hn

/-- With nothing assigned, deleted or touched, only the values matter. -/
theorem Sound.of_attached (ha : Attached o)
    (hassigned : o.assigned = ∅) (hdeleted : o.deleted = ∅) (htouched : o.touched = ∅) :
    Sound o := by
  refine ⟨ha, ?_, ?_, ?_⟩
  · simp [hdeleted]
  · simp [hassigned]
  · simp [htouched]

theorem Sound.clear (o : LocalCopy) : Sound o.clear :=
  .of_attached (.clear o) rfl rfl rfl

theorem Sound.markSaved (h : Sound o) : Sound o.markSaved :=
  .of_attached (Attached.markSaved h.attached) rfl rfl rfl

theorem Sound.load (h : Sound o) (content : Markup.Forest) (clearFirst : Bool)
    (asked : PropertySet) (summary : Bool) :
    Sound (o.load cat content clearFirst asked summary).state := by
  have ha : Attached (o.load cat content clearFirst asked summary).state :=
    Attached.load h.attached content clearFirst asked summary
  obtain ⟨o', _, ⟨_, hstate⟩ | ⟨_, ⟨loaded, hstate⟩, _⟩⟩ :=
    load_eq cat o content clearFirst asked summary
  · rw [hstate]
    exact .clear o'
  · rw [hstate] at ha ⊢
    exact .of_attached ha rfl rfl rfl

theorem Sound.new (id : Nat) (type : ObjectType) (session : Session) : Sound (.new id type session) :=
  .of_attached (.new id type session) rfl rfl rfl

theorem Outcome.sound {op : Operation} {event : Option Event} (ho : Outcome cat o op event o')
    (h : Sound o) : Sound o' := by
  cases ho with
  | failed => exact h
  | deleted => exact h.withDeleted _
  | assigned => exact h.withAssigned _ _
  | refused hreached => exact h.instantiate hreached
  | edited hreached hheld hperformed => exact (h.instantiate hreached).storeEdited hheld hperformed
  | cleared => exact .clear o
  | loaded content clearFirst asked summary => exact h.load content clearFirst asked summary
  | saved => exact h.markSaved

theorem Outcome.same {op : Operation} {event : Option Event} (ho : Outcome cat o op event o') :
    o'.id = o.id ∧ o'.type = o.type ∧ o'.session = o.session := by
  have hreached : ∀ {p q slot o'}, o.instantiate p = .ok (slot, q, o') →
      o'.id = o.id ∧ o'.type = o.type ∧ o'.session = o.session := by
    intro p q slot o' hi
    rw [← (frame_of_instantiate hi).2]
    exact ⟨rfl, rfl, rfl⟩
  cases ho with
  | failed => exact ⟨rfl, rfl, rfl⟩
  | deleted => exact ⟨rfl, rfl, rfl⟩
  | assigned => exact ⟨rfl, rfl, rfl⟩
  | refused hi => exact hreached hi
  | edited hi =>
    obtain ⟨hid, htype, hsession⟩ := hreached hi
    exact ⟨hid, htype, hsession⟩
  | cleared => exact ⟨rfl, rfl, rfl⟩
  | loaded content clearFirst asked summary =>
    obtain ⟨o', hread, ⟨_, hstate⟩ | ⟨_, ⟨loaded, hstate⟩, _⟩⟩ :=
      load_eq cat o content clearFirst asked summary
    all_goals
      rw [hstate]
      cases clearFirst
      · exact ⟨hread.id, hread.type, hread.session⟩
      · exact ⟨hread.id, hread.type, hread.session⟩
  | saved => exact ⟨rfl, rfl, rfl⟩

theorem run_same (cat : Catalog) (o : LocalCopy) (ops : List Operation) :
    (o.run cat ops).id = o.id ∧ (o.run cat ops).type = o.type ∧
      (o.run cat ops).session = o.session := by
  refine run_induction cat
    (P := fun o' => o'.id = o.id ∧ o'.type = o.type ∧ o'.session = o.session) ⟨rfl, rfl, rfl⟩ ?_
  rintro o' op _ ⟨hid, htype, hsession⟩
  obtain ⟨hid', htype', hsession'⟩ := (perform_outcome cat o' op).same
  exact ⟨hid'.trans hid, htype'.trans htype, hsession'.trans hsession⟩

theorem Sound.run (h : Sound o) (ops : List Operation) : Sound (o.run cat ops) :=
  run_induction cat h fun o op _ h => (perform_outcome cat o op).sound h

end LocalCopy

end ObjectTracking
