import ObjectTracking.Proofs.LocalCopy.Permitted
import ObjectTracking.Proofs.LocalCopy.Saved
/-!
When saving takes an update. A copy looks at the slots that it notes, and what it sends is told from
the values in them; the two agree as long as some noted slot has something to send. A collection that
goes item by item may have nothing, once its changes have cancelled out.
-/
set_option autoImplicit false

namespace ObjectTracking
open Markup

theorem Value.mem_links_attach {v : Value} {k l : Link} (h : l ∈ (v.attach k).links) : l = k := by
  cases v with
  | composite c => exact (Option.some.inj (c.mem_links_attach h)).symm
  | collection c =>
    rcases Collection.mem_links.mp h with h | ⟨e, he, h⟩
    · exact (Option.some.inj h).symm
    · obtain ⟨e', -, rfl⟩ := List.mem_map.mp he
      exact (Option.some.inj (e'.value.mem_links_attach h)).symm
  | _ => cases h

namespace LocalCopy
variable {cat : Catalog} {o o' : LocalCopy} {p q : Property} {slot : Nat}

/-- The changes of a slot have cancelled out: its collection was only changed in place, goes item by
item and has no changes. -/
def CancelledOut (o : LocalCopy) (slot : Nat) : Prop :=
  ∃ q c, o.type.property? slot = some q ∧ o.values.get? slot = some (.collection c) ∧
    o.assigned.contains slot = false ∧ o.sendsItems q c = true ∧ c.hasChanges = false

/-- No value reports for another slot than its own. -/
def Tied (o : LocalCopy) : Prop :=
  ∀ slot v, o.values.get? slot = some v → ∀ l ∈ v.links, l = o.link slot

/-- Every slot that a copy notes is one that it can send something for. -/
structure Accounted (o : LocalCopy) : Prop where
  tied : Tied o
  changed : ∀ slot, o.assigned.contains slot = true ∨ o.touched.contains slot = true →
    o.type.isApplicable o.version slot = true ∧ ∃ v, o.values.get? slot = some v
  deleted : ∀ slot, o.deleted.contains slot = true →
    o.type.isApplicable o.version slot = true ∧ o.values.get? slot = none

theorem Accounted.of_tied (h : Tied o) (ha : o.assigned = ∅) (hd : o.deleted = ∅)
    (ht : o.touched = ∅) : Accounted o := by
  refine ⟨h, ?_, ?_⟩
  · simp [ha, ht]
  · simp [hd]

theorem Tied.clear (o : LocalCopy) : Tied o.clear := by
  intro slot v hv
  simp [LocalCopy.clear] at hv

theorem Tied.created (h : Tied o) (slot : Nat) (v : Value) : Tied (o.created slot v) :=
  SlotMap.forall_insert (fun _ => Value.mem_links_attach) h

theorem Tied.instantiate (h : Tied o) (hi : o.instantiate p = .ok (slot, q, o')) : Tied o' := by
  obtain ⟨-, -, ⟨-, rfl⟩ | ⟨v, -, -, -, -, rfl⟩⟩ := instantiate_eq_ok hi
  · exact h
  · exact h.created slot v

theorem Tied.storeEdited (h : Tied o) {α : Type} {r : Edited Value α} {v : Value}
    (hv : o.values.get? slot = some v) (hown : r.Own Value.links v) :
    Tied (o.storeEdited slot r).state :=
  SlotMap.forall_insert (fun l hl => h slot v hv l (hown.state hl)) h

theorem Tied.inPlace (h : Tied o) (hp : InPlace o o') : Tied o' := by
  cases hp with
  | unreached => exact h
  | reached hi => exact h.instantiate hi
  | stored hi hv hown => exact (h.instantiate hi).storeEdited hv hown

theorem Tied.withDeleted (h : Tied o) (slot : Nat) : Tied (o.withDeleted slot) :=
  SlotMap.forall_erase h

theorem Tied.withAssigned (h : Tied o) (slot : Nat) (v : Value) : Tied (o.withAssigned slot v) :=
  SlotMap.forall_insert (fun _ => Value.mem_links_attach) h

theorem Tied.load (h : Tied o) (content : Forest) (clearFirst : Bool) (asked : PropertySet)
    (summary : Bool) : Tied (o.load cat content clearFirst asked summary).state := by
  obtain ⟨o', hread, ⟨-, hstate⟩ | ⟨-, ⟨loaded, hstate⟩, -⟩⟩ :=
    load_eq cat o content clearFirst asked summary
  · rw [hstate]
    exact .clear o'
  · rw [hstate]
    intro n w hw l hl
    have hstart : Tied (o.loadStart clearFirst) := by
      cases clearFirst with
      | true => exact .clear o
      | false => exact h
    change l = o'.link n
    rw [hread.link n]
    rcases hread.values n with heq | hfresh
    · exact hstart n w (heq ▸ hw) l hl
    · rw [← (hfresh w hw).1] at hl
      exact Value.mem_links_attach hl

theorem links_settled (v : Value) : (settled v).links ⊆ v.links := by
  cases v with
  | collection c => exact c.links_markSaved
  | _ => exact List.Subset.refl _

theorem Tied.markSaved (h : Tied o) : Tied o.markSaved := by
  intro n w hw l hl
  obtain ⟨v, hv, rfl⟩ := Option.map_eq_some_iff.mp hw
  exact h n v hv l (links_settled v hl)

theorem Outcome.tied {op : Operation} {event : Option Event} (ho : Outcome cat o op event o')
    (h : Tied o) : Tied o' := by
  cases ho with
  | failed => exact h
  | deleted => exact h.withDeleted _
  | assigned => exact h.withAssigned _ _
  | refused hi => exact h.instantiate hi
  | edited hi hv hp => exact (h.instantiate hi).storeEdited hv (Value.own_perform hp)
  | cleared => exact .clear o
  | loaded content clearFirst asked summary => exact Tied.load h content clearFirst asked summary
  | saved => exact Tied.markSaved h

theorem Accounted.clear (o : LocalCopy) : Accounted o.clear :=
  .of_tied (.clear o) rfl rfl rfl

theorem Accounted.created (h : Accounted o) (hdeleted : o.deleted.contains slot = false)
    (v : Value) : Accounted (o.created slot v) := by
  refine ⟨h.tied.created slot v, ?_, ?_⟩
  · intro n hn
    obtain ⟨happlicable, w, hw⟩ := h.changed n hn
    refine ⟨happlicable, ?_⟩
    by_cases hne : n = slot <;> simp [LocalCopy.created, hne, hw]
  · intro n hn
    obtain ⟨happlicable, hnone⟩ := h.deleted n hn
    have hne : n ≠ slot := by
      rintro rfl
      exact Bool.false_ne_true (hdeleted.symm.trans hn)
    exact ⟨happlicable, by simpa [LocalCopy.created, hne] using hnone⟩

theorem Accounted.instantiate (h : Accounted o) (hi : o.instantiate p = .ok (slot, q, o')) :
    Accounted o' := by
  obtain ⟨-, -, ⟨-, rfl⟩ | ⟨v, -, hdeleted, -, -, rfl⟩⟩ := instantiate_eq_ok hi
  · exact h
  · exact h.created hdeleted v

theorem Accounted.storeEdited (h : Accounted o) {α : Type} {r : Edited Value α} {v : Value}
    (hslot : o.type.isApplicable o.version slot = true) (hv : o.values.get? slot = some v)
    (hown : r.Own Value.links v) : Accounted (o.storeEdited slot r).state := by
  refine ⟨h.tied.storeEdited hv hown, ?_, ?_⟩
  · have hheld : ∀ n, (∃ w, o.values.get? n = some w) →
        ∃ w, (o.storeEdited slot r).state.values.get? n = some w := by
      intro n hn
      by_cases hne : n = slot <;> simp [hne, hn]
    rintro n (hn | hn)
    · exact (h.changed n (.inl hn)).imp_right (hheld n)
    · rcases (contains_touched_hear { o with values := o.values.insert slot r.state } r.signals
        n).mp hn with hn | hn
      · exact (h.changed n (.inr hn)).imp_right (hheld n)
      -- The edit reports through a link of the value that was there, and that is the slot's own.
      · obtain rfl : n = slot := congrArg Link.slot (h.tied slot v hv _ (hown.signals hn))
        exact ⟨hslot, hheld n ⟨v, hv⟩⟩
  · intro n hn
    obtain ⟨happlicable, hnone⟩ := h.deleted n hn
    have hne : n ≠ slot := by
      rintro rfl
      rw [hv] at hnone
      cases hnone
    exact ⟨happlicable, by simpa [hne] using hnone⟩

theorem Accounted.inPlace (h : Accounted o) (hp : InPlace o o') : Accounted o' := by
  cases hp with
  | unreached => exact h
  | reached hi => exact h.instantiate hi
  | stored hi hv hown =>
    exact (h.instantiate hi).storeEdited (isApplicable_of_resolve (resolve_of_instantiate hi)) hv
      hown

theorem Accounted.withDeleted (h : Accounted o) (hr : o.resolve p = .ok (slot, q)) :
    Accounted (o.withDeleted slot) := by
  refine ⟨h.tied.withDeleted slot, ?_, ?_⟩
  · intro n hn
    simp only [LocalCopy.withDeleted, SlotSet.contains_erase, Bool.and_eq_true, bne_iff_ne,
      ← and_or_left] at hn
    obtain ⟨happlicable, hheld⟩ := h.changed n hn.2
    exact ⟨happlicable, by simpa [LocalCopy.withDeleted, hn.1] using hheld⟩
  · intro n hn
    simp only [LocalCopy.withDeleted, SlotSet.contains_insert, Bool.or_eq_true, beq_iff_eq] at hn
    by_cases hne : n = slot
    · subst hne
      exact ⟨isApplicable_of_resolve hr, by simp [LocalCopy.withDeleted]⟩
    · obtain ⟨happlicable, hnone⟩ := h.deleted n (hn.resolve_left hne)
      exact ⟨happlicable, by simpa [LocalCopy.withDeleted, hne] using hnone⟩

theorem Accounted.withAssigned (h : Accounted o) (hr : o.resolve p = .ok (slot, q)) (v : Value) :
    Accounted (o.withAssigned slot v) := by
  refine ⟨h.tied.withAssigned slot v, ?_, ?_⟩
  · intro n hn
    simp only [LocalCopy.withAssigned, SlotSet.contains_insert, Bool.or_eq_true, beq_iff_eq] at hn
    by_cases hne : n = slot
    · subst hne
      exact ⟨isApplicable_of_resolve hr, by simp [LocalCopy.withAssigned]⟩
    · obtain ⟨happlicable, hheld⟩ := h.changed n (hn.imp_left (·.resolve_left hne))
      exact ⟨happlicable, by simpa [LocalCopy.withAssigned, hne] using hheld⟩
  · intro n hn
    simp only [LocalCopy.withAssigned, SlotSet.contains_erase, Bool.and_eq_true, bne_iff_ne] at hn
    obtain ⟨happlicable, hnone⟩ := h.deleted n hn.2
    exact ⟨happlicable, by simpa [LocalCopy.withAssigned, hn.1] using hnone⟩

theorem Outcome.accounted {op : Operation} {event : Option Event}
    (ho : Outcome cat o op event o') (h : Accounted o) : Accounted o' := by
  cases ho with
  | failed => exact h
  | deleted _ _ hr => exact h.withDeleted hr
  | assigned _ hr => exact h.withAssigned hr _
  | refused hi => exact h.instantiate hi
  | edited hi hv hp => exact h.inPlace (.stored hi hv (Value.own_perform hp))
  | cleared => exact .clear o
  | loaded content clearFirst asked summary =>
    have htied : Tied (o.load cat content clearFirst asked summary).state :=
      Tied.load h.tied content clearFirst asked summary
    obtain ⟨w, -, hstate | hstate⟩ := load_state cat o content clearFirst asked summary
    · rw [hstate]
      exact .clear w
    · rw [hstate] at htied ⊢
      exact .of_tied htied rfl rfl rfl
  | saved => exact .of_tied (Tied.markSaved h.tied) rfl rfl rfl

theorem Reachable.accounted (h : Reachable cat ∅ o o') (ho : Accounted o) : Accounted o' := by
  refine h.invariant (fun o op => (perform_outcome cat o op).accounted) (fun hp h => h.inPlace hp)
    ?_ (fun _ _ h => ⟨h.tied, h.changed, h.deleted⟩) ho
  intro o signals hstray ho
  obtain rfl : signals = [] := List.eq_nil_iff_forall_not_mem.mpr fun s hs => hstray s hs
  exact ho

theorem itemOps_eq_nil_iff {c : Collection} : itemOps q c = [] ↔ c.hasChanges = false := by
  refine ⟨?_, fun h => itemOps_of_unchanged h q⟩
  intro h
  simp only [itemOps, List.append_eq_nil_iff, List.map_eq_nil_iff, Collection.added,
    Collection.removedPositions, Collection.modified, List.filter_eq_nil_iff,
    List.filterMap_eq_nil_iff, List.mem_filter, Option.map_eq_none_iff, and_imp] at h
  obtain ⟨⟨hadded, hremoved⟩, hmodified⟩ := h
  have hremoved' : c.removed = [] := by
    simpa using congrArg List.length hremoved
  simp only [Collection.hasChanges, hremoved', List.isEmpty_nil, Bool.not_true, Bool.false_or,
    List.any_eq_false, Bool.or_eq_true, not_or]
  intro e he
  refine ⟨hadded e he, ?_⟩
  intro hm
  exact hadded e he (by simp [hmodified e he hm])

theorem Accounted.isApplicable (h : Accounted o) (hdirty : o.isDirty slot = true) :
    o.type.isApplicable o.version slot = true := by
  simp only [isDirty, Bool.or_eq_true] at hdirty
  rcases hdirty with (ha | hd) | ht
  · exact (h.changed slot (.inl ha)).1
  · exact (h.deleted slot hd).1
  · exact (h.changed slot (.inr ht)).1

/-- A noted slot has nothing to send exactly if its changes have cancelled out. -/
theorem Accounted.slotOps_eq_nil_iff (h : Accounted o) (hdirty : o.isDirty slot = true)
    (hq : o.type.property? slot = some q) : o.slotOps slot q = [] ↔ CancelledOut o slot := by
  obtain ⟨q', hq', happlicable⟩ := ObjectType.isApplicable_iff.mp (h.isApplicable hdirty)
  obtain rfl := Option.some.inj (hq.symm.trans hq')
  cases hdeleted : o.deleted.contains slot with
  | true =>
    have hnone := (h.deleted slot hdeleted).2
    simp [slotOps, CancelledOut, happlicable, hdeleted, hnone]
  | false =>
    have hchanged : o.assigned.contains slot = true ∨ o.touched.contains slot = true := by
      simpa [isDirty, hdeleted] using hdirty
    obtain ⟨-, v, hv⟩ := h.changed slot hchanged
    have hnoted : (!o.assigned.contains slot && !o.touched.contains slot) = false := by
      rcases hchanged with h | h <;> simp [h]
    cases v with
    | collection c =>
      have hops : o.slotOps slot q =
          if !o.assigned.contains slot && o.sendsItems q c then itemOps q c
          else if c.entries.isEmpty then [.delete q] else [.set q (.collection c)] := by
        simp only [slotOps, happlicable, hdeleted, hnoted, hv, Bool.not_true, Bool.false_eq_true,
          if_false]
      rw [hops]
      cases hitems : !o.assigned.contains slot && o.sendsItems q c with
      | true =>
        rw [Bool.and_eq_true, Bool.not_eq_true'] at hitems
        simp [CancelledOut, hv, hitems, hq, itemOps_eq_nil_iff]
      | false =>
        have hnot : ¬ CancelledOut o slot := by
          rintro ⟨q', c', hq', hc', hassigned, hsends, -⟩
          obtain rfl := Option.some.inj (hq.symm.trans hq')
          obtain rfl := Value.collection.inj (Option.some.inj (hv.symm.trans hc'))
          simp [hassigned, hsends] at hitems
        simp only [hnot, Bool.false_eq_true, if_false, iff_false]
        cases c.entries.isEmpty <;> simp
    | _ => simp [slotOps, happlicable, hdeleted, hnoted, CancelledOut, hv]

/-- Nothing is sent exactly if the changes of every noted slot have cancelled out. -/
theorem Accounted.payload_eq_nil_iff (h : Accounted o) :
    o.payload = [] ↔ ∀ slot, o.isDirty slot = true → CancelledOut o slot := by
  have hpayload : o.payload = [] ↔
      ∀ slot q, o.type.property? slot = some q → o.slotOps slot q = [] := by
    simp only [List.eq_nil_iff_forall_not_mem, mem_payload_iff, not_exists, not_and]
    exact ⟨fun h slot q hq op => h op slot q hq, fun h op slot q hq => h slot q hq op⟩
  rw [hpayload]
  constructor
  · intro hnone slot hdirty
    obtain ⟨q, hq, -⟩ := ObjectType.isApplicable_iff.mp (h.isApplicable hdirty)
    exact (h.slotOps_eq_nil_iff hdirty hq).mp (hnone slot q hq)
  · intro hcancelled slot q hq
    cases hdirty : o.isDirty slot with
    | true => exact (h.slotOps_eq_nil_iff hdirty hq).mpr (hcancelled slot hdirty)
    | false => exact slotOps_of_clean hdirty q

/-- That an update is needed and that there is something to send is the same exactly as long as the
changes of some noted slot, if there is one, have not cancelled out. -/
theorem Reachable.needsUpdate_iff_payload {id : Nat} {type : ObjectType} {session : Session}
    (h : Reachable cat ∅ (new id type session) o) :
    (o.needsUpdate = true ↔ o.payload ≠ []) ↔
      (o.needsUpdate = true → ∃ slot, o.isDirty slot = true ∧ ¬ CancelledOut o slot) := by
  have hpayload : o.payload ≠ [] ↔ ∃ slot, o.isDirty slot = true ∧ ¬ CancelledOut o slot := by
    rw [Ne, (h.accounted (.clear (new id type session))).payload_eq_nil_iff]
    simp
  rw [hpayload]
  refine ⟨Iff.mp, fun hsome => ⟨hsome, ?_⟩⟩
  rintro ⟨slot, hdirty, -⟩
  exact needsUpdate_iff.mpr ⟨slot, hdirty⟩

def uninvited : LocalCopy :=
  smallMeeting.run (Mail.catalog [])
    [.edit Mail.Calendar.requiredAttendees (.collection (.push (Mail.invitee "Tentative"))),
      .edit Mail.Calendar.requiredAttendees (.collection (.remove 1))]

theorem uninvited_reachable :
    Reachable (Mail.catalog []) ∅ (new 0 Mail.Calendar.type Mail.session) uninvited :=
  ((Reachable.same.perform _).perform _).perform _

theorem uninvited_needsUpdate_iff_payload :
    Reachable (Mail.catalog []) ∅ (new 0 Mail.Calendar.type Mail.session) uninvited ∧
    ((uninvited.needsUpdate = true ↔ uninvited.payload ≠ []) ↔
      (uninvited.needsUpdate = true →
        ∃ slot, uninvited.isDirty slot = true ∧ ¬ CancelledOut uninvited slot)) :=
  ⟨uninvited_reachable, uninvited_reachable.needsUpdate_iff_payload⟩

/-- The list is as it was loaded and counts as modified. -/
theorem uninvited_nothing_to_send :
    Reachable (Mail.catalog []) ∅ (new 0 Mail.Calendar.type Mail.session) uninvited ∧
    uninvited.needsUpdate = true ∧ uninvited.payload = [] ∧
    ¬ (uninvited.needsUpdate = true ↔ uninvited.payload ≠ []) := by
  have hneeds : uninvited.needsUpdate = true := by decide
  have hpayload : uninvited.payload = [] := by
    rw [← List.isEmpty_iff]
    decide +kernel
  exact ⟨uninvited_reachable, hneeds, hpayload, fun h => h.mp hneeds hpayload⟩

end LocalCopy

end ObjectTracking
