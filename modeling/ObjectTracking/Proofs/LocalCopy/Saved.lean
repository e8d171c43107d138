import ObjectTracking.Proofs.LocalCopy.Agreement
import ObjectTracking.Proofs.LocalCopy.Invariant
import ObjectTracking.Proofs.LocalCopy.Reachable
import ObjectTracking.Proofs.LocalCopy.TakenOut
/-!
What saving settles. Nothing is left to send, the values stay, and what was assigned or deleted counts
as loaded. A property that was only changed in place is forgotten: after the save it counts as loaded
if it did so before.
-/
set_option autoImplicit false

namespace ObjectTracking
open Markup

/-- Two values of the same content: what a collection notes of its items is no part of it. -/
def Value.SameContent : Value → Value → Prop
  | .collection c, .collection d =>
    c.layout = d.layout ∧ c.element = d.element ∧ c.items = d.items
  | v, w => v = w

theorem Collection.markSaved_markSaved (c : Collection) : c.markSaved.markSaved = c.markSaved := by
  simp [markSaved, List.mapIdx_mapIdx, Function.comp_def]

namespace LocalCopy
variable {cat : Catalog} {strays : Set Link} {o o' : LocalCopy} {p q : Property} {slot : Nat}

/-- Whatever callers can ask of a copy, they find it settled after a save. -/
structure Settles (o : LocalCopy) : Prop where
  needsUpdate : o.markSaved.needsUpdate = false
  payload : o.markSaved.payload = []
  modified : ∀ p, o.markSaved.isModified p = false
  deleted : ∀ p, o.markSaved.isDeleted p = false
  changes : ∀ slot c, o.markSaved.values.get? slot = some (.collection c) → c.hasChanges = false
  isNew : o.markSaved.isNew = false
  kept : ∀ slot v, o.values.get? slot = some v →
    ∃ w, o.markSaved.values.get? slot = some w ∧ v.SameContent w
  /-- Whatever was assigned, deleted or changed in place counts as loaded. -/
  loaded : ∀ p, o.isModified p = true → o.markSaved.isLoaded p = true
  readable : ∀ p, o.isModified p = true → ∃ v, o.markSaved.get p = .ok v
  again : o.markSaved.markSaved = o.markSaved

def Survives (o : LocalCopy) (slot : Nat) : Prop :=
  o.loaded.contains slot = true ∨ o.assigned.contains slot = true ∨ o.deleted.contains slot = true

/-- The version knows every property that was loaded, assigned or deleted. -/
def Found (o : LocalCopy) : Prop :=
  ∀ slot, o.Survives slot → o.type.isApplicable o.version slot = true

theorem isApplicable_of_resolve (h : o.resolve p = .ok (slot, q)) :
    o.type.isApplicable o.version slot = true := by
  obtain ⟨-, hq, happlicable⟩ := resolve_eq_ok_iff.mp h
  exact ObjectType.isApplicable_iff.mpr ⟨q, hq, happlicable⟩

theorem Found.clear (o : LocalCopy) : Found o.clear := by
  simp [Found, Survives, LocalCopy.clear]

theorem Found.inPlace (h : Found o) (hp : InPlace o o') : Found o' := by
  have hframe : Found { o' with values := o.values, touched := o.touched } := by rwa [hp.frame]
  exact hframe

theorem Found.withDeleted (h : Found o) (hr : o.resolve p = .ok (slot, q)) :
    Found (o.withDeleted slot) := by
  intro n hn
  simp only [Survives, LocalCopy.withDeleted, SlotSet.contains_erase, SlotSet.contains_insert,
    Bool.and_eq_true, Bool.or_eq_true, beq_iff_eq] at hn
  rcases hn with hn | ⟨-, hn⟩ | rfl | hn
  · exact h n (.inl hn)
  · exact h n (.inr (.inl hn))
  · exact isApplicable_of_resolve hr
  · exact h n (.inr (.inr hn))

theorem Found.withAssigned (h : Found o) (hr : o.resolve p = .ok (slot, q)) (v : Value) :
    Found (o.withAssigned slot v) := by
  intro n hn
  simp only [Survives, LocalCopy.withAssigned, SlotSet.contains_erase, SlotSet.contains_insert,
    Bool.and_eq_true, Bool.or_eq_true, beq_iff_eq] at hn
  rcases hn with hn | (rfl | hn) | ⟨-, hn⟩
  · exact h n (.inl hn)
  · exact isApplicable_of_resolve hr
  · exact h n (.inr (.inl hn))
  · exact h n (.inr (.inr hn))

theorem contains_loaded_markSaved : o.markSaved.loaded.contains slot = true ↔ o.Survives slot := by
  simp only [markSaved, SlotSet.contains_union, Bool.or_eq_true, Survives, or_assoc]

theorem Found.markSaved (h : Found o) : Found o.markSaved := by
  intro n hn
  rcases hn with hn | hn | hn
  · exact h n (contains_loaded_markSaved.mp hn)
  · simp [LocalCopy.markSaved] at hn
  · simp [LocalCopy.markSaved] at hn

theorem Found.loadSlot (h : Found o) (hslot : o.type.isApplicable o.version slot = true)
    (q : Property) (tag : Tag) (content : Forest) :
    Found (o.loadSlot cat slot q tag content).state := by
  obtain ⟨v, -, hstate⟩ := loadSlot_eq cat o slot q tag content
  rw [hstate]
  intro n hn
  simp only [Survives, SlotSet.contains_insert, Bool.or_eq_true, beq_iff_eq] at hn
  rcases hn with (rfl | hn) | hn
  · exact hslot
  · exact h n (.inl hn)
  · exact h n (.inr hn)

theorem Found.load (h : Found o) (content : Forest) (clearFirst : Bool) (asked : PropertySet)
    (summary : Bool) : Found (o.load cat content clearFirst asked summary).state := by
  refine load_induction (P := Found) .clear ?_ ?_ h content clearFirst asked summary
  · intro o slot q tag content hq happlicable ho
    exact ho.loadSlot (ObjectType.isApplicable_iff.mpr ⟨q, hq, happlicable⟩) q tag content
  · intro o asked summary ho n hn
    simp only [Survives, SlotSet.contains_union, SlotSet.contains_empty, Bool.or_eq_true,
      Bool.false_eq_true, or_false] at hn
    rcases hn with hn | hn
    · exact ho n (.inl hn)
    · exact ObjectType.isApplicable_of_requested hn

theorem Outcome.found {op : Operation} {event : Option Event} (ho : Outcome cat o op event o')
    (h : Found o) : Found o' := by
  cases ho with
  | failed => exact h
  | deleted _ _ hr => exact h.withDeleted hr
  | assigned _ hr => exact h.withAssigned hr _
  | refused hi => exact h.inPlace (.reached hi)
  | edited hi hv hp => exact h.inPlace (.stored hi hv (Value.own_perform hp))
  | cleared => exact .clear o
  | loaded content clearFirst asked summary => exact h.load content clearFirst asked summary
  | saved => exact h.markSaved

theorem Reachable.found (h : Reachable cat strays o o') (ho : Found o) : Found o' :=
  h.invariant (fun o op => (perform_outcome cat o op).found) (fun hp h => h.inPlace hp)
    (fun _ _ _ h => h) (fun _ _ h => h) ho

@[simp] theorem isDirty_markSaved (o : LocalCopy) (slot : Nat) :
    o.markSaved.isDirty slot = false := by
  simp [isDirty, markSaved]

theorem slotOps_of_clean (h : o.isDirty slot = false) (q : Property) : o.slotOps slot q = [] := by
  simp only [isDirty, Bool.or_eq_false_iff] at h
  simp [slotOps, h]

theorem payload_of_clean (h : ∀ slot, o.isDirty slot = false) : o.payload = [] := by
  rw [payload, List.flatMap_eq_nil_iff]
  rintro ⟨q, slot⟩ -
  exact slotOps_of_clean (h slot) q

theorem settled_settled (v : Value) : settled (settled v) = settled v := by
  cases v with
  | collection c => exact congrArg Value.collection c.markSaved_markSaved
  | _ => rfl

theorem sameContent_settled (v : Value) : v.SameContent (settled v) := by
  cases v with
  | collection c => exact ⟨rfl, rfl, c.items_markSaved.symm⟩
  | _ => rfl

theorem markSaved_markSaved (o : LocalCopy) : o.markSaved.markSaved = o.markSaved := by
  have hvalues : (o.values.map settled).map settled = o.values.map settled := by
    ext1
    funext slot
    simp [Function.comp_def, settled_settled]
  have hunion : ∀ s : SlotSet, s ∪ ∅ ∪ ∅ = s := by
    intro s
    simp [Union.union, SlotSet.union, EmptyCollection.emptyCollection, SlotSet.empty]
  simp only [markSaved, hvalues, hunion]

theorem read_of_loaded (hdeleted : o.deleted.contains slot = false)
    (hloaded : o.loaded.contains slot = true) (q : Property) : ∃ v, o.read slot q = .ok v := by
  unfold read
  cases o.values.get? slot with
  | some v => exact ⟨v, rfl⟩
  | none =>
    cases q.default? with
    | some v => exact ⟨v, by simp [hdeleted]⟩
    | none => exact ⟨.null, by simp [hdeleted, hloaded]⟩

theorem Found.get_markSaved (h : Found o) (hslot : o.type.slotOf? p = some slot)
    (hsurvives : o.Survives slot) : ∃ v, o.markSaved.get p = .ok v := by
  obtain ⟨q, hq, happlicable⟩ := ObjectType.isApplicable_iff.mp (h slot hsurvives)
  have hresolve : o.markSaved.resolve p = .ok (slot, q) :=
    resolve_eq_ok_iff.mpr ⟨hslot, hq, happlicable⟩
  obtain ⟨v, hv⟩ := read_of_loaded (SlotSet.contains_empty slot) (contains_loaded_markSaved.mpr hsurvives) q
  refine ⟨v, ?_⟩
  simp only [get, hresolve, bind, Except.bind]
  exact hv

theorem Found.settles (h : Found o)
    (hinPlace : ∀ p slot, o.type.slotOf? p = some slot → o.touched.contains slot = true →
      o.Survives slot) : Settles o := by
  have hsurvives : ∀ p, o.isModified p = true →
      ∃ slot, o.type.slotOf? p = some slot ∧ o.Survives slot := by
    intro p hp
    obtain ⟨slot, hslot, hdirty⟩ := (Option.any_eq_true _ _).mp hp
    simp only [isDirty, Bool.or_eq_true] at hdirty
    refine ⟨slot, hslot, ?_⟩
    rcases hdirty with (ha | hd) | ht
    · exact .inr (.inl ha)
    · exact .inr (.inr hd)
    · exact hinPlace p slot hslot ht
  have hdeleted : ∀ slot, o.markSaved.deleted.contains slot = false := SlotSet.contains_empty
  refine ⟨?_, payload_of_clean o.isDirty_markSaved, ?_, ?_, ?_, rfl, ?_, ?_, ?_,
    markSaved_markSaved o⟩
  · cases hneeds : o.markSaved.needsUpdate with
    | false => rfl
    | true =>
      obtain ⟨slot, hdirty⟩ := needsUpdate_iff.mp hneeds
      simp at hdirty
  · exact isModified_of_clean rfl rfl rfl
  · intro p
    cases hslot : o.markSaved.type.slotOf? p <;> simp [isDeleted, slotIs, hslot, hdeleted]
  · exact fun slot c => unchanged_markSaved
  · intro slot v hv
    exact ⟨settled v, Option.map_eq_some_iff.mpr ⟨v, hv, rfl⟩, sameContent_settled v⟩
  · intro p hp
    obtain ⟨slot, hslot, hslot'⟩ := hsurvives p hp
    exact (Option.any_eq_true _ _).mpr ⟨slot, hslot, contains_loaded_markSaved.mpr hslot'⟩
  · intro p hp
    obtain ⟨slot, hslot, hslot'⟩ := hsurvives p hp
    exact h.get_markSaved hslot hslot'

/-- A save settles a copy exactly if every property that was changed in place was loaded, assigned or
deleted. -/
theorem Reachable.settles_iff {id : Nat} {type : ObjectType} {session : Session}
    (h : Reachable cat strays (new id type session) o) :
    Settles o ↔ ∀ p slot, o.type.slotOf? p = some slot → o.touched.contains slot = true →
      o.Survives slot := by
  constructor
  · intro hsettles p slot hslot htouched
    have hmodified : o.isModified p = true :=
      (Option.any_eq_true _ _).mpr ⟨slot, hslot, by simp [isDirty, htouched]⟩
    obtain ⟨slot', hslot', hloaded⟩ := (Option.any_eq_true _ _).mp (hsettles.loaded p hmodified)
    obtain rfl : slot = slot' := Option.some.inj (hslot.symm.trans hslot')
    exact contains_loaded_markSaved.mp hloaded
  · exact (h.found (.clear (new id type session))).settles

/-- Somebody is invited to a new meeting. The list of those invited is created for it. -/
def invited : LocalCopy :=
  ((new 0 Mail.Calendar.type Mail.session).perform (Mail.catalog [])
    (.edit Mail.Calendar.requiredAttendees
      (.collection (.push (Mail.invitee "Tentative"))))).state

theorem invited_settles_iff :
    Reachable (Mail.catalog []) ∅ (new 0 Mail.Calendar.type Mail.session) invited ∧
    (Settles invited ↔ ∀ p slot, invited.type.slotOf? p = some slot →
      invited.touched.contains slot = true → invited.Survives slot) :=
  have hreachable : Reachable (Mail.catalog []) ∅ (new 0 Mail.Calendar.type Mail.session) invited :=
    Reachable.same.perform _
  ⟨hreachable, hreachable.settles_iff⟩

/-- The list counts as modified before the save and not as loaded after it. -/
theorem invited_forgotten :
    Reachable (Mail.catalog []) ∅ (new 0 Mail.Calendar.type Mail.session) invited ∧
    invited.isModified Mail.Calendar.requiredAttendees = true ∧
    invited.markSaved.isLoaded Mail.Calendar.requiredAttendees = false ∧ ¬ Settles invited := by
  have hmodified : invited.isModified Mail.Calendar.requiredAttendees = true := by decide
  have hloaded : invited.markSaved.isLoaded Mail.Calendar.requiredAttendees = false := by decide
  refine ⟨Reachable.same.perform _, hmodified, hloaded, ?_⟩
  intro h
  rw [h.loaded _ hmodified] at hloaded
  cases hloaded

end LocalCopy

end ObjectTracking
