import ObjectTracking.Proofs.LocalCopy.Failure
import ObjectTracking.Proofs.LocalCopy.Reported
/-!
Values taken out of a copy: copies of what can be read there, and items removed from collections.
They report to nobody, whatever is done to them, but for one kind: the copy of a collection keeps
the link of the original, so that its changes count as changes of the property it was copied from.
-/
set_option autoImplicit false

namespace ObjectTracking

namespace Value
variable {cat : Catalog} {v : Value} {k : Option Link}

def link? : Value → Option Link
  | composite c => c.link
  | collection c => c.link
  | _ => none

def edited (cat : Catalog) (v : Value) (e : ValueEdit) : Edited Value Unit :=
  (v.perform cat e).getD (.done () v none)

def signals (cat : Catalog) (v : Value) : List ValueEdit → List Link
  | [] => []
  | e :: es => (v.edited cat e).signals ++ (v.edited cat e).state.signals cat es

def changed (cat : Catalog) (v : Value) : List ValueEdit → Bool
  | [] => false
  | e :: es => v.changes cat e || (v.edited cat e).state.changed cat es

theorem ReportsTo.edited (h : v.ReportsTo k) (cat : Catalog) (e : ValueEdit) :
    (v.edited cat e).state.ReportsTo k ∧
      ∀ s, s ∈ (v.edited cat e).signals ↔ k = some s ∧ v.changes cat e = true := by
  unfold Value.edited
  cases hr : v.perform cat e with
  | none => exact ⟨h, by simp [LocalCopy.perform_eq_none_changes hr]⟩
  | some r => exact ⟨h.perform hr, h.mem_signals_perform hr⟩

/-- A value reports, and through its own link only, if any of some edits counts as a change. -/
theorem ReportsTo.mem_signals (h : v.ReportsTo k) (es : List ValueEdit) (s : Link) :
    s ∈ v.signals cat es ↔ k = some s ∧ v.changed cat es = true := by
  induction es generalizing v with
  | nil => simp [signals, changed]
  | cons e es ih =>
    obtain ⟨hstate, hsignals⟩ := h.edited cat e
    simp only [signals, changed, List.mem_append, hsignals, ih hstate, Bool.or_eq_true, and_or_left]

end Value

namespace LocalCopy
variable {cat : Catalog} {o b : LocalCopy} {slot : Nat} {signals : List Link}

/-- A value that a caller has got out of a copy as its own. -/
inductive TakenOut (cat : Catalog) (o : LocalCopy) : Value → Prop where
  | copied (p : Property) (path : List Step) {held v : Value} (read : o.get p = .ok held)
      (found : held.follow cat path = .ok (some v)) : TakenOut cat o v.copy
  | removed (c : Collection) (ix : Nat) {item : Composite}
      (taken : (c.remove ix).result = .ok (some item)) : TakenOut cat o (.composite item)

/-- Nothing that can be asked of a copy is another answer for what was reported, and its owner has
not heard of it. -/
structure LeavesAlone (cat : Catalog) (b : LocalCopy) (signals : List Link) : Prop where
  dirty : ∀ slot, (b.hear signals).isDirty slot = b.isDirty slot
  indistinct : Indistinct cat (b.hear signals) b
  needsUpdate : (b.hear signals).needsUpdate = b.needsUpdate
  payload : (b.hear signals).payload = b.payload
  unheard : (b.heard signals).1 = []

/-- What is taken out is the copy of a collection, or it reports to nobody. -/
theorem TakenOut.copy_or_silent {v : Value} (h : TakenOut cat o v) :
    (∃ c : Collection, v = .collection c.copy) ∨
      v.collection? = none ∧ v.link? = none ∧ v.ReportsTo none := by
  have hdetached : ∀ c : Composite, (Value.composite (c.attach none)).link? = none := by
    rintro ⟨l, k, fs⟩
    rfl
  cases h with
  | @copied p path held v read found =>
    cases v with
    | null => exact .inr ⟨rfl, rfl, trivial⟩
    | scalar s => exact .inr ⟨rfl, rfl, trivial⟩
    | composite c => exact .inr ⟨rfl, hdetached c, Composite.attach_attach ..⟩
    | collection c => exact .inl ⟨c, rfl⟩
  | removed c ix taken =>
    cases hix : c.entries[ix]? with
    | none => simp [Collection.remove, hix] at taken
    | some e =>
      obtain rfl : e.value.attach none = _ := by simpa [Collection.remove, hix] using taken
      exact .inr ⟨rfl, hdetached e.value, Composite.attach_attach ..⟩

theorem TakenOut.link?_eq_some_iff {v : Value} (h : TakenOut cat o v) {l : Link} :
    v.link? = some l ↔ ∃ c, v = .collection c ∧ c.link = some l := by
  rcases h.copy_or_silent with ⟨c, rfl⟩ | ⟨hcollection, hlink, -⟩
  · simp [Value.link?]
  · rw [hlink]
    constructor
    · intro hl
      cases hl
    · rintro ⟨c, rfl, -⟩
      cases hcollection

theorem TakenOut.reportsTo {v : Value} (h : TakenOut cat o v) : v.ReportsTo v.link? := by
  rcases h.copy_or_silent with ⟨c, rfl⟩ | ⟨-, hlink, hsilent⟩
  · refine ⟨rfl, ?_⟩
    intro e he
    obtain ⟨e, -, rfl⟩ := List.mem_map.mp he
    exact .inr (Composite.attach_attach ..)
  · rw [hlink]
    exact hsilent

@[simp] theorem hear_type (b : LocalCopy) (signals : List Link) :
    (b.hear signals).type = b.type := rfl
@[simp] theorem hear_version (b : LocalCopy) (signals : List Link) :
    (b.hear signals).version = b.version := rfl
@[simp] theorem hear_session (b : LocalCopy) (signals : List Link) :
    (b.hear signals).session = b.session := rfl
@[simp] theorem hear_values (b : LocalCopy) (signals : List Link) :
    (b.hear signals).values = b.values := rfl
@[simp] theorem hear_assigned (b : LocalCopy) (signals : List Link) :
    (b.hear signals).assigned = b.assigned := rfl
@[simp] theorem hear_deleted (b : LocalCopy) (signals : List Link) :
    (b.hear signals).deleted = b.deleted := rfl
@[simp] theorem hear_sendsItems (b : LocalCopy) (signals : List Link) (q : Property)
    (c : Collection) : (b.hear signals).sendsItems q c = b.sendsItems q c := rfl

theorem isDirty_hear : (b.hear signals).isDirty slot = true ↔
    b.isDirty slot = true ∨ b.link slot ∈ signals := by
  have htouched := contains_touched_hear b signals slot
  simp only [isDirty, Bool.or_eq_true, htouched]
  exact or_assoc.symm

theorem needsUpdate_iff : b.needsUpdate = true ↔ ∃ slot, b.isDirty slot = true := by
  have hempty : b.needsUpdate = false ↔ ∀ slot, b.isDirty slot = false := by
    simp only [needsUpdate, isDirty, Bool.or_eq_false_iff, Bool.not_eq_false', SlotSet.isEmpty_iff,
      forall_and]
  rw [← not_iff_not]
  simpa using hempty

theorem encodeMembers_hear (ctx : WriteContext) (written : List String)
    (members : List (Property × Nat)) :
    (b.hear signals).encodeMembers cat ctx written members =
      b.encodeMembers cat ctx written members := by
  induction members generalizing written with
  | nil => rfl
  | cons m members ih =>
    obtain ⟨q, slot⟩ := m
    simp only [encodeMembers, ih]
    rfl

section Dirty
variable (h : ∀ slot, (b.hear signals).isDirty slot = b.isDirty slot)
include h

theorem slotOps_hear (slot : Nat) (q : Property) :
    (b.hear signals).slotOps slot q = b.slotOps slot q := by
  have hslot := h slot
  cases hd : b.deleted.contains slot with
  | true => simp [slotOps, hd]
  | false =>
    cases ha : b.assigned.contains slot with
    | true => simp [slotOps, hd, ha]
    | false =>
      have htouched : (b.hear signals).touched.contains slot = b.touched.contains slot := by
        simpa [isDirty, hd, ha] using hslot
      simp [slotOps, hd, ha, htouched]

theorem payload_hear : (b.hear signals).payload = b.payload := by
  simp only [payload, hear_type, slotOps_hear h]

theorem encode_hear (isUpdate : Bool) :
    (b.hear signals).encode cat isUpdate = b.encode cat isUpdate := by
  cases isUpdate with
  | false =>
    change (b.hear signals).encodeCreate cat = b.encodeCreate cat
    simp only [encodeCreate, hear_type, hear_session, encodeMembers_hear]
  | true =>
    have hzone : ∀ q, (b.hear signals).linkedZone cat q = b.linkedZone cat q := by
      intro q
      simp only [linkedZone, hear_type, hear_values, h]
    change (b.hear signals).encodeUpdate cat = b.encodeUpdate cat
    simp only [encodeUpdate, payload_hear h, hear_type, hear_session, hzone]

theorem needsUpdate_hear : (b.hear signals).needsUpdate = b.needsUpdate := by
  rw [Bool.eq_iff_iff, needsUpdate_iff, needsUpdate_iff]
  simp only [h]

theorem indistinct_hear : Indistinct cat (b.hear signals) b where
  contains _ := rfl
  loaded _ := rfl
  modified p := by simp only [isModified, slotIs, hear_type, funext h]
  deleted _ := rfl
  isNew := rfl
  get _ := rfl
  encode := encode_hear h

end Dirty

/-- What is reported leaves a copy alone exactly if, of what is for it, nobody hears and nothing is
news. -/
theorem leavesAlone_iff_forall : LeavesAlone cat b signals ↔
    ∀ slot, b.link slot ∈ signals → b.watched = false ∧ b.isDirty slot = true := by
  constructor
  · intro h slot hslot
    have hown : b.link slot ∈ signals.filter (·.copy == b.id) :=
      List.mem_filter.mpr ⟨hslot, by simp [link]⟩
    refine ⟨?_, by rw [← h.dirty]; exact isDirty_hear.mpr (.inr hslot)⟩
    cases hw : b.watched with
    | false => rfl
    | true =>
      have hnil : signals.filter (·.copy == b.id) = [] := by
        simpa [LocalCopy.heard, hw, List.partition_eq_filter_filter] using h.unheard
      rw [hnil] at hown
      cases hown
  · intro h
    have hdirty : ∀ slot, (b.hear signals).isDirty slot = b.isDirty slot := by
      intro slot
      rw [Bool.eq_iff_iff, isDirty_hear]
      exact or_iff_left_of_imp fun hslot => (h slot hslot).2
    refine ⟨hdirty, indistinct_hear hdirty, needsUpdate_hear hdirty, payload_hear hdirty, ?_⟩
    cases hw : b.watched with
    | false => simp [LocalCopy.heard, hw]
    | true =>
      have hstray : ∀ s ∈ signals, s.copy ≠ b.id := by
        rintro ⟨copy, slot⟩ hs rfl
        rw [(h slot hs).1] at hw
        cases hw
      exact (hear_of_ne hstray).2

/-- A value that was taken out leaves a copy alone, the one it was taken from or any other, unless it
is a collection that reports to one of its slots still, was changed, and either somebody hears of that
or the slot was not dirty. -/
theorem TakenOut.leavesAlone_iff {v : Value} (h : TakenOut cat o v) (es : List ValueEdit) :
    LeavesAlone cat b (v.signals cat es) ↔
      ∀ c slot, v = .collection c → c.link = some (b.link slot) → v.changed cat es = true →
        b.watched = false ∧ b.isDirty slot = true := by
  simp only [leavesAlone_iff_forall, h.reportsTo.mem_signals, h.link?_eq_some_iff, and_imp,
    forall_exists_index]
  exact forall_comm

def guests : Value :=
  ((smallMeeting.get Mail.Calendar.requiredAttendees).toOption.getD .null).copy

def onePlus : List ValueEdit := [.collection (.push (Mail.invitee "Tentative"))]

theorem guests_takenOut : TakenOut (Mail.catalog []) smallMeeting guests :=
  .copied Mail.Calendar.requiredAttendees [] rfl rfl

theorem guests_leavesAlone_iff : TakenOut (Mail.catalog []) smallMeeting guests ∧
    (LeavesAlone (Mail.catalog []) smallMeeting (guests.signals (Mail.catalog []) onePlus) ↔
      ∀ c slot, guests = .collection c → c.link = some (smallMeeting.link slot) →
        guests.changed (Mail.catalog []) onePlus = true →
          smallMeeting.watched = false ∧ smallMeeting.isDirty slot = true) :=
  ⟨guests_takenOut, guests_takenOut.leavesAlone_iff onePlus⟩

/-- The list in the meeting is as it was, and yet the property counts as modified. -/
theorem guests_modify_meeting :
    Becomes (Mail.catalog []) (new 0 Mail.Calendar.type Mail.session) smallMeeting ∧
    TakenOut (Mail.catalog []) smallMeeting guests ∧
    smallMeeting.isModified Mail.Calendar.requiredAttendees = false ∧
    (smallMeeting.hear (guests.signals (Mail.catalog []) onePlus)).isModified
      Mail.Calendar.requiredAttendees = true ∧
    ¬ LeavesAlone (Mail.catalog []) smallMeeting (guests.signals (Mail.catalog []) onePlus) := by
  have hafter : (smallMeeting.hear (guests.signals (Mail.catalog []) onePlus)).isModified
      Mail.Calendar.requiredAttendees = true := by decide
  have hbefore : smallMeeting.isModified Mail.Calendar.requiredAttendees = false := by decide
  refine ⟨Becomes.same.perform _, guests_takenOut, hbefore, hafter, ?_⟩
  intro h
  rw [h.indistinct.modified, hbefore] at hafter
  cases hafter

end LocalCopy

end ObjectTracking
