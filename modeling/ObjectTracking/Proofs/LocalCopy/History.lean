import ObjectTracking.Proofs.LocalCopy.Sound
import ObjectTracking.Proofs.Mail
import ObjectTracking.Proofs.Property
/-!
The payload as a function of the history. What was last done to a slot as a whole since everything
was last settled decides how the slot is sent; failing that, whether its value was changed in place.
The slots that a copy notes say no more than this.
-/
set_option autoImplicit false

namespace ObjectTracking
open Markup

inductive Whole where
  | assigned
  | deleted
  deriving DecidableEq, Repr

namespace Event

/-- What was done since everything was last settled, the latest first. -/
def recent (events : List Event) : List Event := events.reverse.takeWhile (· ≠ .settled)

def whole? (slot : Nat) : Event → Option Whole
  | assigned n => if n = slot then some .assigned else none
  | deleted n => if n = slot then some .deleted else none
  | _ => none

def lastWhole (events : List Event) (slot : Nat) : Option Whole :=
  (recent events).findSome? (whole? slot)

def editedInPlace (events : List Event) (slot : Nat) : Bool :=
  (recent events).contains (.edited slot)

variable {events : List Event} {event : Event} {slot : Nat}

theorem recent_concat_settled (events : List Event) : recent (events ++ [settled]) = [] := by
  simp [recent]

theorem recent_concat (h : event ≠ settled) : recent (events ++ [event]) = event :: recent events := by
  simp [recent, h]

@[simp] theorem lastWhole_settled (events : List Event) (slot : Nat) :
    lastWhole (events ++ [settled]) slot = none := by
  simp [lastWhole, recent_concat_settled]

@[simp] theorem lastWhole_assigned (events : List Event) (n slot : Nat) :
    lastWhole (events ++ [assigned n]) slot =
      if n = slot then some .assigned else lastWhole events slot := by
  rw [lastWhole, recent_concat (by simp), List.findSome?_cons]
  by_cases h : n = slot <;> simp [whole?, h, lastWhole]

@[simp] theorem lastWhole_deleted (events : List Event) (n slot : Nat) :
    lastWhole (events ++ [deleted n]) slot =
      if n = slot then some .deleted else lastWhole events slot := by
  rw [lastWhole, recent_concat (by simp), List.findSome?_cons]
  by_cases h : n = slot <;> simp [whole?, h, lastWhole]

@[simp] theorem lastWhole_edited (events : List Event) (n slot : Nat) :
    lastWhole (events ++ [edited n]) slot = lastWhole events slot := by
  rw [lastWhole, recent_concat (by simp), List.findSome?_cons]
  rfl

@[simp] theorem editedInPlace_settled (events : List Event) (slot : Nat) :
    editedInPlace (events ++ [settled]) slot = false := by
  simp [editedInPlace, recent_concat_settled]

@[simp] theorem editedInPlace_assigned (events : List Event) (n slot : Nat) :
    editedInPlace (events ++ [assigned n]) slot = editedInPlace events slot := by
  rw [editedInPlace, recent_concat (by simp)]
  simp [editedInPlace]

@[simp] theorem editedInPlace_deleted (events : List Event) (n slot : Nat) :
    editedInPlace (events ++ [deleted n]) slot = editedInPlace events slot := by
  rw [editedInPlace, recent_concat (by simp)]
  simp [editedInPlace]

@[simp] theorem editedInPlace_edited (events : List Event) (n slot : Nat) :
    editedInPlace (events ++ [edited n]) slot = true ↔
      slot = n ∨ editedInPlace events slot = true := by
  rw [editedInPlace, recent_concat (by simp)]
  simp [editedInPlace]

end Event

/-- A collection that an operation brings in keeps track of what happened to it, as every collection
does that was made by edits. -/
def Operation.Consistent (op : Operation) : Prop :=
  ∀ p c, op = .set p (.collection c) → c.Consistent

open Event

namespace LocalCopy
variable {cat : Catalog} {o o' : LocalCopy} {p q : Property} {slot : Nat} {events : List Event}

/-- The slots that a copy notes are those that the events say. Nothing need be noted of a change in
place to a slot that was changed as a whole. -/
structure Records (events : List Event) (o : LocalCopy) : Prop where
  deleted : ∀ slot, o.deleted.contains slot = true ↔ lastWhole events slot = some .deleted
  assigned : ∀ slot, o.assigned.contains slot = true ↔ lastWhole events slot = some .assigned
  touched : ∀ slot, lastWhole events slot = none →
    (o.touched.contains slot = true ↔ editedInPlace events slot = true)

theorem Records.settled (events : List Event) (ha : o.assigned = ∅) (hd : o.deleted = ∅)
    (ht : o.touched = ∅) : Records (events ++ [.settled]) o := by
  refine ⟨?_, ?_, ?_⟩
  · simp [hd]
  · simp [ha]
  · simp [ht]

theorem Records.withDeleted (h : Records events o) (slot : Nat) :
    Records (events ++ [.deleted slot]) (o.withDeleted slot) := by
  refine ⟨?_, ?_, ?_⟩
  · intro n
    by_cases hn : slot = n
    · simp [LocalCopy.withDeleted, hn]
    · simp [LocalCopy.withDeleted, hn, Ne.symm hn, h.deleted n]
  · intro n
    by_cases hn : slot = n
    · simp [LocalCopy.withDeleted, hn]
    · simp [LocalCopy.withDeleted, hn, Ne.symm hn, h.assigned n]
  · intro n hnone
    by_cases hn : slot = n
    · simp [hn] at hnone
    · have hnone' : lastWhole events n = none := by simpa [hn] using hnone
      simp [LocalCopy.withDeleted, Ne.symm hn, h.touched n hnone']

theorem Records.withAssigned (h : Records events o) (slot : Nat) (v : Value) :
    Records (events ++ [.assigned slot]) (o.withAssigned slot v) := by
  refine ⟨?_, ?_, ?_⟩
  · intro n
    by_cases hn : slot = n
    · simp [LocalCopy.withAssigned, hn]
    · simp [LocalCopy.withAssigned, hn, Ne.symm hn, h.deleted n]
  · intro n
    by_cases hn : slot = n
    · simp [LocalCopy.withAssigned, hn]
    · simp [LocalCopy.withAssigned, hn, Ne.symm hn, h.assigned n]
  · intro n hnone
    by_cases hn : slot = n
    · simp [hn] at hnone
    · have hnone' : lastWhole events n = none := by simpa [hn] using hnone
      simp [LocalCopy.withAssigned, h.touched n hnone']

theorem Records.instantiate (h : Records events o) (hi : o.instantiate p = .ok (slot, q, o')) :
    Records events o' := by
  obtain ⟨_, _, ⟨_, rfl⟩ | ⟨v, _, _, _, _, rfl⟩⟩ := instantiate_eq_ok hi
  · exact h
  · exact ⟨h.deleted, h.assigned, h.touched⟩

theorem Records.storeEdited (h : Records events o) {e : ValueEdit} {v : Value}
    {r : Edited Value Unit} (hv : v.attach (o.link slot) = v) (hr : v.perform cat e = some r) :
    Records (events ++ (if v.changes cat e then some (.edited slot) else none).toList)
      (o.storeEdited slot r).state := by
  have htouched := contains_touched_storeEdited hv hr
  cases hchanged : v.changes cat e with
  | false =>
    refine ⟨by simpa using h.deleted, by simpa using h.assigned, ?_⟩
    intro n hnone
    rw [htouched n]
    simpa [hchanged] using h.touched n (by simpa using hnone)
  | true =>
    refine ⟨by simpa using h.deleted, by simpa using h.assigned, ?_⟩
    intro n hnone
    rw [htouched n, h.touched n (by simpa using hnone)]
    simp [hchanged, or_comm]

theorem Outcome.records {op : Operation} {event : Option Event} (ho : Outcome cat o op event o')
    (hs : Sound o) (h : Records events o) : Records (events ++ event.toList) o' := by
  cases ho with
  | failed => simpa using h
  | deleted => exact h.withDeleted _
  | assigned => exact h.withAssigned _ _
  | refused hi => simpa using h.instantiate hi
  | edited hi hv hp => exact (h.instantiate hi).storeEdited ((hs.instantiate hi).attached _ _ hv) hp
  | cleared => exact .settled events rfl rfl rfl
  | loaded content clearFirst asked summary =>
    obtain ⟨o', _, ⟨_, hstate⟩ | ⟨_, ⟨loaded, hstate⟩, _⟩⟩ :=
      load_eq cat o content clearFirst asked summary
    all_goals
      rw [hstate]
      exact .settled events rfl rfl rfl
  | saved => exact .settled events rfl rfl rfl

theorem Records.run (cat : Catalog) (h : Records events o) (hs : Sound o) (ops : List Operation) :
    Records (events ++ o.history cat ops) (o.run cat ops) := by
  induction ops generalizing o events with
  | nil => simpa [history] using h
  | cons op ops ih =>
    have hstep := perform_outcome cat o op
    rw [history, ← List.append_assoc]
    exact ih (hstep.records hs h) (hstep.sound hs)

/-- The collections in a copy each keep track of what happened to them. -/
def Tracked (o : LocalCopy) : Prop :=
  ∀ slot c, o.values.get? slot = some (.collection c) → c.Consistent

def ConsistentDefaults (type : ObjectType) : Prop :=
  ∀ q ∈ type.properties, ∀ c, q.default? = some (.collection c) → c.Consistent

theorem Tracked.insert (h : Tracked o) {v : Value} (hv : ∀ c, v = .collection c → c.Consistent)
    (hvalues : o'.values = o.values.insert slot v) : Tracked o' := by
  intro n c hc
  rw [hvalues, SlotMap.get?_insert] at hc
  split at hc
  · exact hv c (Option.some.inj hc)
  · exact h n c hc

theorem consistent_attach {v : Value} (hv : ∀ c, v = .collection c → c.Consistent) (l : Link) :
    ∀ c, v.attach l = .collection c → c.Consistent := by
  intro c hc
  cases v with
  | collection d =>
    obtain rfl : d.attach l = c := by simpa [Value.attach] using hc
    exact (hv d rfl).attach l
  | _ => cases hc

theorem consistent_copy {v : Value} (hv : ∀ c, v = .collection c → c.Consistent) :
    ∀ c, v.copy = .collection c → c.Consistent := by
  intro c hc
  cases v with
  | collection d =>
    obtain rfl : d.copy = c := by simpa [Value.copy] using hc
    exact (hv d rfl).copy
  | _ => cases hc

theorem consistent_perform {v : Value} {e : ValueEdit} {r : Edited Value Unit}
    (hv : ∀ c, v = .collection c → c.Consistent) (hr : v.perform cat e = some r) :
    ∀ c, r.state = .collection c → c.Consistent := by
  intro c hc
  cases e with
  | composite e =>
    cases v with
    | composite d =>
      cases hr
      cases hc
    | _ => cases hr
  | collection e =>
    cases v with
    | collection d =>
      cases hr
      obtain rfl : (d.perform cat e).state = c := by simpa using hc
      exact (hv d rfl).perform cat e
    | _ => cases hr

theorem Tracked.instantiate (h : Tracked o) (hd : ConsistentDefaults o.type)
    (hi : o.instantiate p = .ok (slot, q, o')) : Tracked o' := by
  obtain ⟨hr, _, ⟨_, rfl⟩ | ⟨v, _, _, hv, _, rfl⟩⟩ := instantiate_eq_ok hi
  · exact h
  · have hq := List.mem_of_getElem? (resolve_eq_ok_iff.mp hr).2.1
    have hcreated : ∀ c, v = .collection c → c.Consistent := by
      rintro c rfl
      exact hd q hq c hv
    exact h.insert (consistent_attach (consistent_copy hcreated) _) rfl

theorem Tracked.storeEdited (h : Tracked o) {e : ValueEdit} {v : Value} {r : Edited Value Unit}
    (hv : o.values.get? slot = some v) (hr : v.perform cat e = some r) :
    Tracked (o.storeEdited slot r).state := by
  refine h.insert (consistent_perform ?_ hr) rfl
  rintro c rfl
  exact h slot c hv

theorem Outcome.tracked {op : Operation} {event : Option Event} (ho : Outcome cat o op event o')
    (hop : op.Consistent) (hd : ConsistentDefaults o.type) (h : Tracked o) : Tracked o' := by
  cases ho with
  | failed => exact h
  | @deleted _ p q slot =>
    intro n c hc
    by_cases hn : n = slot
    · simp [withDeleted, hn] at hc
    · exact h n c (by simpa [withDeleted, hn] using hc)
  | assigned hv _ _ hn =>
    refine h.insert (consistent_attach ?_ _) rfl
    rintro c rfl
    exact hop _ c (by rw [(Property.normalise_takes hv hn).eq_collection])
  | refused hi => exact h.instantiate hd hi
  | edited hi hv hp => exact (h.instantiate hd hi).storeEdited hv hp
  | cleared =>
    intro n c hc
    simp [clear] at hc
  | loaded content clearFirst asked summary =>
    obtain ⟨o', hread, ⟨_, hstate⟩ | ⟨_, ⟨loaded, hstate⟩, _⟩⟩ :=
      load_eq cat o content clearFirst asked summary
    · rw [hstate]
      intro n c hc
      simp [clear] at hc
    · rw [hstate]
      intro n c hc
      rcases hread.values n with heq | hfresh
      · cases clearFirst with
        | false => exact h n c (heq.symm.trans hc)
        | true => cases (heq.symm.trans hc : none = some _)
      · exact Collection.Settled.consistent (hfresh _ hc).2
  | saved =>
    intro n c hc
    obtain ⟨v, _, hv⟩ := Option.map_eq_some_iff.mp hc
    cases v with
    | collection d =>
      obtain rfl : d.markSaved = c := by simpa [LocalCopy.settled] using hv
      exact Collection.markSaved_consistent d
    | _ => cases hv

theorem Tracked.run (h : Tracked o) (hd : ConsistentDefaults o.type) (ops : List Operation)
    (hops : ∀ op ∈ ops, op.Consistent) : Tracked (o.run cat ops) := by
  refine (run_induction cat (P := fun o' => Tracked o' ∧ o'.type = o.type) ⟨h, rfl⟩ ?_).1
  rintro o' op hop ⟨ht, htype⟩
  have hstep := perform_outcome cat o' op
  exact ⟨hstep.tracked (hops op hop) (htype ▸ hd) ht, hstep.same.2.1.trans htype⟩

def wholeOps (q : Property) : Value → List UpdateOp
  | .collection c => if c.entries.isEmpty then [.delete q] else [.set q (.collection c)]
  | v => [.set q v]

/-- A changed collection is taken item by item by its property at the session's version, which must
take additions too if there are any. -/
def TakesItems (o : LocalCopy) (q : Property) (c : Collection) : Prop :=
  q.has .itemLevel o.version = true ∧ (c.added = [] ∨ q.has .appendable o.version = true)

instance (o : LocalCopy) (q : Property) (c : Collection) : Decidable (o.TakesItems q c) :=
  inferInstanceAs (Decidable (_ ∧ (_ ∨ _)))

/-- The operations for a value that was changed in place. Item by item, what was added comes before
what was removed, and that before what was modified. -/
def inPlaceOps (o : LocalCopy) (q : Property) : Value → List UpdateOp
  | .collection c =>
    if o.TakesItems q c then
      (c.added.map fun item => .append q item) ++
        (c.removedPositions.map fun position => .deleteItem q position) ++
          c.modified.map fun (position, item) => .setItem q position item
    else wholeOps q (.collection c)
  | v => wholeOps q v

theorem sendsItems_iff {c : Collection} : o.sendsItems q c = true ↔ o.TakesItems q c := by
  simp [sendsItems, TakesItems]

def historyOps (o : LocalCopy) (events : List Event) (slot : Nat) (q : Property) : List UpdateOp :=
  match lastWhole events slot with
  | some .deleted => [.delete q]
  | some .assigned => (o.values.get? slot).elim [] (wholeOps q)
  | none =>
    if editedInPlace events slot then (o.values.get? slot).elim [] (o.inPlaceOps q) else []

theorem Records.slotOps (h : Records events o) (ha : q.isApplicable o.version = true) :
    o.slotOps slot q = o.historyOps events slot q := by
  have hd := h.deleted slot
  have has := h.assigned slot
  have ht := h.touched slot
  unfold LocalCopy.slotOps historyOps
  simp only [ha, Bool.not_true, Bool.false_eq_true, if_false]
  cases hlast : lastWhole events slot with
  | some whole =>
    cases whole with
    | deleted => simp [hd.mpr hlast]
    | assigned =>
      have hd' : o.deleted.contains slot = false := by simpa [hlast] using hd
      simp only [hd', has.mpr hlast]
      cases o.values.get? slot with
      | none => simp
      | some v => cases v <;> simp [wholeOps]
  | none =>
    have hd' : o.deleted.contains slot = false := by simpa [hlast] using hd
    have has' : o.assigned.contains slot = false := by simpa [hlast] using has
    have ht' : o.touched.contains slot = editedInPlace events slot := by
      rw [Bool.eq_iff_iff]
      exact ht hlast
    simp only [hd', has', ht']
    cases editedInPlace events slot with
    | false => simp
    | true =>
      cases o.values.get? slot with
      | none => simp
      | some v =>
        cases v with
        | collection c => simp [wholeOps, inPlaceOps, sendsItems_iff, itemOps]
        | _ => simp [wholeOps, inPlaceOps]

/-- What is sent for a copy follows from what was done to it. -/
structure SentByHistory (o : LocalCopy) (events : List Event) : Prop where
  payload : o.payload = (o.type.properties.zipIdx.filter fun x => x.1.isApplicable o.version).flatMap
    fun (q, slot) => o.historyOps events slot q
  /-- A slot that is sent with a value has one. -/
  held : ∀ slot, lastWhole events slot = some .assigned ∨
    lastWhole events slot = none ∧ editedInPlace events slot = true →
      ∃ v, o.values.get? slot = some v
  /-- The positions in the operations for items ascend, and no item is both removed and replaced. -/
  positions : ∀ slot c, o.values.get? slot = some (.collection c) →
    c.removedPositions.Pairwise (· < ·) ∧ (c.modified.map Prod.fst).Pairwise (· < ·) ∧
      List.Disjoint c.removedPositions (c.modified.map Prod.fst)

theorem flatMap_filter {α β : Type} {l : List α} {c : α → Bool} {f g : α → List β}
    (hin : ∀ a, c a = true → f a = g a) (hout : ∀ a, c a = false → f a = []) :
    l.flatMap f = (l.filter c).flatMap g := by
  induction l with
  | nil => rfl
  | cons a l ih =>
    cases hc : c a with
    | true => simp [hc, hin a hc, ih]
    | false => simp [hc, hout a hc, ih]

theorem Records.payload_eq (h : Records events o) :
    o.payload = (o.type.properties.zipIdx.filter fun x => x.1.isApplicable o.version).flatMap
      fun (q, slot) => o.historyOps events slot q := by
  refine flatMap_filter ?_ ?_
  · rintro ⟨q, slot⟩ ha
    exact h.slotOps ha
  · rintro ⟨q, slot⟩ ha
    simp [LocalCopy.slotOps, show q.isApplicable o.version = false from ha]

/-- The payload after any run is what the run's history says, slot by slot. -/
theorem payload_follows_history (cat : Catalog) (id : Nat) (type : ObjectType) (session : Session)
    (hd : ConsistentDefaults type) (ops : List Operation) (hops : ∀ op ∈ ops, op.Consistent) :
    SentByHistory ((new id type session).run cat ops) ((new id type session).history cat ops) := by
  have hstart : Records [] (new id type session) := by
    refine ⟨?_, ?_, ?_⟩ <;> simp [new, lastWhole, editedInPlace, recent]
  have hrecords :
      Records ((new id type session).history cat ops) ((new id type session).run cat ops) := by
    simpa using hstart.run cat (.new id type session) ops
  have hsound : Sound ((new id type session).run cat ops) := (Sound.new id type session).run ops
  refine ⟨hrecords.payload_eq, ?_, ?_⟩
  · rintro slot (hwhole | ⟨hnone, hedited⟩)
    · exact hsound.assigned slot ((hrecords.assigned slot).mpr hwhole)
    · exact hsound.touched slot ((hrecords.touched slot hnone).mpr hedited)
  · intro slot c hc
    have htracked : Tracked (new id type session) := by
      intro n c hc
      simp [new] at hc
    obtain ⟨base, ht⟩ := htracked.run hd ops hops slot c hc
    exact ⟨ht.removedPositions_ascending, ht.modified_ascending, ht.disjoint⟩

theorem mail_defaults_consistent {type : ObjectType} (ht : type ∈ Mail.types) :
    ConsistentDefaults type := by
  intro q hq c hc
  obtain ⟨hentries, hremoved⟩ := Mail.default_empty ht hq hc
  exact Collection.Settled.consistent ⟨hremoved, by simp [hentries]⟩

/-- A meeting is loaded and its end is deleted. Somebody is put before those invited, the second of
them is taken off, and the first one has changed plans. Then the meeting gets a subject. -/
def reinvited : List Operation :=
  [.load (Mail.meeting ["Accept", "Decline", "Tentative"]) true {} false,
    .delete Mail.Calendar.finish,
    .edit Mail.Calendar.requiredAttendees (.collection (.insert 0 (Mail.invitee "Unknown"))),
    .edit Mail.Calendar.requiredAttendees (.collection (.remove 2)),
    .edit Mail.Calendar.requiredAttendees
      (.collection (.item 1 (.set "ResponseType" (.scalar (.name "Decline"))))),
    .set Mail.Item.subject (.scalar (.text "Tea"))]

def reinvitedAs (response : String) : Composite := (Mail.invitee response).attach (some ⟨0, 10⟩)

theorem reinvited_consistent : ∀ op ∈ reinvited, op.Consistent := by
  simp [reinvited, Operation.Consistent]

theorem reinvited_follows_history :
    ConsistentDefaults Mail.Calendar.type ∧ (∀ op ∈ reinvited, op.Consistent) ∧ SentByHistory
      ((new 0 Mail.Calendar.type Mail.session).run (Mail.catalog []) reinvited)
      ((new 0 Mail.Calendar.type Mail.session).history (Mail.catalog []) reinvited) ∧
    ((new 0 Mail.Calendar.type Mail.session).run (Mail.catalog []) reinvited).payload =
      [.set Mail.Item.subject (.scalar (.text "Tea")), .delete Mail.Calendar.finish,
        .append Mail.Calendar.requiredAttendees (reinvitedAs "Unknown"),
        .deleteItem Mail.Calendar.requiredAttendees 1,
        .setItem Mail.Calendar.requiredAttendees 0 (reinvitedAs "Decline")] := by
  have hd : ConsistentDefaults Mail.Calendar.type := mail_defaults_consistent (by simp [Mail.types])
  have hsent := payload_follows_history (Mail.catalog []) 0 Mail.Calendar.type Mail.session hd
    reinvited reinvited_consistent
  refine ⟨hd, reinvited_consistent, hsent, ?_⟩
  -- The positions of what was removed are sorted, which only the library's lemmas tell.
  have hops : ((new 0 Mail.Calendar.type Mail.session).run (Mail.catalog []) reinvited).payload =
      .set Mail.Item.subject (.scalar (.text "Tea")) :: .delete Mail.Calendar.finish ::
        ((([.append Mail.Calendar.requiredAttendees (reinvitedAs "Unknown")] ++
          (([1] : List Nat).mergeSort (· ≤ ·)).map (.deleteItem Mail.Calendar.requiredAttendees)) ++
            [.setItem Mail.Calendar.requiredAttendees 0 (reinvitedAs "Decline")]) ++ []) := by
    rw [hsent.payload]
    rfl
  rw [hops, List.mergeSort_singleton]
  rfl

end LocalCopy

end ObjectTracking
