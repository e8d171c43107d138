import Mathlib.Data.List.Induction
import ObjectTracking.Proofs.Collection.Server
import ObjectTracking.Proofs.LocalCopy.Sound
import ObjectTracking.Proofs.Mail
import ObjectTracking.Proofs.ObjectType
/-!
The two records of what changed: the slots that a copy notes, and the changes that each collection
keeps for itself. A save settles both. A load that does not clear the copy first settles the notes of
every slot, but only the collections that the document has an element for; the records agree in a
run exactly as long as no load leaves out a changed collection.
-/
set_option autoImplicit false

namespace ObjectTracking
open Markup

namespace LocalCopy
variable {cat : Catalog} {o o' : LocalCopy} {p q : Property} {slot : Nat}

/-- A collection with changes belongs to a property that counts as modified, so that one whose
property does not adds nothing to what is sent for later edits. -/
structure Agrees (o : LocalCopy) : Prop where
  modified : ∀ slot c, o.values.get? slot = some (.collection c) → c.hasChanges = true →
    ∃ q, o.type.property? slot = some q ∧ o.isModified q = true
  silent : ∀ slot q c, o.values.get? slot = some (.collection c) →
    o.type.property? slot = some q → o.isModified q = false → itemOps q c = []

/-- A document has an element for every slot whose collection has changes. -/
def Covers (content : Forest) (o : LocalCopy) : Prop :=
  ∀ slot c, o.values.get? slot = some (.collection c) → c.hasChanges = true →
    slot ∈ o.targets content

/-- The collections that properties default to have no changes. -/
def UnchangedDefaults (type : ObjectType) : Prop :=
  ∀ q ∈ type.properties, ∀ c, q.default? = some (.collection c) → c.hasChanges = false

/-- A slot whose collection has changes is noted, and found as that of its property. -/
def Logged (o : LocalCopy) : Prop :=
  ∀ slot c, o.values.get? slot = some (.collection c) → c.hasChanges = true →
    o.isDirty slot = true ∧ ∃ q, o.type.property? slot = some q ∧ o.type.slotOf? q = some slot

theorem isModified_of_clean (ha : o.assigned = ∅) (hd : o.deleted = ∅) (ht : o.touched = ∅)
    (q : Property) : o.isModified q = false := by
  cases h : o.type.slotOf? q <;> simp [isModified, slotIs, isDirty, h, ha, hd, ht]

theorem Logged.agrees (h : Logged o) : Agrees o := by
  have hmodified : ∀ slot c, o.values.get? slot = some (.collection c) → c.hasChanges = true →
      ∃ q, o.type.property? slot = some q ∧ o.isModified q = true := by
    intro slot c hc hchanges
    obtain ⟨hdirty, q, hq, hslot⟩ := h slot c hc hchanges
    exact ⟨q, hq, by simp [isModified, slotIs, hslot, hdirty]⟩
  refine ⟨hmodified, ?_⟩
  intro slot q c hc hq hclean
  apply itemOps_of_unchanged
  cases hchanges : c.hasChanges with
  | false => rfl
  | true =>
    obtain ⟨q', hq', hm⟩ := hmodified slot c hc hchanges
    obtain rfl := Option.some.inj (hq.symm.trans hq')
    rw [hclean] at hm
    cases hm

theorem hasChanges_copy_attach (c : Collection) (k : Option Link) :
    (c.copy.attach k).hasChanges = c.hasChanges := by
  simp [Collection.copy, Collection.attach, Collection.hasChanges, Function.comp_def]

theorem Logged.instantiate (h : Logged o) (hd : UnchangedDefaults o.type)
    (hi : o.instantiate p = .ok (slot, q, o')) : Logged o' := by
  obtain ⟨hr, _, ⟨_, rfl⟩ | ⟨v, _, _, hv, _, rfl⟩⟩ := instantiate_eq_ok hi
  · exact h
  · intro n c hc hchanges
    by_cases hn : n = slot
    · subst hn
      have hc' : v.copy.attach (o.link n) = .collection c := by simpa [created] using hc
      cases v with
      | collection d =>
        obtain rfl : d.copy.attach (some (o.link n)) = c := by simpa [Value.copy, Value.attach] using hc'
        rw [hasChanges_copy_attach] at hchanges
        have hq := (resolve_eq_ok_iff.mp hr).2.1
        rw [hd q (List.mem_of_getElem? hq) d hv] at hchanges
        cases hchanges
      | _ => cases hc'
    · exact h n c (by simpa [created, hn] using hc) hchanges

theorem Logged.storeEdited (h : Logged o) (hs : Sound o) {e : ValueEdit} {v : Value}
    {r : Edited Value Unit} (hr : o.resolve p = .ok (slot, q)) (hv : o.values.get? slot = some v)
    (hp : v.perform cat e = some r) : Logged (o.storeEdited slot r).state := by
  have htouched := contains_touched_storeEdited (hs.attached slot v hv) hp
  have hdirty : ∀ n, o.isDirty n = true → (o.storeEdited slot r).state.isDirty n = true := by
    intro n hn
    simp only [isDirty, Bool.or_eq_true, storeEdited_assigned, storeEdited_deleted] at hn ⊢
    exact hn.imp_right fun hn => (htouched n).mpr (.inl hn)
  intro n c hc hchanges
  by_cases hn : n = slot
  · subst hn
    obtain ⟨hslot, hq, _⟩ := resolve_eq_ok_iff.mp hr
    refine ⟨?_, q, hq, ObjectType.slotOf?_property hslot hq⟩
    have hstate : r.state = .collection c := by simpa using hc
    cases hchanged : v.changes cat e with
    | true =>
      simp only [isDirty, Bool.or_eq_true]
      exact .inr ((htouched n).mpr (.inr ⟨rfl, hchanged⟩))
    | false =>
      -- an edit that counts as no change has left the collection as it was
      apply hdirty
      cases e with
      | composite e =>
        cases v with
        | composite d =>
          cases hp
          cases hstate
        | _ => cases hp
      | collection e =>
        cases v with
        | collection d =>
          cases hp
          obtain rfl : (d.perform cat e).state = c := by simpa using hstate
          rw [Collection.perform_unchanged cat hchanged] at hchanges
          exact (h n d hv hchanges).1
        | _ => cases hp
  · obtain ⟨hn', hq⟩ := h n c (by simpa [hn] using hc) hchanges
    exact ⟨hdirty n hn', hq⟩

theorem Logged.withDeleted (h : Logged o) (slot : Nat) : Logged (o.withDeleted slot) := by
  intro n c hc hchanges
  have hn : n ≠ slot := by
    rintro rfl
    simp [LocalCopy.withDeleted] at hc
  obtain ⟨hdirty, hq⟩ := h n c (by simpa [LocalCopy.withDeleted, hn] using hc) hchanges
  refine ⟨?_, hq⟩
  simpa [isDirty, LocalCopy.withDeleted, hn] using hdirty

theorem Logged.withAssigned (h : Logged o) (hr : o.resolve p = .ok (slot, q)) (v : Value) :
    Logged (o.withAssigned slot v) := by
  intro n c hc hchanges
  by_cases hn : n = slot
  · subst hn
    obtain ⟨hslot, hq, _⟩ := resolve_eq_ok_iff.mp hr
    refine ⟨?_, q, hq, ObjectType.slotOf?_property hslot hq⟩
    simp [isDirty, LocalCopy.withAssigned]
  · obtain ⟨hdirty, hq⟩ := h n c (by simpa [LocalCopy.withAssigned, hn] using hc) hchanges
    refine ⟨?_, hq⟩
    simpa [isDirty, LocalCopy.withAssigned, hn] using hdirty

theorem Logged.of_unchanged
    (h : ∀ slot c, o.values.get? slot = some (.collection c) → c.hasChanges = false) :
    Logged o := by
  intro slot c hc hchanges
  rw [h slot c hc] at hchanges
  cases hchanges

theorem Logged.clear (o : LocalCopy) : Logged o.clear :=
  .of_unchanged (by simp [LocalCopy.clear])

theorem unchanged_markSaved {c : Collection}
    (hc : o.markSaved.values.get? slot = some (.collection c)) : c.hasChanges = false := by
  obtain ⟨v, _, hv⟩ := Option.map_eq_some_iff.mp hc
  cases v with
  | collection d =>
    obtain rfl : d.markSaved = c := by simpa [settled] using hv
    exact (Collection.markSaved_settled d).hasChanges
  | _ => cases hv

theorem Logged.markSaved (o : LocalCopy) : Logged o.markSaved :=
  .of_unchanged fun _ _ => unchanged_markSaved

theorem Logged.load (content : Forest) (clearFirst : Bool) (asked : PropertySet) (summary : Bool)
    (hcover : clearFirst = false →
      (o.load cat content clearFirst asked summary).stop? = none → Covers content o) :
    Logged (o.load cat content clearFirst asked summary).state := by
  obtain ⟨o', _, ⟨_, hstate⟩ | ⟨hend, ⟨loaded, hstate⟩, hread, hkept⟩⟩ :=
    load_eq cat o content clearFirst asked summary
  · rw [hstate]
    exact .clear o'
  · rw [hstate]
    refine .of_unchanged ?_
    intro slot c hc
    by_cases hslot : slot ∈ o.targets content
    · exact Collection.Settled.hasChanges (hread slot hslot _ hc).2
    · cases clearFirst with
      | true =>
        have hnone : o'.values.get? slot = none := (hkept slot hslot).trans rfl
        cases hnone.symm.trans hc
      | false =>
        cases hchanges : c.hasChanges with
        | false => rfl
        | true =>
          have hheld : o.values.get? slot = some (.collection c) := (hkept slot hslot).symm.trans hc
          exact absurd (hcover rfl hend slot c hheld hchanges) hslot

theorem Outcome.logged {op : Operation} {event : Option Event} (ho : Outcome cat o op event o')
    (hs : Sound o) (hd : UnchangedDefaults o.type)
    (hcover : ∀ content asked summary, op = .load content false asked summary →
      (o.load cat content false asked summary).stop? = none → Covers content o)
    (h : Logged o) : Logged o' := by
  cases ho with
  | failed => exact h
  | deleted => exact h.withDeleted _
  | assigned _ hr => exact h.withAssigned hr _
  | refused hi => exact h.instantiate hd hi
  | edited hi hv hp =>
    exact (h.instantiate hd hi).storeEdited (hs.instantiate hi) (resolve_of_instantiate hi) hv hp
  | cleared => exact .clear o
  | loaded content clearFirst asked summary =>
    refine .load content clearFirst asked summary ?_
    rintro rfl
    exact hcover content asked summary rfl
  | saved => exact .markSaved o

/-- The slots that a copy notes and the changes that its collections keep agree throughout a run
exactly when every load that succeeds without clearing the copy first has an element for each
collection with changes. -/
theorem agrees_iff_loads_cover (cat : Catalog) (id : Nat) (type : ObjectType) (session : Session)
    (hd : UnchangedDefaults type) (ops : List Operation) :
    (∀ done, done <+: ops → Agrees ((new id type session).run cat done)) ↔
    ∀ done content asked summary, done ++ [.load content false asked summary] <+: ops →
      (((new id type session).run cat done).load cat content false asked summary).stop? = none →
      Covers content ((new id type session).run cat done) := by
  have hsound : ∀ done, Sound ((new id type session).run cat done) :=
    fun done => (Sound.new id type session).run done
  constructor
  · intro hagrees done content asked summary hdone hend slot c hc hchanges
    by_contra hslot
    -- the load keeps the collection and its changes, and notes nothing
    obtain ⟨o', hread, ⟨hstop, _⟩ | ⟨_, ⟨loaded, hstate⟩, _, hkept⟩⟩ :=
      load_eq cat ((new id type session).run cat done) content false asked summary
    · exact hstop hend
    · have hafter : (new id type session).run cat (done ++ [.load content false asked summary]) =
          { o' with loaded, assigned := ∅, deleted := ∅, touched := ∅, isNew := false } := by
        rw [run_append]
        exact hstate
      have hagree := hagrees _ hdone
      rw [hafter] at hagree
      obtain ⟨q, _, hm⟩ := hagree.modified slot c ((hkept slot hslot).trans hc) hchanges
      rw [isModified_of_clean rfl rfl rfl] at hm
      cases hm
  · intro hcover done hdone
    apply Logged.agrees
    induction done using List.reverseRecOn with
    | nil => exact .clear (new id type session)
    | append_singleton done op ih =>
      rw [run_append]
      refine (perform_outcome cat _ op).logged (hsound done) ?_ ?_
        (ih ((List.prefix_append done [op]).trans hdone))
      · rw [(run_same cat _ done).2.1]
        exact hd
      · rintro content asked summary rfl hend
        exact hcover done content asked summary hdone hend

theorem mail_defaults_unchanged {type : ObjectType} (ht : type ∈ Mail.types) :
    UnchangedDefaults type := by
  intro q hq c hc
  obtain ⟨hentries, hremoved⟩ := Mail.default_empty ht hq hc
  simp [Collection.hasChanges, hentries, hremoved]

/-- Somebody is invited to a meeting, and then only its subject is loaded again. -/
def halfLoaded : List Operation :=
  [.load (Mail.meeting ["Accept"]) true {} false,
    .edit Mail.Calendar.requiredAttendees (.collection (.push (Mail.invitee "Tentative"))),
    .load (.element ⟨some .types, "Subject", []⟩ (.text "Planning" .closed) .closed) false {} false]

theorem agrees_iff_halfLoaded_covers :
    UnchangedDefaults Mail.Calendar.type ∧
    ((∀ done, done <+: halfLoaded →
        Agrees ((new 0 Mail.Calendar.type Mail.session).run (Mail.catalog []) done)) ↔
      ∀ done content asked summary, done ++ [.load content false asked summary] <+: halfLoaded →
        (((new 0 Mail.Calendar.type Mail.session).run (Mail.catalog []) done).load (Mail.catalog [])
          content false asked summary).stop? = none →
        Covers content ((new 0 Mail.Calendar.type Mail.session).run (Mail.catalog []) done)) :=
  have hd : UnchangedDefaults Mail.Calendar.type := mail_defaults_unchanged (by simp [Mail.types])
  ⟨hd, agrees_iff_loads_cover (Mail.catalog []) 0 Mail.Calendar.type Mail.session hd halfLoaded⟩

/-- The invitation is still a change of the collection, but the property no longer counts as
modified. -/
theorem halfLoaded_disagrees :
    ¬ Agrees ((new 0 Mail.Calendar.type Mail.session).run (Mail.catalog []) halfLoaded) := by
  intro h
  obtain ⟨q, hq, hm⟩ := h.modified 10 _ rfl rfl
  obtain rfl : Mail.Calendar.requiredAttendees = q := Option.some.inj hq
  cases hm

end LocalCopy

end ObjectTracking
