import ObjectTracking.Proofs.LocalCopy.Elements
import ObjectTracking.Proofs.LocalCopy.Needed
/-!
A copy has nothing to do with properties that the version of its session does not know. The version
is asked in many places, but only where a slot comes to be noted; what is sent and answered comes from
the slots that are noted.

The one way around is a report: a value that was taken out of the copy reports to it still. It does so
through the link that it was given when it was stored in a slot.
-/
set_option autoImplicit false

namespace ObjectTracking
open Markup

namespace LocalCopy
variable {cat : Catalog} {strays : Set Link} {o o' : LocalCopy} {p q : Property} {slot : Nat}
  {v : Value}

/-- The version knows the property of every slot that holds a value. -/
def Placed (o : LocalCopy) : Prop :=
  ∀ slot v, o.values.get? slot = some v → o.type.isApplicable o.version slot = true

theorem Placed.clear (o : LocalCopy) : Placed o.clear := by
  intro slot v hv
  cases hv

theorem Placed.instantiate (h : Placed o) (hi : o.instantiate p = .ok (slot, q, o')) :
    Placed o' := by
  obtain ⟨hr, -, ⟨-, rfl⟩ | ⟨v, -, -, -, -, rfl⟩⟩ := instantiate_eq_ok hi
  · exact h
  · exact SlotMap.forall_insert (isApplicable_of_resolve hr) h

theorem Placed.storeEdited (h : Placed o) (hv : o.values.get? slot = some v) {α : Type}
    (r : Edited Value α) : Placed (o.storeEdited slot r).state :=
  SlotMap.forall_insert (h slot v hv) h

theorem Placed.inPlace (h : Placed o) (hp : InPlace o o') : Placed o' := by
  cases hp with
  | unreached => exact h
  | reached hi => exact h.instantiate hi
  | stored hi hv => exact (h.instantiate hi).storeEdited hv _

theorem Placed.loadSlot (h : Placed o) (hslot : o.type.isApplicable o.version slot = true)
    (q : Property) (tag : Tag) (content : Forest) :
    Placed (o.loadSlot cat slot q tag content).state := by
  obtain ⟨v, -, hstate⟩ := loadSlot_eq cat o slot q tag content
  rw [hstate]
  cases hnull : v.isNull with
  | true => exact SlotMap.forall_erase h
  | false => exact SlotMap.forall_insert hslot h

theorem Placed.load (h : Placed o) (content : Forest) (clearFirst : Bool) (asked : PropertySet)
    (summary : Bool) : Placed (o.load cat content clearFirst asked summary).state := by
  refine load_induction (P := Placed) .clear ?_ ?_ h content clearFirst asked summary
  · intro o slot q tag content hq happlicable ho
    exact ho.loadSlot (ObjectType.isApplicable_iff.mpr ⟨q, hq, happlicable⟩) q tag content
  · intro o asked summary ho
    exact ho

theorem Placed.markSaved (h : Placed o) : Placed o.markSaved := by
  intro slot w hw
  obtain ⟨v, hv, -⟩ := Option.map_eq_some_iff.mp hw
  exact h slot v hv

theorem Outcome.placed {op : Operation} {event : Option Event} (ho : Outcome cat o op event o')
    (h : Placed o) : Placed o' := by
  cases ho with
  | failed => exact h
  | deleted => exact SlotMap.forall_erase h
  | assigned _ hr => exact SlotMap.forall_insert (isApplicable_of_resolve hr) h
  | refused hi => exact h.instantiate hi
  | edited hi hv => exact (h.instantiate hi).storeEdited hv _
  | cleared => exact .clear o
  | loaded content clearFirst asked summary => exact h.load content clearFirst asked summary
  | saved => exact h.markSaved

theorem Reachable.tied (h : Reachable cat strays o o') (ho : Tied o) : Tied o' :=
  h.invariant (fun o op => (perform_outcome cat o op).tied) (fun hp h => h.inPlace hp)
    (fun _ _ _ h => h) (fun _ _ h => h) ho

theorem Reachable.placed (h : Reachable cat strays o o') (ho : Placed o) : Placed o' :=
  h.invariant (fun o op => (perform_outcome cat o op).placed) (fun hp h => h.inPlace hp)
    (fun _ _ _ h => h) (fun _ _ h => h) ho

def Same (o o' : LocalCopy) : Prop := o'.id = o.id ∧ o'.type = o.type ∧ o'.session = o.session

theorem Same.perform (h : Same o o') (op : Operation) : Same o (o'.perform cat op).state := by
  obtain ⟨hid, htype, hsession⟩ := (perform_outcome cat o' op).same
  exact ⟨hid.trans h.1, htype.trans h.2.1, hsession.trans h.2.2⟩

theorem Same.inPlace {o₁ : LocalCopy} (h : Same o o') (hp : InPlace o' o₁) : Same o o₁ := by
  rw [← hp.frame] at h
  exact h

theorem Reachable.isSame (h : Reachable cat strays o o') : Same o o' :=
  h.invariant (fun _ op h => h.perform op) (fun hp h => h.inPlace hp) (fun _ _ _ h => h)
    (fun _ _ h => h) ⟨rfl, rfl, rfl⟩

/-- The version knows the property of every slot that a copy has heard of. -/
def Hears (o : LocalCopy) : Prop :=
  ∀ slot, o.touched.contains slot = true → o.type.isApplicable o.version slot = true

theorem Hears.of_unheard (h : o.touched = ∅) : Hears o := by
  simp [Hears, h]

theorem Hears.hear (h : Hears o) {signals : List Link}
    (hown : ∀ slot, o.link slot ∈ signals → o.type.isApplicable o.version slot = true) :
    Hears (o.hear signals) := by
  intro slot hslot
  rcases (contains_touched_hear o signals slot).mp hslot with hslot | hslot
  · exact h slot hslot
  · exact hown slot hslot

theorem Hears.inPlace (h : Hears o) (htied : Tied o) (hplaced : Placed o) (hp : InPlace o o') :
    Hears o' := by
  have hreached : ∀ {p q slot o'}, o.instantiate p = .ok (slot, q, o') → Hears o' := by
    intro p q slot o' hi
    have hframe := (frame_of_instantiate hi).2
    rw [← hframe] at h
    exact h
  cases hp with
  | unreached => exact h
  | reached hi => exact hreached hi
  | @stored _ _ slot o' v _ r hi hv hown =>
    -- The edit reports through a link of the value that was there, and that is the slot's own.
    have hheard := hreached hi
    have hstored : Hears { o' with values := o'.values.insert slot r.state } := hheard
    refine hstored.hear ?_
    intro n hn
    obtain rfl : n = slot :=
      congrArg Link.slot (htied.instantiate hi slot v hv _ (hown.signals hn))
    exact hplaced.instantiate hi n v hv

theorem Outcome.hears {op : Operation} {event : Option Event} (ho : Outcome cat o op event o')
    (h : Hears o) (htied : Tied o) (hplaced : Placed o) : Hears o' := by
  cases ho with
  | failed => exact h
  | deleted =>
    intro n hn
    simp only [LocalCopy.withDeleted, SlotSet.contains_erase, Bool.and_eq_true] at hn
    exact h n hn.2
  | assigned => exact h
  | refused hi => exact h.inPlace htied hplaced (.reached hi)
  | edited hi hv hp => exact h.inPlace htied hplaced (.stored hi hv (Value.own_perform hp))
  | cleared => exact .of_unheard rfl
  | loaded content clearFirst asked summary =>
    obtain ⟨w, -, hstate | hstate⟩ := load_state cat o content clearFirst asked summary
    · rw [hstate]
      exact .of_unheard rfl
    · rw [hstate]
      exact .of_unheard rfl
  | saved => exact .of_unheard rfl

/-- The links through which values outside of a copy may report: those to other copies, and those that
a value within it has had at some time. -/
def givenOut (cat : Catalog) (o : LocalCopy) : Set Link :=
  {l | l.copy = o.id → ∃ strays o' slot v, Reachable cat strays o o' ∧
    o'.values.get? slot = some v ∧ l ∈ v.links}

theorem isApplicable_of_givenOut (htied : Tied o) (hplaced : Placed o)
    (h : o.link slot ∈ givenOut cat o) : o.type.isApplicable o.version slot = true := by
  obtain ⟨strays, o', n, v, hreachable, hv, hl⟩ := h rfl
  obtain rfl : slot = n := congrArg Link.slot (hreachable.tied htied n v hv _ hl)
  have hslot := hreachable.placed hplaced slot v hv
  obtain ⟨-, htype, hsession⟩ := hreachable.isSame
  rwa [version, htype, hsession] at hslot

theorem Reachable.hears (h : Reachable cat (givenOut cat o) o o') (ho : Hears o) (htied : Tied o)
    (hplaced : Placed o) : Hears o' := by
  refine (h.invariant (P := fun o' => Hears o' ∧ Tied o' ∧ Placed o' ∧ Same o o') ?_ ?_ ?_
    (fun _ _ h => h) ⟨ho, htied, hplaced, rfl, rfl, rfl⟩).1
  · rintro o' op ⟨hh, ht, hp, hs⟩
    have houtcome := perform_outcome cat o' op
    exact ⟨houtcome.hears hh ht hp, houtcome.tied ht, houtcome.placed hp, hs.perform op⟩
  · rintro o₁ o₂ hin ⟨hh, ht, hp, hs⟩
    exact ⟨hh.inPlace ht hp hin, ht.inPlace hin, hp.inPlace hin, hs.inPlace hin⟩
  · rintro o' signals hstray ⟨hh, ht, hp, hs⟩
    refine ⟨hh.hear ?_, ht, hp, hs⟩
    intro slot hslot
    obtain ⟨hid, htype, hsession⟩ := hs
    have hlink : o'.link slot = o.link slot := congrArg (Link.mk · slot) hid
    rw [version, htype, hsession]
    exact isApplicable_of_givenOut htied hplaced (hlink ▸ hstray _ hslot)

def Admits (o : LocalCopy) (q : Property) : Prop :=
  q ∈ o.type.properties ∧ q.isApplicable o.version = true

/-- Whatever is asked of a copy about a property, it fails with a fault and changes nothing. -/
structure Refuses (o : LocalCopy) (p : Property) (e : Fault) : Prop where
  get : o.get p = .error e
  set : ∀ v, o.set p v = .failed e o
  delete : o.delete p = .failed e o
  composite : ∀ (α : Type) (edit : Composite → Edited Composite α),
    o.editComposite p edit = .failed e o
  collection : ∀ (α : Type) (edit : Collection → Edited Collection α),
    o.editCollection p edit = .failed e o

/-- Everything that a copy notes, sends and answers is about properties that the version knows, and it
refuses the others. -/
structure Gated (cat : Catalog) (o : LocalCopy) : Prop where
  noted : ∀ slot, o.values.contains slot = true ∨ o.loaded.contains slot = true ∨
    o.assigned.contains slot = true ∨ o.deleted.contains slot = true ∨
      o.touched.contains slot = true → o.type.isApplicable o.version slot = true
  payload : ∀ op ∈ o.payload, o.Admits op.property
  create : ∃ row, o.encodeCreate cat = .element .types o.type.element row ∧
    Spells cat ⟨o.session, false, none⟩ (fun q _ => o.Admits q) row
  answers : ∀ p, o.contains p = true ∨ o.isLoaded p = true ∨ o.isModified p = true ∨
    o.isDeleted p = true → ∃ q, o.Admits q ∧ q.address = p.address
  refused : ∀ q ∈ o.type.properties, q.isApplicable o.version = false →
    o.Refuses q (.versionIncompatible q.name q.since o.version)

theorem refuses_of_resolve {e : Fault} (h : o.resolve p = .error e) : o.Refuses p e := by
  have hinstantiate : o.instantiate p = .error e := by
    simp only [instantiate, h, bind, Except.bind]
  have hdelete : o.delete p = .failed e o := by simp only [delete, h]
  refine ⟨?_, ?_, hdelete, ?_, ?_⟩
  · simp only [get, h, bind, Except.bind]
  · intro v
    unfold set
    split
    · exact hdelete
    · simp only [h]
  · intro α edit
    simp only [editComposite, hinstantiate]
  · intro α edit
    simp only [editCollection, hinstantiate]

theorem admits_of_isApplicable (h : o.type.isApplicable o.version slot = true) :
    ∃ q, o.type.property? slot = some q ∧ o.Admits q := by
  obtain ⟨q, hq, happlicable⟩ := ObjectType.isApplicable_iff.mp h
  exact ⟨q, hq, List.mem_of_getElem? hq, happlicable⟩

theorem property_of_mem_slotOps {op : UpdateOp} (h : op ∈ o.slotOps slot q) : op.property = q := by
  rcases mem_slotOps h with ⟨-, rfl⟩ | ⟨-, ⟨-, rfl⟩ | ⟨v, -, rfl⟩ | ⟨c, -, -, hop⟩⟩
  · rfl
  · rfl
  · rfl
  · rcases mem_itemOps hop with ⟨item, -, rfl⟩ | ⟨position, rfl⟩ | ⟨position, item, -, rfl⟩
    · rfl
    · rfl
    · rfl

theorem admits_of_mem_payload {op : UpdateOp} (h : op ∈ o.payload) : o.Admits op.property := by
  obtain ⟨slot, q, hq, hop⟩ := mem_payload_iff.mp h
  rw [property_of_mem_slotOps hop]
  refine ⟨List.mem_of_getElem? hq, ?_⟩
  cases happlicable : q.isApplicable o.version with
  | true => rfl
  | false => simp [slotOps, happlicable] at hop

theorem Sends.admits (h : o.Sends q v) : o.Admits q := by
  obtain ⟨slot, hq, hv⟩ := h
  exact ⟨List.mem_of_getElem? hq, (createValue?_eq_some_iff.mp hv).1.1⟩

theorem resolve_of_inapplicable (ht : (o.type.properties.map Property.address).Nodup)
    (hq : q ∈ o.type.properties) (hversion : q.isApplicable o.version = false) :
    o.resolve q = .error (.versionIncompatible q.name q.since o.version) := by
  obtain ⟨slot, hslot⟩ := List.getElem?_of_mem hq
  have hfound : o.type.slotOf? q = some slot := ObjectType.slotOf?_of_nodup ht hslot
  have hproperty : o.type.property? slot = some q := hslot
  simp [resolve, hfound, hproperty, hversion]

theorem gated_of_noted (cat : Catalog) (ht : (o.type.properties.map Property.address).Nodup)
    (hnoted : ∀ slot, o.values.contains slot = true ∨ o.loaded.contains slot = true ∨
      o.assigned.contains slot = true ∨ o.deleted.contains slot = true ∨
        o.touched.contains slot = true → o.type.isApplicable o.version slot = true) :
    Gated cat o := by
  have hanswer : ∀ p (test : Nat → Bool), o.slotIs p test = true →
      (∀ slot, test slot = true → o.type.isApplicable o.version slot = true) →
      ∃ q, o.Admits q ∧ q.address = p.address := by
    intro p test hp htest
    obtain ⟨slot, hslot, htrue⟩ := (Option.any_eq_true _ _).mp hp
    obtain ⟨q, hq, haddress⟩ := ObjectType.slotOf?_eq_some hslot
    obtain ⟨r, hr, hadmits⟩ := admits_of_isApplicable (htest slot htrue)
    obtain rfl : q = r := Option.some.inj (hq.symm.trans hr)
    exact ⟨q, hadmits, haddress⟩
  refine ⟨hnoted, fun _ => admits_of_mem_payload, ?_, ?_, ?_⟩
  · obtain ⟨row, hrow, hspells⟩ := encodeCreate_spells cat o
    exact ⟨row, hrow, hspells.imp fun _ _ => Sends.admits⟩
  · rintro p (hp | hp | hp | hp)
    · exact hanswer p _ hp fun slot h => hnoted slot (.inl h)
    · exact hanswer p _ hp fun slot h => hnoted slot (.inr (.inl h))
    · refine hanswer p _ hp fun slot h => hnoted slot ?_
      simp only [isDirty, Bool.or_eq_true, or_assoc] at h
      exact .inr (.inr h)
    · exact hanswer p _ hp fun slot h => hnoted slot (.inr (.inr (.inr (.inl h))))
  · intro q hq hversion
    exact refuses_of_resolve (resolve_of_inapplicable ht hq hversion)

/-- Whatever is done to a new copy, it keeps to the properties that the version of its session
knows. -/
theorem Reachable.gated {id : Nat} {type : ObjectType} {session : Session}
    (ht : (type.properties.map Property.address).Nodup)
    (h : Reachable cat (givenOut cat (new id type session)) (new id type session) o) :
    Gated cat o := by
  have htied : Tied (new id type session) := .clear (new id type session)
  have hplaced : Placed (new id type session) := .clear (new id type session)
  have hfound : Found o := h.found (.clear (new id type session))
  have hheld : Placed o := h.placed hplaced
  have hheard : Hears o := h.hears (.of_unheard rfl) htied hplaced
  have htype : o.type = type := h.isSame.2.1
  apply gated_of_noted cat (htype ▸ ht)
  rintro slot (hv | hl | ha | hd | hh)
  · obtain ⟨v, hv⟩ := Option.isSome_iff_exists.mp hv
    exact hheld slot v hv
  · exact hfound slot (.inl hl)
  · exact hfound slot (.inr (.inl ha))
  · exact hfound slot (.inr (.inr hd))
  · exact hheard slot hh

section Card
open Mail

/-- A card with a dictionary of which some servers know one entry only. -/
def card : ObjectType where
  element := "Card"
  target := .item
  members := [⟨.full, Contact.emailAddress "EmailAddress1"⟩,
    ⟨.full, (Contact.emailAddress "EmailAddress2").introducedIn .exchange2013⟩,
    ⟨.summary, Item.categories⟩]

def blankCard : LocalCopy := new 1 card ⟨.exchange2010, .utc, true⟩

def cardElement : Forest :=
  .element ⟨some .types, "EmailAddresses", []⟩
    (.element ⟨some .types, "Entry", [("Key", "EmailAddress2")]⟩ (.text "b@example.com" .closed)
      (.element ⟨some .types, "Entry", [("Key", "EmailAddress1")]⟩ (.text "a@example.com" .closed)
        .closed))
    (.element ⟨some .types, "Categories", []⟩ .closed .closed)

def loadedCard : LocalCopy :=
  (blankCard.perform (catalog []) (.load cardElement true ⟨.view, card.properties⟩ false)).state

/-- A category is added to a list of categories that was copied out of the card. -/
def sortedCard : LocalCopy := loadedCard.hear [loadedCard.link 2]

theorem sortedCard_gated : (card.properties.map Property.address).Nodup ∧
    Reachable (catalog []) (givenOut (catalog []) blankCard) blankCard sortedCard ∧
    sortedCard.values.contains 0 = true ∧ sortedCard.touched.contains 2 = true ∧
    Gated (catalog []) sortedCard := by
  have ht : (card.properties.map Property.address).Nodup := by decide
  have hloaded : ∀ strays, Reachable (catalog []) strays blankCard loadedCard :=
    fun _ => Reachable.same.perform _
  have hgiven : loadedCard.link 2 ∈ givenOut (catalog []) blankCard :=
    fun _ => ⟨∅, loadedCard, 2, _, hloaded ∅, rfl, List.mem_cons_self⟩
  have hsorted : Reachable (catalog []) (givenOut (catalog []) blankCard) blankCard sortedCard :=
    (hloaded _).hear [loadedCard.link 2] (by simpa using hgiven)
  exact ⟨ht, hsorted, by decide, by decide, Reachable.gated ht hsorted⟩

end Card

end LocalCopy

end ObjectTracking
