import ObjectTracking.Proofs.LocalCopy.Dispatch
import ObjectTracking.Proofs.LocalCopy.Mentions
/-!
Loading a document twice. The second load finds what the first has left, and leaves it as it is.
-/
set_option autoImplicit false

namespace ObjectTracking
open Markup

theorem Markup.Progress.result_eq_ok_iff {σ : Type} {p : Progress σ} {s : σ} :
    p.result = .ok s ↔ p.finished? = some s := by
  unfold result finished?
  cases p.stop? <;> simp

namespace LocalCopy
variable {cat : Catalog} {o o' : LocalCopy} {q : Property} {slot : Nat} {content : Forest}
  {c : Cursor} {asked : PropertySet} {summary : Bool}

def concluded (asked : PropertySet) (summary : Bool) (o : LocalCopy) : LocalCopy :=
  { o with
    loaded := o.loaded ∪ o.type.requested asked summary o.version
    assigned := ∅
    deleted := ∅
    touched := ∅
    isNew := false }

theorem reading_concluded (asked : PropertySet) (summary : Bool) (o : LocalCopy) :
    Reading o (o.concluded asked summary) := ⟨rfl, rfl, rfl, fun _ => .inl rfl⟩

theorem readObject_result_iff : (o.readObject cat c false asked summary).result = .ok o' ↔
    ∃ e, ((Forest.ofNodes c.rest).walk (loadElement cat) o).finished? = some e ∧
      e.concluded asked summary = o' := by
  rw [readObject_eq, Passage.result_ofTree, Progress.result_eq_ok_iff]
  unfold load Progress.finished?
  cases hstop : ((Forest.ofNodes c.rest).walk (loadElement cat) o).stop? <;>
    simp [hstop, concluded]

theorem concluded_concluded (asked : PropertySet) (summary : Bool) (o : LocalCopy) :
    (o.concluded asked summary).concluded asked summary = o.concluded asked summary := by
  have hloaded : ∀ s t : SlotSet, s ∪ t ∪ t = s ∪ t := by
    intro s t
    apply SlotSet.eq_of_contains
    intro n
    simp
  simp only [concluded, LocalCopy.version, hloaded]

/-- Whatever the slots hold, a load reads the same elements and does the same at its end, unless
something in the document cannot be passed over. -/
theorem readObject_heeds (cat : Catalog) (o : LocalCopy) (c : Cursor) : ∃ passes : Bool,
    ∀ o', Reading o o' → ∀ asked summary o'', (o'.readObject cat c false asked summary).result =
      .ok o'' ↔ passes = true ∧ ∃ e, (o.mentions (Forest.ofNodes c.rest)).foldlM (heed cat) o' =
        some e ∧ e.concluded asked summary = o'' := by
  obtain ⟨passes, hwalk⟩ := walk_heeds cat o (Forest.ofNodes c.rest)
  refine ⟨passes, ?_⟩
  intro o' ho asked summary o''
  rw [readObject_result_iff, hwalk o' ho]
  cases passes <;> simp

/-- The slots that held a collection whose items go by another name than the property has for them,
and do so no longer, are read from elements that can also be read with nothing held. -/
def ReadsAnew (cat : Catalog) (content : Forest) (o o' : LocalCopy) : Prop :=
  ∀ slot q, o.type.property? slot = some q →
    q.foreignName? o.session (o.values.get? slot) ≠ none →
    q.foreignName? o.session (o'.values.get? slot) = none →
    ∃ w, q.readAll cat o.session (o.link slot) (elementsOf slot (o.mentions content)) none = some w

theorem readObject_reading (h : (o.readObject cat c false asked summary).result = .ok o') :
    Reading o o' := by
  obtain ⟨e, he, rfl⟩ := readObject_result_iff.mp h
  obtain rfl := Progress.state_of_finished? he
  exact (walk_reading cat o _).trans (reading_concluded asked summary _)

/-- What a load that succeeds makes of a slot is what the elements read into it make of what it
held. -/
theorem readObject_readAll (h : (o.readObject cat c false asked summary).result = .ok o')
    (hq : o.type.property? slot = some q) : q.readAll cat o.session (o.link slot)
      (elementsOf slot (o.mentions (Forest.ofNodes c.rest))) (o.values.get? slot) =
        some (o'.values.get? slot) := by
  obtain ⟨passes, hreads⟩ := readObject_heeds cat o c
  obtain ⟨-, e, he, rfl⟩ := (hreads o (.refl o) asked summary o').mp h
  exact (((foldlM_mentions_iff cat _ (.refl o)).mp he).2 slot).value q hq

/-- A slot that something was read into counts as loaded. -/
theorem readObject_loaded (h : (o.readObject cat c false asked summary).result = .ok o')
    {m : Mention} (hm : m ∈ o.mentions (Forest.ofNodes c.rest)) :
    o'.loaded.contains m.slot = true := by
  obtain ⟨passes, hreads⟩ := readObject_heeds cat o c
  obtain ⟨-, e, he, rfl⟩ := (hreads o (.refl o) asked summary o').mp h
  have hflags := congrArg Cell.loaded (((foldlM_mentions_iff cat _ (.refl o)).mp he).2 m.slot).flags
  have hany : (o.mentions (Forest.ofNodes c.rest)).any (·.slot = m.slot) = true :=
    List.any_eq_true.mpr ⟨m, hm, by simp⟩
  have he : e.loaded.contains m.slot = true := by simpa [cell, hany] using hflags
  simp [concluded, he]

/-- To load a document once more leaves the copy as it is or fails, and it fails only if a collection
whose items go by another name was held and the elements that replaced it cannot be read without it. -/
theorem reload_iff (h : (o.readObject cat c false asked summary).result = .ok o')
    (o'' : LocalCopy) : (o'.readObject cat c false asked summary).result = .ok o'' ↔
      o'' = o' ∧ o.ReadsAnew cat (Forest.ofNodes c.rest) o' := by
  have hreading := readObject_reading h
  have hconcluded : o'.concluded asked summary = o' := by
    obtain ⟨e, -, rfl⟩ := readObject_result_iff.mp h
    exact concluded_concluded asked summary e
  have hanew : o.ReadsAnew cat (Forest.ofNodes c.rest) o' ↔ ∀ slot q,
      o.type.property? slot = some q → q.readAll cat o.session (o.link slot)
        (elementsOf slot (o.mentions (Forest.ofNodes c.rest))) (o'.values.get? slot) =
          some (o'.values.get? slot) :=
    forall_congr' fun slot => forall_congr' fun q => forall_congr' fun hq =>
      (Property.readAll_again (readObject_readAll h hq)).2.symm
  have htold : ∀ slot d, Told cat o (o.mentions (Forest.ofNodes c.rest)) slot (o'.cell slot) d ↔
      d = o'.cell slot ∧ ∀ q, o.type.property? slot = some q →
        q.readAll cat o.session (o.link slot)
          (elementsOf slot (o.mentions (Forest.ofNodes c.rest))) (o'.values.get? slot) =
            some (o'.values.get? slot) := by
    intro slot d
    have hloaded : ((o'.cell slot).loaded ||
        (o.mentions (Forest.ofNodes c.rest)).any (·.slot = slot)) = (o'.cell slot).loaded := by
      rw [Bool.or_eq_left_iff_imp, List.any_eq_true]
      rintro ⟨m, hm, hslot⟩
      obtain rfl := of_decide_eq_true hslot
      exact readObject_loaded h hm
    constructor
    · rintro ⟨hvalue, hkept, hflags⟩
      have hsame : d.value? = (o'.cell slot).value? := by
        cases hslot : o.type.property? slot with
        | none => exact hkept hslot
        | some q => exact (Property.readAll_again (readObject_readAll h hslot)).1 _ (hvalue q hslot)
      rw [hsame, hloaded] at hflags
      refine ⟨hflags, ?_⟩
      intro q hq
      have hagain := hvalue q hq
      rwa [hsame] at hagain
    · rintro ⟨rfl, hvalue⟩
      exact ⟨hvalue, fun _ => rfl, by rw [hloaded]⟩
  obtain ⟨passes, hreads⟩ := readObject_heeds cat o c
  obtain ⟨hpasses, -⟩ := (hreads o (.refl o) asked summary o').mp h
  rw [hreads o' hreading asked summary o'', hanew]
  simp only [foldlM_mentions_iff cat _ hreading, htold]
  constructor
  · rintro ⟨-, e, ⟨hframe, hcells⟩, rfl⟩
    obtain rfl := eq_of_cells hframe fun slot => (hcells slot).1
    exact ⟨hconcluded, fun slot => (hcells slot).2⟩
  · rintro ⟨rfl, hanew⟩
    exact ⟨hpasses, o'', ⟨⟨rfl, rfl, rfl, rfl, rfl⟩, fun slot => ⟨rfl, hanew slot⟩⟩, hconcluded⟩

section Party
open Mail

/-- The guests of a party. A new party has a list of persons for them, although the elements of the
items are those of attendees. -/
def guestList : Property :=
  (((Property.collection "Guests" "party:Guests" attendee "Attendee").contained "List").withFlags
    (Flag.mutable ++ [.reuseInstance, .autoCreate])).withDefault
      (.collection (Collection.new attendee "Person"))

def guestParty : ObjectType where
  element := "Party"
  target := .item
  members := [⟨.summary, guestList⟩]

def plannedParty : LocalCopy :=
  (new 1 guestParty Mail.session).run (catalog []) [.edit guestList (.collection .touch)]

/-- The element of a party with somebody who has responded, and a second list that is empty. -/
def partyElement (response : String) : Cursor :=
  ⟨some (.opening ⟨some .types, "Party", []⟩),
    [.opening ⟨some .types, "Guests", []⟩, .opening ⟨some .types, "List", []⟩,
      .opening ⟨some .types, "Attendee", []⟩, .opening ⟨some .types, "ResponseType", []⟩,
      .text response, .closing (some .types) "ResponseType", .closing (some .types) "Attendee",
      .closing (some .types) "List", .opening ⟨some .types, "List", []⟩,
      .closing (some .types) "List", .closing (some .types) "Guests",
      .closing (some .types) "Party"]⟩

def loadedParty (response : String) : LocalCopy :=
  (plannedParty.load (catalog []) (Forest.ofNodes (partyElement response).rest) false {} false).state

/-- A second load with a response that is known leaves what the first has left. -/
theorem acceptedParty_reload_iff :
    (plannedParty.readObject (catalog []) (partyElement "Accept") false {} false).result =
      .ok (loadedParty "Accept") ∧
    ∀ o'', ((loadedParty "Accept").readObject (catalog []) (partyElement "Accept") false {}
      false).result = .ok o'' ↔ o'' = loadedParty "Accept" ∧ plannedParty.ReadsAnew (catalog [])
        (Forest.ofNodes (partyElement "Accept").rest) (loadedParty "Accept") := by
  have hok : (plannedParty.readObject (catalog []) (partyElement "Accept") false {} false).result =
      .ok (loadedParty "Accept") := by
    rw [readObject_eq, Passage.result_ofTree]
    rfl
  exact ⟨hok, reload_iff hok⟩

/-- A response that is not known was passed over as long as persons were expected, and is an error
the second time. -/
theorem plannedParty_loads_once : plannedParty.type.SharesEntries ∧
    (plannedParty.readObject (catalog []) (partyElement "Bogus") false {} false).result =
      .ok (loadedParty "Bogus") ∧
    ∀ o'', ((loadedParty "Bogus").readObject (catalog []) (partyElement "Bogus") false {}
      false).result ≠ .ok o'' := by
  have hok : (plannedParty.readObject (catalog []) (partyElement "Bogus") false {} false).result =
      .ok (loadedParty "Bogus") := by
    rw [readObject_eq, Passage.result_ofTree]
    rfl
  refine ⟨List.pairwise_singleton _ _, hok, ?_⟩
  intro o'' h
  have herror : ((loadedParty "Bogus").readObject (catalog []) (partyElement "Bogus") false {}
      false).result.toOption = none := by
    rw [readObject_eq, Passage.result_ofTree]
    rfl
  rw [h] at herror
  cases herror

end Party

end LocalCopy

end ObjectTracking
