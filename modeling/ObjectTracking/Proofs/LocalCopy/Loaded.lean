import ObjectTracking.Proofs.LocalCopy.Dispatch
import ObjectTracking.Proofs.LocalCopy.Invariant
import ObjectTracking.Proofs.LocalCopy.Reader
import ObjectTracking.Proofs.Mail.WellFormed
/-!
What a load leaves. If it fails, nothing is left but a new copy. If it comes to its end, every property
holds what the last of its elements says, and one without elements what it held before.

Elements are read one after the other, and each of them may take up the value that the one before has
left. So the reading of a whole document is followed from the point of view of one slot: the elements
that are read into it add up, and what it holds in the end is decided by the last of them.
-/
set_option autoImplicit false

namespace ObjectTracking
open Markup

def Markup.Tag.IsEntry (tag : Tag) (key : String) : Prop :=
  tag.ns = some .types ∧ tag.name = "Entry" ∧ tag.attribute? "Key" = some key

instance (tag : Tag) (key : String) : Decidable (tag.IsEntry key) :=
  inferInstanceAs (Decidable (_ ∧ _ ∧ _))

namespace Property

/-- Where a property stands in an element of the object: it is the element, or an entry in it. -/
def sitesIn (q : Property) (x : Tag × Forest) : List (Tag × Forest) :=
  if x.1.name = q.element then
    match q.key? with
    | none => [x]
    | some key => x.2.elements.filter fun y => y.1.IsEntry key
  else []

/-- The elements or entries of a property in the content of the object's element, in order. -/
def sites (q : Property) (content : Forest) : List (Tag × Forest) :=
  content.elements.flatMap q.sitesIn

end Property

theorem flatMap_ite_singleton {α : Type} (f : α → Prop) [DecidablePred f] (xs : List α) :
    (xs.flatMap fun x => if f x then [x] else []) = xs.filter fun x => f x :=
  (flatMap_ite_map f id xs).trans (List.map_id _)

namespace ObjectType
variable {t : ObjectType} {asked : PropertySet} {summary : Bool} {version : ProtocolVersion}
  {slot : Nat}

/-- Whether a load asks for a slot: it belongs to the view, if that is the base, or is the identity
or named. -/
def Asks (t : ObjectType) (asked : PropertySet) (summary : Bool) (slot : Nat) : Prop :=
  asked.base = .view ∧ t.isInView slot summary = true ∨ t.identity? = some slot ∨
    ∃ p ∈ asked.additional, t.slotOf? p = some slot

theorem contains_requested : (t.requested asked summary version).contains slot = true ↔
    t.isApplicable version slot = true ∧ t.Asks asked summary slot := by
  rw [requested, SlotSet.contains_ofList, List.contains_iff_mem, List.mem_filter, and_comm, Asks,
    isInView, List.contains_iff_mem]
  apply and_congr_right
  intro _
  cases asked.base <;> simp [Option.mem_toList]

/-- The elements that are read into a slot: those of its property, if the version knows it. -/
def sitesIn (t : ObjectType) (version : ProtocolVersion) (slot : Nat) (x : Tag × Forest) :
    List (Tag × Forest) :=
  match t.property? slot with
  | none => []
  | some q => if q.isApplicable version then q.sitesIn x else []

end ObjectType

namespace LocalCopy
variable {cat : Catalog} {o o' o'' : LocalCopy} {slot n : Nat} {p q : Property} {tag : Tag}
  {content : Forest} {xs ys : List (Tag × Forest)}

/-- Nothing but values and what counts as loaded has changed. -/
def ReadsInto (o o' : LocalCopy) : Prop := { o' with values := o.values, loaded := o.loaded } = o

theorem ReadsInto.trans (h : o.ReadsInto o') (h' : o'.ReadsInto o'') : o.ReadsInto o'' := by
  unfold ReadsInto at *
  rw [← h'] at h
  exact h

/-- What reading elements leaves of a copy, seen from a slot that some of them are read into. -/
structure Receives (cat : Catalog) (slot : Nat) (xs : List (Tag × Forest)) (o o' : LocalCopy) :
    Prop where
  frame : o.ReadsInto o'
  loaded : o'.loaded.contains slot = true ↔ o.loaded.contains slot = true ∨ xs ≠ []
  kept : xs = [] → o'.values.get? slot = o.values.get? slot
  read : ∀ x, xs.getLast? = some x → ∀ q, o.type.property? slot = some q →
    q.has .reuseInstance o.version = false →
      ∃ v, (q.decode cat o.session ⟨some x.1, x.2⟩ none).result = .ok v ∧
        o'.values.get? slot = if v.isNull then none else some (v.attach (o.link slot))

theorem Receives.nothing (cat : Catalog) (slot : Nat) (o : LocalCopy) : Receives cat slot [] o o := by
  refine ⟨rfl, by simp, fun _ => rfl, ?_⟩
  intro x hx
  cases hx

/-- Whatever does not depend on the values is the same. -/
theorem ReadsInto.congr {α : Type} (h : o.ReadsInto o') (f : LocalCopy → α) :
    f { o' with values := o.values, loaded := o.loaded } = f o := congrArg f h

theorem ReadsInto.type (h : o.ReadsInto o') : o'.type = o.type := h.congr LocalCopy.type

theorem ReadsInto.session (h : o.ReadsInto o') : o'.session = o.session := h.congr LocalCopy.session

theorem ReadsInto.version (h : o.ReadsInto o') : o'.version = o.version := h.congr LocalCopy.version

theorem Receives.append (h : Receives cat slot xs o o') (h' : Receives cat slot ys o' o'') :
    Receives cat slot (xs ++ ys) o o'' := by
  refine ⟨h.frame.trans h'.frame, ?_, ?_, ?_⟩
  · rw [h'.loaded, h.loaded, or_assoc, Ne.eq_def (xs ++ ys), List.append_eq_nil_iff, not_and_or]
  · intro hnil
    obtain ⟨hxs, hys⟩ := List.append_eq_nil_iff.mp hnil
    rw [h'.kept hys, h.kept hxs]
  · intro x hx q hq hreuse
    by_cases hys : ys = []
    · subst hys
      rw [List.append_nil] at hx
      rw [h'.kept rfl]
      exact h.read x hx q hq hreuse
    · rw [List.getLast?_append_of_ne_nil _ hys] at hx
      have hlink : o'.link slot = o.link slot := h.frame.congr (LocalCopy.link · slot)
      have hread := h'.read x hx q (by rwa [h.frame.type]) (by rwa [h.frame.version])
      rwa [hlink, h.frame.session] at hread

theorem receives_loadSlot (hq : o.type.property? slot = some q)
    (hend : (o.loadSlot cat slot q tag content).stop? = none) :
    Receives cat slot [(tag, content)] o (o.loadSlot cat slot q tag content).state := by
  refine ⟨rfl, by simp [loadSlot], by simp, ?_⟩
  intro x hx r hr hreuse
  obtain rfl : (tag, content) = x := by simpa using hx
  obtain rfl : q = r := Option.some.inj (hq.symm.trans hr)
  simp only [loadSlot, hreuse, Bool.false_eq_true, if_false, Progress.stop?_map,
    Progress.state_map] at hend ⊢
  refine ⟨(q.decode cat o.session ⟨some tag, content⟩ none).state, ?_, ?_⟩
  · simp only [Progress.result, hend]
  · split <;> simp

theorem receives_loadSlot_of_ne (hne : n ≠ slot) :
    Receives cat slot [] o (o.loadSlot cat n q tag content).state := by
  refine ⟨rfl, ?_, fun _ => loadSlot_get?_of_ne o hne.symm q tag content, ?_⟩
  · simp [loadSlot, hne.symm]
  · intro x hx
    cases hx

/-- An entry of a dictionary is read into the slot of its key, if the version knows that. -/
theorem entryTarget?_eq_some_iff (ht : o.type.TellsEntries) (hp : o.type.property? n = some p)
    (hkey : p.key?.isSome = true) : o.entryTarget? (o.type.dispatch p.element) tag = some slot ↔
      ∃ q key, o.type.property? slot = some q ∧ q.element = p.element ∧ q.key? = some key ∧
        q.isApplicable o.version = true ∧ tag.IsEntry key := by
  constructor
  · intro htarget
    obtain ⟨⟨hns, hname⟩, hslot⟩ := Option.ite_none_right_eq_some.mp htarget
    obtain ⟨⟨n, q⟩, hentry, hn⟩ := Option.bind_eq_some_iff.mp hslot
    obtain ⟨happlicable, heq⟩ := Option.ite_none_right_eq_some.mp hn
    cases heq
    obtain ⟨hq, helement, hattribute⟩ := of_entrySlot?_eq_some hentry
    obtain ⟨key, hsome⟩ := Option.isSome_iff_exists.mp
      (ht.sharesEntries.key?_of_element hp hq helement hkey)
    exact ⟨q, key, hq, helement, hsome, happlicable, hns, hname, hattribute.symm.trans hsome⟩
  · rintro ⟨q, key, hq, helement, hsome, happlicable, hns, hname, hattribute⟩
    have hentry := entrySlot?_of_key ht hq
    rw [hsome, helement] at hentry
    simp [entryTarget?, hns, hname, hattribute, hentry, happlicable]

theorem receives_loadEntry {slots : List Nat} (slot : Nat)
    (hend : (o.loadEntry cat slots tag content).stop? = none) :
    Receives cat slot (if o.entryTarget? slots tag = some slot then [(tag, content)] else []) o
      (o.loadEntry cat slots tag content).state := by
  rcases loadEntry_eq cat o slots tag content with ⟨n, q, hq, -, hn, he⟩ | ⟨hn, he⟩
  · rw [he] at hend ⊢
    by_cases hslot : n = slot
    · subst hslot
      rw [if_pos hn]
      exact receives_loadSlot hq hend
    · rw [if_neg (by simpa [hn] using hslot)]
      exact receives_loadSlot_of_ne hslot
  · rw [he, if_neg (by simp [hn])]
    exact .nothing cat slot o

theorem sitesIn_of_ne {x : Tag × Forest}
    (h : ∀ q, o.type.property? slot = some q → q.element ≠ x.1.name) :
    o.type.sitesIn o.version slot x = [] := by
  unfold ObjectType.sitesIn
  split
  · rfl
  · rename_i q hq
    simp [Property.sitesIn, (h q hq).symm]

theorem sitesIn_dictionary (ht : o.type.TellsEntries) (hp : o.type.property? n = some p)
    (hkey : p.key?.isSome = true) (htag : tag.name = p.element) :
    o.type.sitesIn o.version slot (tag, content) = content.elements.flatMap fun y =>
      if o.entryTarget? (o.type.dispatch p.element) y.1 = some slot then [y] else [] := by
  rw [flatMap_ite_singleton fun y : Tag × Forest =>
    o.entryTarget? (o.type.dispatch p.element) y.1 = some slot]
  have htarget : ∀ tag, o.entryTarget? (o.type.dispatch p.element) tag = some slot ↔ _ :=
    fun _ => entryTarget?_eq_some_iff ht hp hkey
  cases hq : o.type.property? slot with
  | none => simp [ObjectType.sitesIn, hq, htarget]
  | some q =>
    by_cases helement : q.element = p.element
    · obtain ⟨key, hsome⟩ := Option.isSome_iff_exists.mp
        (ht.sharesEntries.key?_of_element hp hq helement hkey)
      cases happlicable : q.isApplicable o.version with
      | true =>
        simp only [ObjectType.sitesIn, hq, happlicable, Property.sitesIn, htag, helement, hsome,
          if_true]
        apply List.filter_congr
        intro y _
        simp [htarget, hq, helement, hsome, happlicable]
      | false => simp [ObjectType.sitesIn, hq, happlicable, htarget]
    · rw [sitesIn_of_ne]
      · simp [htarget, hq, helement]
      · intro r hr
        obtain rfl : q = r := Option.some.inj (hq.symm.trans hr)
        rwa [htag]

/-- An element of the object is read into the slots of the properties that stand in it. -/
theorem receives_loadElement (ht : o.type.TellsEntries) (slot : Nat)
    (hend : (o.loadElement cat tag content).stop? = none) :
    Receives cat slot (o.type.sitesIn o.version slot (tag, content)) o
      (o.loadElement cat tag content).state := by
  have hshares := ht.sharesEntries
  rcases o.type.element_cases tag.name with hunknown | ⟨n, p, hp, htag, hkey | hkey⟩
  · have hnone : o.type.sitesIn o.version slot (tag, content) = [] :=
      sitesIn_of_ne fun q hq => hunknown q (ObjectType.mem_properties hq)
    rw [loadElement_of_unknown hunknown, hnone]
    simpa using Receives.nothing cat slot o
  · rw [loadElement_of_plain hshares hp hkey htag] at hend ⊢
    by_cases hslot : n = slot
    · subst hslot
      cases happlicable : p.isApplicable o.version with
      | true =>
        rw [happlicable, if_pos rfl] at hend
        simpa [ObjectType.sitesIn, hp, happlicable, Property.sitesIn, htag, hkey] using
          receives_loadSlot hp hend
      | false =>
        simpa [ObjectType.sitesIn, hp, happlicable] using Receives.nothing cat n o
    · have hnone : o.type.sitesIn o.version slot (tag, content) = [] := by
        apply sitesIn_of_ne
        intro q hq helement
        exact hslot (hshares.slot_unique hp hkey hq (helement.trans htag)).symm
      rw [hnone]
      split
      · exact receives_loadSlot_of_ne hslot
      · simpa using Receives.nothing cat slot o
  · rw [loadElement_of_dictionary hshares hp hkey htag] at hend ⊢
    rw [sitesIn_dictionary ht hp hkey htag]
    refine Forest.walk_collects (I := o.ReadsInto) (.nothing cat slot) .append rfl
      (fun h ho => ho.trans h.frame) ?_ hend
    intro y _ o' ho' hend'
    have hsame : o'.entryTarget? (o.type.dispatch p.element) y.1 =
        o.entryTarget? (o.type.dispatch p.element) y.1 :=
      ho'.congr (LocalCopy.entryTarget? · (o.type.dispatch p.element) y.1)
    rw [← hsame]
    exact receives_loadEntry slot hend'

theorem loadEntry_readsInto (cat : Catalog) (slots : List Nat) (tag : Tag) (content : Forest)
    (o : LocalCopy) : o.ReadsInto (o.loadEntry cat slots tag content).state := by
  rcases loadEntry_eq cat o slots tag content with ⟨n, q, -, -, -, he⟩ | ⟨-, he⟩
  · rw [he]
    rfl
  · rw [he]
    rfl

theorem loadElement_readsInto (cat : Catalog) (tag : Tag) (content : Forest) (o : LocalCopy) :
    o.ReadsInto (o.loadElement cat tag content).state := by
  rcases loadElement_eq cat o tag content with ⟨n, q, -, -, -, he⟩ | ⟨slots, -, he⟩ | ⟨-, he⟩
  · rw [he]
    rfl
  · rw [he]
    exact Forest.walk_induction rfl fun y _ o' ho' =>
      ho'.trans (loadEntry_readsInto cat slots y.1 y.2 o')
  · rw [he]
    rfl

theorem walk_readsInto (cat : Catalog) (content : Forest) (o : LocalCopy) :
    o.ReadsInto (content.walk (loadElement cat) o).state :=
  Forest.walk_induction rfl fun x _ o' ho' => ho'.trans (loadElement_readsInto cat x.1 x.2 o')

theorem walk_receives (ht : o.type.TellsEntries) (slot : Nat)
    (hend : (content.walk (loadElement cat) o).stop? = none) :
    Receives cat slot (content.elements.flatMap (o.type.sitesIn o.version slot)) o
      (content.walk (loadElement cat) o).state := by
  refine Forest.walk_collects (I := o.ReadsInto) (.nothing cat slot) .append rfl
    (fun h ho => ho.trans h.frame) ?_ hend
  intro x _ o' ho' hend'
  rw [← ho'.type, ← ho'.version]
  exact receives_loadElement (ho'.type ▸ ht) slot hend'

/-- What a load that succeeds makes of a copy. -/
structure LoadedFrom (cat : Catalog) (o : LocalCopy) (content : Forest) (clearFirst : Bool)
    (asked : PropertySet) (summary : Bool) (o' : LocalCopy) : Prop where
  same : o'.id = o.id ∧ o'.type = o.type ∧ o'.session = o.session ∧ o'.watched = o.watched
  unchanged : o'.assigned = ∅ ∧ o'.deleted = ∅ ∧ o'.touched = ∅
  isNew : o'.isNew = false
  /-- What was loaded, unless that is cleared, and what is asked for or occurs. -/
  loaded : ∀ slot, o'.loaded.contains slot = true ↔
    clearFirst = false ∧ o.loaded.contains slot = true ∨
      ∃ q, o.type.property? slot = some q ∧ q.isApplicable o.version = true ∧
        (o.type.Asks asked summary slot ∨ q.sites content ≠ [])
  kept : ∀ slot, (∀ q, o.type.property? slot = some q → q.isApplicable o.version = true →
    q.sites content = []) → o'.values.get? slot = if clearFirst then none else o.values.get? slot
  /-- Of several elements of a property, the last one gives its value. -/
  read : ∀ slot q, o.type.property? slot = some q → q.isApplicable o.version = true →
    q.has .reuseInstance o.version = false → ∀ site, (q.sites content).getLast? = some site →
      ∃ v, (q.decode cat o.session ⟨some site.1, site.2⟩ none).result = .ok v ∧
        o'.values.get? slot = if v.isNull then none else some (v.attach (o.link slot))

section Load
variable {clearFirst : Bool} {asked : PropertySet} {summary : Bool}

theorem load_failed (hstop : (o.load cat content clearFirst asked summary).stop? ≠ none) :
    (o.load cat content clearFirst asked summary).state =
      { new o.id o.type o.session with watched := o.watched } := by
  have hread := walk_readsInto cat content (o.loadStart clearFirst)
  unfold load at hstop ⊢
  rw [Progress.stop?_map] at hstop
  rw [Progress.state_map, if_pos (Option.isSome_iff_ne_none.mpr hstop)]
  calc (content.walk (loadElement cat) (o.loadStart clearFirst)).state.clear
      = (o.loadStart clearFirst).clear := hread.congr LocalCopy.clear
    _ = o.clear := by cases clearFirst <;> rfl

/-- The sites of a slot are those of its property. -/
theorem sitesIn_content (hq : o.type.property? slot = some q)
    (happlicable : q.isApplicable o.version = true) :
    content.elements.flatMap (o.type.sitesIn o.version slot) = q.sites content := by
  have hsites : o.type.sitesIn o.version slot = q.sitesIn := by
    funext x
    simp [ObjectType.sitesIn, hq, happlicable]
  rw [hsites, Property.sites]

theorem sitesIn_content_eq_nil_iff :
    content.elements.flatMap (o.type.sitesIn o.version slot) = [] ↔
      ∀ q, o.type.property? slot = some q → q.isApplicable o.version = true →
        q.sites content = [] := by
  constructor
  · intro hnil q hq happlicable
    rw [← sitesIn_content hq happlicable, hnil]
  · intro hnone
    cases hq : o.type.property? slot with
    | none => simp [ObjectType.sitesIn, hq]
    | some q =>
      cases happlicable : q.isApplicable o.version with
      | true => rw [sitesIn_content hq happlicable, hnone q hq happlicable]
      | false => simp [ObjectType.sitesIn, hq, happlicable]

theorem loadStart_same (o : LocalCopy) (clearFirst : Bool) :
    (o.loadStart clearFirst).id = o.id ∧ (o.loadStart clearFirst).type = o.type ∧
      (o.loadStart clearFirst).session = o.session ∧
      (o.loadStart clearFirst).watched = o.watched := by
  cases clearFirst <;> exact ⟨rfl, rfl, rfl, rfl⟩

theorem loadStart_values (o : LocalCopy) (clearFirst : Bool) (slot : Nat) :
    (o.loadStart clearFirst).values.get? slot =
      if clearFirst then none else o.values.get? slot := by
  cases clearFirst <;> rfl

theorem loadStart_loaded (o : LocalCopy) (clearFirst : Bool) (slot : Nat) :
    (o.loadStart clearFirst).loaded.contains slot = true ↔
      clearFirst = false ∧ o.loaded.contains slot = true := by
  cases clearFirst <;> simp [loadStart, LocalCopy.clear]

theorem load_succeeded (ht : o.type.TellsEntries)
    (hend : (o.load cat content clearFirst asked summary).stop? = none) :
    LoadedFrom cat o content clearFirst asked summary
      (o.load cat content clearFirst asked summary).state := by
  obtain ⟨hid, htype, hsession, hwatched⟩ := loadStart_same o clearFirst
  have hversion : (o.loadStart clearFirst).version = o.version := congrArg Session.version hsession
  have hwalk : (content.walk (loadElement cat) (o.loadStart clearFirst)).stop? = none := hend
  have hread := walk_readsInto cat content (o.loadStart clearFirst)
  have hreceives (slot : Nat) := walk_receives (htype ▸ ht) slot hwalk
  have hstate : (o.load cat content clearFirst asked summary).state =
      { (content.walk (loadElement cat) (o.loadStart clearFirst)).state with
        loaded := (content.walk (loadElement cat) (o.loadStart clearFirst)).state.loaded ∪
          o.type.requested asked summary o.version
        assigned := ∅, deleted := ∅, touched := ∅, isNew := false } := by
    rw [← htype, ← hversion, ← hread.type, ← hread.version]
    exact if_neg (Option.not_isSome_iff_eq_none.mpr hwalk)
  generalize (content.walk (loadElement cat) (o.loadStart clearFirst)).state = w at *
  rw [hstate]
  rw [htype, hversion] at hreceives
  refine ⟨?_, ⟨rfl, rfl, rfl⟩, rfl, ?_, ?_, ?_⟩
  · exact ⟨(hread.congr LocalCopy.id).trans hid, hread.type.trans htype,
      hread.session.trans hsession, (hread.congr LocalCopy.watched).trans hwatched⟩
  · intro slot
    have hsites : content.elements.flatMap (o.type.sitesIn o.version slot) ≠ [] ↔
        ∃ q, o.type.property? slot = some q ∧ q.isApplicable o.version = true ∧
          q.sites content ≠ [] := by
      rw [Ne, sitesIn_content_eq_nil_iff]
      simp only [not_forall, exists_prop]
    rw [SlotSet.contains_union, Bool.or_eq_true, (hreceives slot).loaded, loadStart_loaded,
      ObjectType.contains_requested, ObjectType.isApplicable_iff, hsites, or_assoc]
    apply or_congr_right
    constructor
    · rintro (⟨q, hq, happlicable, hoccurs⟩ | ⟨⟨q, hq, happlicable⟩, hasked⟩)
      · exact ⟨q, hq, happlicable, .inr hoccurs⟩
      · exact ⟨q, hq, happlicable, .inl hasked⟩
    · rintro ⟨q, hq, happlicable, hasked | hoccurs⟩
      · exact .inr ⟨⟨q, hq, happlicable⟩, hasked⟩
      · exact .inl ⟨q, hq, happlicable, hoccurs⟩
  · intro slot hnone
    rw [← loadStart_values]
    exact (hreceives slot).kept (sitesIn_content_eq_nil_iff.mpr hnone)
  · intro slot q hq happlicable hreuse site hsite
    rw [← sitesIn_content hq happlicable] at hsite
    have hlink : (o.loadStart clearFirst).link slot = o.link slot :=
      congrArg (Link.mk · slot) hid
    have hvalue := (hreceives slot).read site hsite q (by rwa [htype]) (by rwa [hversion])
    rwa [hsession, hlink] at hvalue

end Load

/-- A load that fails leaves a new copy. One that succeeds leaves nothing to send, and what was read in
the slots of the properties that occur. -/
theorem readObject_outcome (cat : Catalog) (o : LocalCopy) (ht : o.type.TellsEntries) (c : Cursor)
    (clearFirst : Bool) (asked : PropertySet) (summary : Bool) :
    (∀ e, (o.readObject cat c clearFirst asked summary).result = .error e →
      (o.readObject cat c clearFirst asked summary).state =
        { new o.id o.type o.session with watched := o.watched }) ∧
    ∀ o', (o.readObject cat c clearFirst asked summary).result = .ok o' →
      (o.readObject cat c clearFirst asked summary).state = o' ∧
        LoadedFrom cat o (Forest.ofNodes c.rest) clearFirst asked summary o' := by
  rw [readObject_eq, Passage.result_ofTree]
  unfold Progress.result
  constructor
  · intro e he
    apply load_failed
    intro hnone
    rw [hnone] at he
    cases he
  · intro o' ho'
    split at ho'
    · cases ho'
    · rename_i hend
      cases ho'
      exact ⟨rfl, load_succeeded ht hend⟩

section Contact
open Mail

def unsavedContact : LocalCopy :=
  (new 1 Contact.type Mail.session).run (catalog [])
    [.set Item.subject (.scalar (.text "Tea")), .set Item.sensitivity (.scalar (.text "Private")),
      .set (Contact.emailAddress "EmailAddress1") (.scalar (.text "old@example.com"))]

def addressNodes (address : String) : List Node :=
  [.opening ⟨some .types, "Entry", [("Key", "EmailAddress1")]⟩, .text address,
    .closing (some .types) "Entry"]

/-- The element of the contact: its sensitivity is empty, and its address stands there twice. -/
def contactElement : Cursor :=
  ⟨some (.opening ⟨some .types, "Contact", []⟩),
    [.opening ⟨some .types, "Sensitivity", []⟩, .closing (some .types) "Sensitivity",
      .opening ⟨some .types, "EmailAddresses", []⟩] ++ addressNodes "a@example.com" ++
    addressNodes "b@example.com" ++
    [.closing (some .types) "EmailAddresses", .closing (some .types) "Contact"]⟩

/-- What was not saved is lost where the contact has something else to say, and the subject stays. -/
theorem contactElement_outcome : Contact.type.TellsEntries ∧
    ∃ o', (unsavedContact.readObject (catalog []) contactElement false {} false).result = .ok o' ∧
      LoadedFrom (catalog []) unsavedContact (Forest.ofNodes contactElement.rest) false {} false o' ∧
      o'.values.get? 1 = some (.scalar (.text "Tea")) ∧ o'.values.get? 2 = none ∧
      o'.values.get? 10 = some (.scalar (.text "b@example.com")) := by
  have ht : Contact.type.TellsEntries :=
    (types_wellFormed (catalog []) Contact.type (by simp [types])).elements
  have hok : (unsavedContact.readObject (catalog []) contactElement false {} false).result =
      .ok (unsavedContact.load (catalog []) (Forest.ofNodes contactElement.rest) false {}
        false).state := by
    rw [readObject_eq, Passage.result_ofTree]
    rfl
  have houtcome := readObject_outcome (catalog []) unsavedContact ht contactElement false {} false
  exact ⟨ht, _, hok, (houtcome.2 _ hok).2, rfl, rfl, rfl⟩

end Contact

end LocalCopy

end ObjectTracking
