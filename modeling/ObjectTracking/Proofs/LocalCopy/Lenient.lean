import ObjectTracking.Proofs.LocalCopy.Reloaded
import ObjectTracking.Proofs.LocalCopy.Reader
import ObjectTracking.Proofs.Mail.WellFormed
import ObjectTracking.Proofs.Property.Lenient
/-!
Lenient loads. A lenient load is the strict load of the document in which nothing stands in the place of
the names that no enumeration knows. A document that can be loaded strictly is loaded just so
leniently.
-/
set_option autoImplicit false

namespace ObjectTracking
open Markup

/-- The layouts that a type leads to tell their fields by their names, and beside the key of an entry
there is no other attribute of that name. -/
structure ObjectType.Unambiguous (cat : Catalog) (U : LayoutId → Prop) (type : ObjectType) : Prop where
  layouts : cat.Distinct U
  reached : ∀ slot q, type.property? slot = some q → ∀ l, q.shape.layout? = some l → U l
  keys : ∀ slot q, type.property? slot = some q → q.key?.isSome = true →
    ¬ q.shape.HasAttribute cat "Key"

theorem ObjectType.WellFormed.unambiguous {cat : Catalog} {type : ObjectType}
    (h : type.WellFormed cat) (hcat : cat.WellFormed) : type.Unambiguous cat fun _ => True := by
  refine ⟨⟨cat.closed_true, fun l _ => (hcat l).distinct⟩, fun _ _ _ _ _ => trivial, ?_⟩
  intro slot q hq
  exact (h.properties q (List.mem_of_getElem? hq)).entry

namespace LocalCopy
variable {cat : Catalog} {U : LayoutId → Prop} {o : LocalCopy} {q : Property} {slot : Nat}

/-- The copy in a session in which names that no enumeration knows are refused, or taken for no
value. -/
def decoding (o : LocalCopy) (strict : Bool) : LocalCopy :=
  { o with session := o.session.decoding strict }

theorem decoding_decoding {strict : Bool} (h : o.session.strict = strict) (strict' : Bool) :
    (o.decoding strict').decoding strict = o := by
  subst h
  rfl

def relaxSlot (cat : Catalog) (slot : Nat) (q : Property) (tag : Tag) (content : Forest)
    (o : LocalCopy) : Tag × Forest :=
  q.shape.relax cat tag content
    (if q.has .reuseInstance o.version then o.values.get? slot else none)

def relaxEntry (cat : Catalog) (slots : List Nat) (tag : Tag) (content : Forest) (o : LocalCopy) :
    Tag × Forest :=
  match o.entryMention? slots (tag, content) with
  | some m => o.relaxSlot cat m.slot m.property tag content
  | none => (tag, content)

/-- An element of the object, relaxed for what it is read into. -/
def relaxElement (cat : Catalog) (tag : Tag) (content : Forest) (o : LocalCopy) : Tag × Forest :=
  let slots := o.type.dispatch tag.name
  match slots.head?.bind fun slot => (o.type.property? slot).map (slot, ·) with
  | none => (tag, content)
  | some (slot, q) =>
    if q.key?.isSome then
      (tag, content.along (fun tag content o => (o.loadEntry cat slots tag content).state)
        (fun tag content o => o.relaxEntry cat slots tag content) o)
    else if q.isApplicable o.version then o.relaxSlot cat slot q tag content
    else (tag, content)

/-- The content of the object's element, with every attribute value and every text emptied that is read
for an enumeration which does not know it. -/
def relax (cat : Catalog) (content : Forest) (o : LocalCopy) : Forest :=
  content.along (fun tag content o => (o.loadElement cat tag content).state)
    (fun tag content o => o.relaxElement cat tag content) o

theorem relaxSlot_named (cat : Catalog) (slot : Nat) (q : Property) (tag : Tag) (content : Forest)
    (o : LocalCopy) : (o.relaxSlot cat slot q tag content).1.ns = tag.ns ∧
      (o.relaxSlot cat slot q tag content).1.name = tag.name :=
  q.shape.relax_tag_named cat tag content _

theorem loadSlot_relaxes (h : o.type.Unambiguous cat U) (ho : o.session.strict = false)
    (hq : o.type.property? slot = some q) (tag : Tag) (content : Forest) :
    Progress.Relaxes (decoding · true) (o.loadSlot cat slot q tag content)
      ((o.decoding true).loadSlot cat slot q (o.relaxSlot cat slot q tag content).1
        (o.relaxSlot cat slot q tag content).2)
      ((o.decoding true).loadSlot cat slot q tag content) := by
  have hread := Shape.decode_relaxes h.layouts (h.reached slot q hq) o.session q.name tag content
    (if q.has .reuseInstance o.version then o.values.get? slot else none)
  have hsession : o.session.decoding false = o.session := ho ▸ o.session.decoding_strict
  rw [hsession] at hread
  exact hread.map (o.withRead slot) ((o.decoding true).withRead slot) fun _ => rfl

theorem skip_relaxes (content : Forest) (o : LocalCopy) : Progress.Relaxes (decoding · true)
    (content.skip o) (content.skip (o.decoding true)) (content.skip (o.decoding true)) :=
  Forest.skip_relaxes (decoding · true) content o

section Entry
variable {slots : List Nat} {tag tag' : Tag} {content content' : Forest} {m : Mention}

theorem key?_of_entryMention? {x : Tag × Forest} (h : o.entryMention? slots x = some m) :
    m.property.key? = x.1.attribute? "Key" := by
  obtain ⟨-, h⟩ := Option.ite_none_right_eq_some.mp h
  obtain ⟨⟨slot, q⟩, hs, h⟩ := Option.bind_eq_some_iff.mp h
  obtain ⟨-, h⟩ := Option.ite_none_right_eq_some.mp h
  obtain rfl := Option.some.inj h
  obtain ⟨n, -, hn⟩ := List.exists_of_findSome?_eq_some hs
  obtain ⟨r, -, hr⟩ := Option.bind_eq_some_iff.mp hn
  obtain ⟨hkey, heq⟩ := Option.ite_none_right_eq_some.mp hr
  cases heq
  exact hkey

/-- What an element of a dictionary is read into is told by its name and its key. -/
theorem entryMention?_of_named (h : o.entryMention? slots (tag, content) = some m)
    (hns : tag'.ns = tag.ns) (hname : tag'.name = tag.name)
    (hkey : tag'.attribute? "Key" = tag.attribute? "Key") (content' : Forest) :
    o.entryMention? slots (tag', content') = some { m with element := (tag', content') } := by
  obtain ⟨hentry, h⟩ := Option.ite_none_right_eq_some.mp h
  obtain ⟨⟨slot, q⟩, hs, h⟩ := Option.bind_eq_some_iff.mp h
  obtain ⟨happlicable, h⟩ := Option.ite_none_right_eq_some.mp h
  obtain rfl := Option.some.inj h
  have hentry' : tag'.ns = some .types ∧ tag'.name = "Entry" :=
    ⟨hns.trans hentry.1, hname.trans hentry.2⟩
  simp only [entryMention?, if_pos hentry', hkey, hs, Option.bind_some, if_pos happlicable]

theorem loadEntry_relaxes (h : o.type.Unambiguous cat U) (ho : o.session.strict = false)
    (slots : List Nat) (tag : Tag) (content : Forest) :
    Progress.Relaxes (decoding · true) (o.loadEntry cat slots tag content)
      ((o.decoding true).loadEntry cat slots (o.relaxEntry cat slots tag content).1
        (o.relaxEntry cat slots tag content).2)
      ((o.decoding true).loadEntry cat slots tag content) := by
  have hdecoding : ∀ x, (o.decoding true).entryMention? slots x = o.entryMention? slots x :=
    fun _ => rfl
  unfold relaxEntry
  cases hm : o.entryMention? slots (tag, content) with
  | none =>
    obtain ⟨reports, hskip⟩ := loadEntry_of_no_mention hm cat
    obtain ⟨reports', hskip'⟩ :=
      loadEntry_of_no_mention ((hdecoding (tag, content)).trans hm) cat
    rw [hskip, hskip']
    exact (skip_relaxes content o).remarked _ _ _
  | some m =>
    have hq := property?_of_entryMention? hm
    obtain ⟨hns, hname⟩ := relaxSlot_named cat m.slot m.property tag content o
    have hkey : (o.relaxSlot cat m.slot m.property tag content).1.attribute? "Key" =
        tag.attribute? "Key" := by
      cases hattribute : tag.attribute? "Key" with
      | none => exact Shape.relax_attribute?_of_none hattribute cat m.property.shape content _
      | some key =>
        have hkeyed : m.property.key? = some key := (key?_of_entryMention? hm).trans hattribute
        have hfree := h.keys m.slot m.property hq (by simp [hkeyed])
        exact (Shape.relax_attribute? hfree tag content _).trans hattribute
    have hm' := entryMention?_of_named hm hns hname hkey
      (o.relaxSlot cat m.slot m.property tag content).2
    obtain ⟨-, hlenient⟩ := loadEntry_of_mention hm cat
    obtain ⟨-, hstrict⟩ := loadEntry_of_mention ((hdecoding _).trans hm) cat
    obtain ⟨-, hrelaxed⟩ := loadEntry_of_mention ((hdecoding _).trans hm') cat
    simp only at hlenient hstrict hrelaxed
    simp only [hlenient, hstrict, hrelaxed]
    exact loadSlot_relaxes h ho hq tag content

end Entry

theorem loadElement_relaxes (h : o.type.Unambiguous cat U) (ho : o.session.strict = false)
    (tag : Tag) (content : Forest) :
    Progress.Relaxes (decoding · true) (o.loadElement cat tag content)
      ((o.decoding true).loadElement cat (o.relaxElement cat tag content).1
        (o.relaxElement cat tag content).2)
      ((o.decoding true).loadElement cat tag content) := by
  have hversion : (o.decoding true).version = o.version := rfl
  have htype : (o.decoding true).type = o.type := rfl
  unfold relaxElement
  dsimp only
  cases hs : (o.type.dispatch tag.name).head?.bind fun slot =>
      (o.type.property? slot).map (slot, ·) with
  | none =>
    simp only [loadElement, htype, hs]
    exact (skip_relaxes content o).remarked _ _ _
  | some r =>
    obtain ⟨slot, q⟩ := r
    by_cases hkey : q.key?.isSome = true
    · simp only [loadElement, htype, hs, hkey, if_true]
      refine Forest.walk_relaxes (Reading o) (fun o => o) ?_ (fun _ _ _ _ => rfl) ?_ content (.refl o)
      · intro tag content o' ho'
        exact ho'.trans (loadEntry_reading cat o' _ tag content)
      · intro tag content o' ho'
        exact loadEntry_relaxes (ho'.type ▸ h) (ho'.session ▸ ho) _ tag content
    · by_cases happlicable : q.isApplicable o.version = true
      · have hq : o.type.property? slot = some q := by
          obtain ⟨n, -, hn⟩ := Option.bind_eq_some_iff.mp hs
          obtain ⟨r, hr, heq⟩ := Option.map_eq_some_iff.mp hn
          cases heq
          exact hr
        obtain ⟨-, hname⟩ := relaxSlot_named cat slot q tag content o
        simp only [loadElement, htype, hversion, hs, if_neg hkey, happlicable, if_true, hname]
        exact loadSlot_relaxes h ho hq tag content
      · simp only [loadElement, htype, hversion, hs, if_neg hkey, if_neg happlicable]
        exact (skip_relaxes content o).remarked _ _ _

theorem walk_relaxes (h : o.type.Unambiguous cat U) (ho : o.session.strict = false)
    (content : Forest) :
    Progress.Relaxes (decoding · true) (content.walk (loadElement cat) o)
      ((o.relax cat content).walk (loadElement cat) (o.decoding true))
      (content.walk (loadElement cat) (o.decoding true)) := by
  refine Forest.walk_relaxes (Reading o) (fun o => o) ?_ (fun _ _ _ _ => rfl) ?_ content (.refl o)
  · intro tag content o' ho'
    exact ho'.trans (loadElement_reading cat o' tag content)
  · intro tag content o' ho'
    exact loadElement_relaxes (ho'.type ▸ h) (ho'.session ▸ ho) tag content

theorem load_relaxes (h : o.type.Unambiguous cat U) (ho : o.session.strict = false)
    (content : Forest) (clearFirst : Bool) (asked : PropertySet) (summary : Bool) :
    Progress.Relaxes (decoding · true) (o.load cat content clearFirst asked summary)
      ((o.decoding true).load cat ((if clearFirst then o.clear else o).relax cat content) clearFirst
        asked summary)
      ((o.decoding true).load cat content clearFirst asked summary) := by
  let start : LocalCopy := if clearFirst then o.clear else o
  let ended (stopped : Bool) (o : LocalCopy) : LocalCopy :=
    if stopped then o.clear else o.concluded asked summary
  have hstart : (if clearFirst then (o.decoding true).clear else o.decoding true) =
      start.decoding true := by cases clearFirst <;> rfl
  have htype : start.type = o.type := by cases clearFirst <;> rfl
  have hsession : start.session = o.session := by cases clearFirst <;> rfl
  have hwalk : Progress.Relaxes (decoding · true) (content.walk (loadElement cat) start) _ _ :=
    walk_relaxes (htype ▸ h) (hsession ▸ ho) content
  unfold load
  rw [hstart]
  refine hwalk.ended ended ended ?_
  intro stopped o'
  cases stopped <;> rfl

theorem replaces_relaxSlot (cat : Catalog) (slot : Nat) (q : Property) (tag : Tag)
    (content : Forest) (o : LocalCopy) : content.Replaces (o.relaxSlot cat slot q tag content).2 :=
  q.shape.replaces_relax cat tag content _

theorem replaces_relaxElement (cat : Catalog) (tag : Tag) (content : Forest) (o : LocalCopy) :
    content.Replaces (o.relaxElement cat tag content).2 := by
  unfold relaxElement
  dsimp only
  split
  · exact .refl content
  · split
    · refine Forest.replaces_along ?_ content o
      intro tag content o
      unfold relaxEntry
      split
      · exact replaces_relaxSlot cat _ _ tag content o
      · exact .refl content
    · split
      · exact replaces_relaxSlot cat _ _ tag content o
      · exact .refl content

theorem replaces_relax (cat : Catalog) (content : Forest) (o : LocalCopy) :
    content.Replaces (o.relax cat content) :=
  Forest.replaces_along (replaces_relaxElement cat) content o

theorem session_load (cat : Catalog) (content : Forest) (clearFirst : Bool) (asked : PropertySet)
    (summary : Bool) (o : LocalCopy) :
    (o.load cat content clearFirst asked summary).state.session = o.session := by
  have hwalk := (walk_reading cat (if clearFirst then o.clear else o) content).session
  have hstart : (if clearFirst then o.clear else o).session = o.session := by
    cases clearFirst <;> rfl
  unfold load
  dsimp only
  rw [Progress.state_map]
  generalize content.walk (loadElement cat) (if clearFirst then o.clear else o) = p at hwalk ⊢
  cases p.stop? <;> exact hwalk.trans hstart

/-- The content of the object's element as a strict load needs it to do what a lenient one does. -/
def relaxed (cat : Catalog) (o : LocalCopy) (c : Cursor) (clearFirst : Bool) : Forest :=
  (if clearFirst then (o.decoding false).clear else o.decoding false).relax cat
    (Forest.ofNodes c.rest)

/-- How a lenient load of a document differs from a strict one. -/
structure LoadsLeniently (cat : Catalog) (o : LocalCopy) (c : Cursor) (clearFirst : Bool)
    (asked : PropertySet) (summary : Bool) : Prop where
  /-- There is a document in which nothing stands in the place of unknown names. -/
  document : ∃ c' : Cursor, c'.current = c.current ∧
    Forest.ofNodes c'.rest = o.relaxed cat c clearFirst
  /-- A strict load of it leaves the same copy, and fails for the same reason or not at all. -/
  relaxed : ∀ c' : Cursor, Forest.ofNodes c'.rest = o.relaxed cat c clearFirst →
    let lenient := (o.decoding false).readObject cat c clearFirst asked summary
    let strict := (o.decoding true).readObject cat c' clearFirst asked summary
    lenient.state.decoding true = strict.state ∧ lenient.fault? = strict.fault?
  /-- What a strict load of the document itself leaves, if it succeeds, the lenient one leaves too. -/
  strict : ∀ o', ((o.decoding true).readObject cat c clearFirst asked summary).result = .ok o' →
    ((o.decoding false).readObject cat c clearFirst asked summary).result = .ok (o'.decoding false)

/-- A lenient load is the strict load of the document in which nothing stands in the place of unknown
names, whatever the copy held before. -/
theorem loadsLeniently (h : o.type.Unambiguous cat U) (c : Cursor) (clearFirst : Bool)
    (asked : PropertySet) (summary : Bool) : LoadsLeniently cat o c clearFirst asked summary := by
  have hload := load_relaxes (o := o.decoding false) h rfl (Forest.ofNodes c.rest) clearFirst asked
    summary
  have htwice : (o.decoding false).decoding true = o.decoding true := rfl
  rw [htwice] at hload
  refine ⟨?_, ?_, ?_⟩
  · refine ⟨⟨c.current, (o.relaxed cat c clearFirst).nodes (c.tag?.getD ⟨none, "", []⟩)⟩, rfl, ?_⟩
    exact (replaces_relax cat (Forest.ofNodes c.rest) _).ofNodes _
  · intro c' hc'
    simp only [readObject_eq, hc']
    exact ⟨hload.relaxed.state, hload.relaxed.fault⟩
  · intro o' hok
    rw [readObject_eq, Passage.result_ofTree, Progress.result_eq_ok_iff] at hok ⊢
    obtain ⟨hstop, hstate⟩ := Progress.finished?_eq_some_iff.mp hok
    have halike := hload.strict hstop
    have hsession := session_load cat (Forest.ofNodes c.rest) clearFirst asked summary
      (o.decoding false)
    refine Progress.finished?_eq_some_iff.mpr ⟨?_, ?_⟩
    · have hsome := halike.isSome
      simpa [hstop] using hsome
    · rw [← hstate, ← halike.state]
      exact (decoding_decoding (congrArg Session.strict hsession) true).symm

section Proposal
open Mail

def newMeeting : LocalCopy := new 1 Calendar.type Mail.session

def proposal (bodyType response : String) : Cursor :=
  let body : Tag := ⟨some .types, "Body", [("BodyType", bodyType)]⟩
  let meeting := Forest.element body (.text "Agenda" .closed) (meeting ["Accept", response])
  let tag : Tag := ⟨some .types, "CalendarItem", []⟩
  ⟨some (.opening tag), meeting.nodes tag⟩

/-- A kind of body and a response that are not known are errors to a strict reader, which a lenient
one passes over. -/
theorem proposal_loadsLeniently :
    newMeeting.type.Unambiguous (catalog []) (fun _ => True) ∧
    ((newMeeting.decoding true).readObject (catalog []) (proposal "Markdown" "Perhaps") false {}
      false).fault? = some (.malformed "BodyType" "Markdown" "unknown enumeration member") ∧
    ((newMeeting.decoding false).readObject (catalog []) (proposal "Markdown" "Perhaps") false {}
      false).fault? = none ∧
    newMeeting.relaxed (catalog []) (proposal "Markdown" "Perhaps") false =
      .element ⟨some .types, "Body", [("BodyType", "")]⟩ (.text "Agenda" .closed)
        (.element ⟨some .types, "RequiredAttendees", []⟩
          (inviteeElement "Accept" (.element ⟨some .types, "Attendee", []⟩
            (.element ⟨some .types, "ResponseType", []⟩ .closed .closed) .closed)) .closed) ∧
    LoadsLeniently (catalog []) newMeeting (proposal "Markdown" "Perhaps") false {} false := by
  have hmem : Calendar.type ∈ types := by simp [types]
  have htype : Calendar.type.Unambiguous (catalog []) fun _ => True :=
    (types_wellFormed (catalog []) Calendar.type hmem).unambiguous (catalog_wellFormed (by simp))
  refine ⟨htype, ?_, ?_, by decide, loadsLeniently htype _ false {} false⟩
  · rw [readObject_eq]
    rfl
  · rw [readObject_eq]
    rfl

end Proposal

end LocalCopy

end ObjectTracking
