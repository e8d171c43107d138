import ObjectTracking.Proofs.LocalCopy.Reader
import ObjectTracking.Proofs.LocalCopy.Roles
import ObjectTracking.Proofs.Mail.WellFormed
/-!
What a load reads over. Elements that are nothing of what the element around them is read as have no
influence, whatever stands in them and however deep they are.
-/
set_option autoImplicit false

namespace ObjectTracking
open Markup

/-- The content of an element without some of the elements in it, at any depth, that are read over.
Texts between elements do not count. -/
inductive Thinned (cat : Catalog) (o : LocalCopy) : Role → Forest → Forest → Prop where
  | same (r : Role) (f : Forest) : Thinned cat o r f f
  | textLeft {r : Role} {f f' : Forest} (s : String) (rest : Thinned cat o r f f') :
      Thinned cat o r (.text s f) f'
  | textRight {r : Role} {f f' : Forest} (s : String) (rest : Thinned cat o r f f') :
      Thinned cat o r f (.text s f')
  | removed {r : Role} {f f' content : Forest} {tag : Tag} (ignored : r.Ignores cat o tag)
      (closed : content.isClosed = true) (rest : Thinned cat o r f f') :
      Thinned cat o r (.element tag content f) f'
  | kept {r : Role} {f f' : Forest} (tag : Tag) (content : Forest) (rest : Thinned cat o r f f') :
      Thinned cat o r (.element tag content f) (.element tag content f')
  | within {r r' : Role} {f f' content content' : Forest} {tag : Tag} (reads : r.Reads cat o tag r')
      (inner : Thinned cat o r' content content') (rest : Thinned cat o r f f') :
      Thinned cat o r (.element tag content f) (.element tag content' f')

theorem Thinned.isClosed_eq {cat : Catalog} {o : LocalCopy} {r : Role} {f f' : Forest}
    (h : Thinned cat o r f f') : f.isClosed = f'.isClosed := by
  induction h with
  | same => rfl
  | textLeft s rest ih => exact ih
  | textRight s rest ih => exact ih
  | removed ignored closed rest ih => exact ih
  | kept tag content rest ih => exact ih
  | within reads inner rest ihinner ih => exact ih

namespace Markup.Forest
variable {σ : Type} {content content' : Forest}

theorem skip_eq_done (h : content.isClosed = true) (s : σ) : content.skip s = .done s := by
  simp [skip, h]

theorem skip_congr (h : content.isClosed = content'.isClosed) (s : σ) :
    content.skip s = content'.skip s := by
  simp [skip, h]

end Markup.Forest

variable {cat : Catalog} {session : Session} {o : LocalCopy} {l : LayoutId} {tag : Tag}
  {content content' : Forest}

namespace Role
variable {r r' : Role}

/-- What is to be read over is passed over by the reader. -/
theorem Ignores.passes (ht : o.type.SharesEntries) (h : r.Ignores cat o tag)
    (hclosed : content.isClosed = true) : (r.reader cat o).Passes tag content := by
  intro s hs
  cases r with
  | properties =>
    change LocalCopy at s
    have htype : s.type = o.type := hs.reading.type
    have hversion : s.version = o.version := hs.reading.version
    change (s.loadElement cat tag content).Alike _
    rcases h with hunknown | ⟨q, hq, helement, hkey, happlicable⟩
    · rw [LocalCopy.loadElement_of_unknown (htype ▸ hunknown), Forest.skip_eq_done hclosed]
      exact Progress.alike_remarked _ _
    · obtain ⟨slot, hslot⟩ := List.getElem?_of_mem hq
      rw [LocalCopy.loadElement_of_plain (htype ▸ ht) (htype ▸ hslot) hkey helement.symm, hversion,
        happlicable, Forest.skip_eq_done hclosed]
      exact Progress.alike_remarked _ _
  | entries element =>
    change LocalCopy at s
    have htype : s.type = o.type := hs.reading.type
    have hversion : s.version = o.version := hs.reading.version
    change (s.loadEntry cat (o.type.dispatch element) tag content).Alike _
    unfold LocalCopy.loadEntry
    simp only [Forest.skip_eq_done hclosed]
    split
    · rename_i hentry
      split
      · rename_i slot q hfound
        rw [← htype] at hfound
        obtain ⟨hq, helement, hkey⟩ := LocalCopy.of_entrySlot?_eq_some hfound
        rw [if_neg]
        · exact Progress.alike_remarked _ _
        · intro happlicable
          exact h q (ObjectType.mem_properties (htype ▸ hq)) helement (hversion ▸ happlicable)
            ⟨hentry.1, hentry.2, hkey.symm⟩
      · exact Progress.alike_remarked _ _
    · exact .refl _
  | items l names =>
    change Collection at s
    change (s.loadItem cat o.session tag content).Alike _
    have hname : tag.name ≠ s.element := fun hname => h (hname ▸ hs.2)
    rw [Collection.loadItem, if_neg hname, Forest.skip_eq_done hclosed]
    exact .refl _
  | wrappers wrapper inner property names =>
    change Option Value × Value at s
    change (inner.loadWrapper cat o.session property wrapper tag content s).Alike _
    unfold Shape.loadWrapper
    rw [if_neg h, Forest.skip_eq_done hclosed]
    exact .refl _
  | fields l =>
    change Composite at s
    change (s.loadElement cat o.session tag content).Alike _
    have hnone : (cat.layout l).elementPosition? tag.name = none := by
      apply List.findIdx?_eq_none_iff.mpr
      intro f hf
      by_cases hplacement : f.placement = .element
      · simp [h f hf hplacement]
      · simp [hplacement]
    obtain rfl : s.layout = l := hs
    simp only [Composite.loadElement, hnone, Forest.skip_eq_done hclosed]
    exact .refl _

/-- A composite is read alike from contents that the reader of its fields takes for the same. -/
theorem load_alike (h : ofLayout? cat l = some r) (hsame : (r.reader cat o).Agrees content content')
    (tag? : Option Tag) {c : Composite} (hc : c.layout = l) :
    (c.load cat o.session ⟨tag?, content⟩).Alike (c.load cat o.session ⟨tag?, content'⟩) := by
  obtain ⟨htext, hr⟩ := Option.ite_none_left_eq_some.mp h
  obtain rfl := Option.some.inj hr
  rw [Option.not_isSome_iff_eq_none] at htext
  rw [Composite.load_of_elements htext tag? content hc,
    Composite.load_of_elements htext tag? content' hc]
  apply Progress.Alike.andThen (.refl _)
  rw [Composite.loadElements_eq_walk, Composite.loadElements_eq_walk]
  apply hsame
  exact (Composite.layout_keptByReading cat).loadAttributes hc tag? _ rfl

/-- So is the value of a shape. -/
theorem decode_alike {property : String} {names : List String} {shape : Shape}
    (h : ofShape? cat property names shape = some r)
    (hsame : (r.reader cat o).Agrees content content')
    (hshape : ∀ element, shape.itemElement? = some element → element ∈ names) (tag? : Option Tag)
    {existing : Option Value} (hexisting : ∀ v, existing = some v → v.ItemsNamed names) :
    (shape.decode cat o.session property ⟨tag?, content⟩ existing).Alike
      (shape.decode cat o.session property ⟨tag?, content'⟩ existing) := by
  induction shape with
  | scalar codec => cases h
  | dateTime zoneUri => cases h
  | composite l =>
    obtain ⟨c, hc, -, hdecode⟩ := Shape.decode_composite cat o.session property l existing
    rw [hdecode, hdecode]
    exact (load_alike h hsame tag? hc).map _
  | collection l element =>
    obtain rfl := Option.some.inj h
    obtain ⟨c, hc, hheld, hdecode⟩ :=
      Shape.decode_collection cat o.session property l element existing
    rw [hdecode, hdecode]
    have hname : c.element ∈ names := by
      rcases hheld with rfl | rfl
      · exact hshape element rfl
      · exact hexisting _ rfl
    have hread := hsame { c with entries := [], removed := [] } ⟨hc, hname⟩
    exact hread.map _
  | indexed key inner ih => exact ih h hshape
  | contained wrapper inner =>
    obtain rfl := Option.some.inj h
    rw [Shape.decode_contained, Shape.decode_contained]
    exact (hsame (existing, .null) ⟨hshape, hexisting⟩).map _

theorem loadSlot_alike {o' : LocalCopy} {slot : Nat} {q : Property} (ho : o.ReadsItems o')
    (hq : o.type.property? slot = some q)
    (h : ofShape? cat q.name (o.itemNames slot q) q.shape = some r)
    (hsame : (r.reader cat o).Agrees content content') (tag : Tag) :
    (o'.loadSlot cat slot q tag content).Alike (o'.loadSlot cat slot q tag content') := by
  unfold LocalCopy.loadSlot
  apply Progress.Alike.map
  rw [ho.reading.session]
  apply decode_alike h hsame fun _ => LocalCopy.itemElement_mem_itemNames
  intro v hv
  exact ho.named slot q v hq (Option.ite_none_right_eq_some.mp hv).2

/-- What is read is read alike if what stands in it is. -/
theorem Reads.alike (ht : o.type.SharesEntries) (h : r.Reads cat o tag r')
    (hsame : (r'.reader cat o).Agrees content content')
    (hclosed : content.isClosed = content'.isClosed) (s : (r.reader cat o).State)
    (hs : (r.reader cat o).Valid s) :
    ((r.reader cat o).step tag content s).Alike ((r.reader cat o).step tag content' s) := by
  cases h with
  | @property slot q tag r known plain applicable named inner =>
    change LocalCopy at s
    have htype : s.type = o.type := hs.reading.type
    have hversion : s.version = o.version := hs.reading.version
    change (s.loadElement cat tag content).Alike (s.loadElement cat tag content')
    rw [LocalCopy.loadElement_of_plain (htype ▸ ht) (htype ▸ known) plain named,
      LocalCopy.loadElement_of_plain (htype ▸ ht) (htype ▸ known) plain named, hversion,
      applicable]
    exact loadSlot_alike hs known inner hsame tag
  | @dictionary slot q tag known keyed named =>
    change LocalCopy at s
    have htype : s.type = o.type := hs.reading.type
    change (s.loadElement cat tag content).Alike (s.loadElement cat tag content')
    rw [LocalCopy.loadElement_of_dictionary (htype ▸ ht) (htype ▸ known) keyed named,
      LocalCopy.loadElement_of_dictionary (htype ▸ ht) (htype ▸ known) keyed named, htype]
    exact hsame s hs
  | @entry element slot q tag r found applicable named inner =>
    change LocalCopy at s
    have hversion : s.version = o.version := hs.reading.version
    have hfound := (hs.reading.entrySlot?_eq (o.type.dispatch element) _).trans found
    change (s.loadEntry cat (o.type.dispatch element) tag content).Alike
      (s.loadEntry cat (o.type.dispatch element) tag content')
    rw [LocalCopy.loadEntry_of_entrySlot? named.1 named.2 hfound (hversion ▸ applicable),
      LocalCopy.loadEntry_of_entrySlot? named.1 named.2 hfound (hversion ▸ applicable)]
    exact loadSlot_alike hs (LocalCopy.of_entrySlot?_eq_some found).1 inner hsame tag
  | @item l names tag r named inner =>
    change Collection at s
    change (s.loadItem cat o.session tag content).Alike (s.loadItem cat o.session tag content')
    have hitem := load_alike inner hsame (some tag) (c := Composite.new cat l) rfl
    obtain rfl : s.layout = l := hs.1
    unfold Collection.loadItem
    split
    · dsimp only
      rw [hitem.isSome]
      exact hitem.map _
    · rw [Forest.skip_congr hclosed]
      exact .refl _
  | @wrapped wrapper property inner names tag r named content =>
    change Option Value × Value at s
    change (inner.loadWrapper cat o.session property wrapper tag _ s).Alike
      (inner.loadWrapper cat o.session property wrapper tag _ s)
    unfold Shape.loadWrapper
    rw [if_pos named, if_pos named]
    exact (decode_alike content hsame hs.1 (some tag) hs.2).map _
  | @field l layout f ix tag r found known nested inner =>
    change Composite at s
    change (s.loadElement cat o.session tag content).Alike (s.loadElement cat o.session tag content')
    have hfield := load_alike inner hsame (some tag) (c := Composite.new cat layout) rfl
    obtain rfl : s.layout = l := hs
    obtain ⟨name, placement, kind⟩ := f
    obtain rfl : kind = .nested layout := nested
    simp only [Composite.loadElement, found, known]
    unfold Composite.load at hfield
    rw [hfield.isSome]
    exact hfield.map _

end Role

/-- A reader gets the same from what has been thinned. -/
theorem Thinned.agrees {r : Role} {f f' : Forest} (ht : o.type.SharesEntries)
    (h : Thinned cat o r f f') : (r.reader cat o).Agrees f f' := by
  induction h with
  | same r f => exact .refl f
  | textLeft s rest ih => exact ih.text_left s
  | textRight s rest ih => exact ih.text_right s
  | removed ignored closed rest ih => exact ih.pass (ignored.passes ht closed)
  | kept tag content rest ih => exact ih.element fun s _ => .refl _
  | within reads inner rest ihinner ih => exact ih.element (reads.alike ht ihinner inner.isClosed_eq)

namespace LocalCopy
variable {clearFirst : Bool}

theorem load_alike_of_thinned (ht : o.type.SharesEntries)
    (h : Thinned cat (o.loadStart clearFirst) .properties content content') (asked : PropertySet)
    (summary : Bool) : (o.load cat content clearFirst asked summary).Alike
      (o.load cat content' clearFirst asked summary) := by
  have htype : (o.loadStart clearFirst).type = o.type := by cases clearFirst <;> rfl
  have hread : (content.walk (loadElement cat) (o.loadStart clearFirst)).Alike
      (content'.walk (loadElement cat) (o.loadStart clearFirst)) :=
    h.agrees (htype ▸ ht) (o.loadStart clearFirst) (.refl _)
  unfold loadStart at hread
  unfold load
  dsimp only
  rw [hread.isSome]
  exact hread.map _

/-- Removing what is read over changes neither what a load leaves nor whether and with what fault it
fails. -/
theorem readObject_thinned (cat : Catalog) (o : LocalCopy) (ht : o.type.SharesEntries)
    (c c' : Cursor) (clearFirst : Bool) (asked : PropertySet) (summary : Bool)
    (h : Thinned cat (o.loadStart clearFirst) .properties (Forest.ofNodes c.rest)
      (Forest.ofNodes c'.rest)) :
    (o.readObject cat c clearFirst asked summary).state =
        (o.readObject cat c' clearFirst asked summary).state ∧
      (o.readObject cat c clearFirst asked summary).fault? =
        (o.readObject cat c' clearFirst asked summary).fault? := by
  have hload := load_alike_of_thinned ht h asked summary
  rw [readObject_eq, readObject_eq]
  exact ⟨hload.state, hload.fault⟩

section Meeting
open Mail

/-- A meeting with a location that is not saved, for a server that knows no time zones. -/
def movedMeeting : LocalCopy :=
  (new 1 Calendar.type ⟨.exchange2007SP1, .utc, true⟩).run (catalog [])
    [.set Calendar.location (.scalar (.text "Upstairs"))]

def elementNodes (name : String) (content : List Node) : List Node :=
  .opening ⟨some .types, name, []⟩ :: content ++ [.closing (some .types) name]

/-- The elements of a meeting that are read. -/
def meetingNodes : List Node :=
  elementNodes "Organizer" (elementNodes "Mailbox" (elementNodes "Name" [.text "Ann"])) ++
    elementNodes "RequiredAttendees" (elementNodes "Attendee" []) ++
    [.closing (some .types) "CalendarItem"]

/-- The same among elements that are read over, some of which could not be read and have the names
of others that are. -/
def crowdedNodes : List Node :=
  elementNodes "Weather" (elementNodes "IsAllDayEvent" [.text "raining"]) ++
    elementNodes "StartTimeZone" (elementNodes "BaseOffset" [.text "unknown"]) ++
    elementNodes "Organizer"
      (elementNodes "Name" [.text "Ben"] ++
        elementNodes "Mailbox" (elementNodes "Name" [.text "Ann"] ++
          elementNodes "Organizer" (elementNodes "Mailbox" []))) ++
    elementNodes "RequiredAttendees"
      (elementNodes "Mailbox" [] ++ elementNodes "Attendee" (elementNodes "Attendee" [])) ++
    [.closing (some .types) "CalendarItem"]

def meetingCursor (nodes : List Node) : Cursor :=
  ⟨some (.opening ⟨some .types, "CalendarItem", []⟩), nodes⟩

theorem crowdedNodes_thinned : Thinned (catalog []) movedMeeting .properties
    (Forest.ofNodes crowdedNodes) (Forest.ofNodes meetingNodes) := by
  refine .removed (by decide) rfl (.removed (by decide) rfl ?_)
  refine .within (@Role.Reads.property _ _ 9 _ _ _ rfl rfl rfl rfl rfl) ?_ ?_
  · refine .removed (by decide) rfl (.within (.wrapped ⟨rfl, rfl⟩ rfl) ?_ (.same _ _))
    exact .kept _ _ (.removed (by decide) rfl (.same _ _))
  · refine .within (@Role.Reads.property _ _ 10 _ _ _ rfl rfl rfl rfl rfl) ?_ (.same _ _)
    refine .removed (by decide) rfl (.within (.item (by decide) rfl) ?_ (.same _ _))
    exact .removed (by decide) rfl (.same _ _)

/-- What is read over leaves no trace in the meeting. -/
theorem crowdedNodes_same : Calendar.type.SharesEntries ∧
    Thinned (catalog []) movedMeeting .properties (Forest.ofNodes crowdedNodes)
      (Forest.ofNodes meetingNodes) ∧
    (movedMeeting.readObject (catalog []) (meetingCursor meetingNodes) false {} false).fault? = none ∧
    (movedMeeting.readObject (catalog []) (meetingCursor crowdedNodes) false {} false).state =
      (movedMeeting.readObject (catalog []) (meetingCursor meetingNodes) false {} false).state ∧
    (movedMeeting.readObject (catalog []) (meetingCursor crowdedNodes) false {} false).fault? =
      (movedMeeting.readObject (catalog []) (meetingCursor meetingNodes) false {} false).fault? := by
  have ht : Calendar.type.SharesEntries := ObjectType.TellsEntries.sharesEntries
    (types_wellFormed (catalog []) Calendar.type (by simp [types])).elements
  have hread : (movedMeeting.readObject (catalog []) (meetingCursor meetingNodes) false {}
      false).fault? = none := congrArg Passage.fault? (readObject_eq ..)
  exact ⟨ht, crowdedNodes_thinned, hread, readObject_thinned (catalog []) movedMeeting ht
    (meetingCursor crowdedNodes) (meetingCursor meetingNodes) false {} false crowdedNodes_thinned⟩

end Meeting

end LocalCopy

end ObjectTracking
