import ObjectTracking.Mail.Contact
import ObjectTracking.Proofs.LocalCopy.Dispatch
import ObjectTracking.Proofs.LocalCopy.Elements
import ObjectTracking.Proofs.LocalCopy.Permitted
import ObjectTracking.Proofs.LocalCopy.Typed
import ObjectTracking.Proofs.Mail
import ObjectTracking.Proofs.Markup.Pieces
import ObjectTracking.Proofs.Property.Written
/-!
Whatever a copy holds can be sent. Its values are of their shapes, so that writing one comes to no
fault, and a writer takes all calls in the order in which they are made.
-/
set_option autoImplicit false

namespace ObjectTracking
open Markup

variable {cat : Catalog}

namespace UpdateOp
variable {t : ObjectType} {ctx : WriteContext}

theorem isContent_address (op : UpdateOp) : op.encodeAddress.IsContent := by
  have huri : (Encoding.call (.attr "FieldURI" op.property.uri)).Fills :=
    Encoding.isContent_nothing.fills.attribute _ _
  unfold encodeAddress
  dsimp only
  split
  · rename_i index _
    have hindex : (Encoding.call (.attr "FieldIndex" index)).Fills :=
      Encoding.isContent_nothing.fills.attribute _ _
    exact (hindex.attribute _ _).element .types "IndexedFieldURI"
  · exact huri.element .types "FieldURI"

def IsWritable (cat : Catalog) (op : UpdateOp) : Prop :=
  ∀ t ctx, (op.encodeOperand cat t ctx).IsContent

theorem IsWritable.isContent {op : UpdateOp} (h : op.IsWritable cat) :
    (op.encode cat t ctx).IsContent := by
  have hparts := op.isContent_address.append (h t ctx)
  exact (hparts.fills.element .types (t.target.element op.kind)).reported _

theorem isWritable_set {q : Property} {v : Value} (h : q.shape.Holds cat v) (hinside : v.Inside) :
    (set q v).IsWritable cat :=
  fun t _ => (Property.isContent h hinside).fills.element .types t.element

theorem isContent_item {q : Property} {item : Composite} {l : LayoutId} {element : String}
    (hshape : q.shape.innermost = .collection l element) (hitem : item.Fits cat) :
    (q.encodeItems cat [item]).IsContent := by
  have hitems : (q.shape.encodeItems cat q.name [item]).IsContent :=
    Shape.isContent_items hshape (by simpa using hitem) q.name
  exact hitems.fills.element .types q.element

end UpdateOp

/-- The elements of properties that hold values of their shapes are written, if the dictionaries among
them have only entries. -/
theorem Spells.isContent {ctx : WriteContext} {P : Property → Value → Prop} {e : Encoding}
    (h : Spells cat ctx P e) (hP : ∀ q v, P q v → q.shape.Holds cat v ∧ v.Inside)
    (hkeys : ∀ q v r w, P q v → P r w → r.element = q.element → q.key?.isSome = true →
      r.key?.isSome = true) : e.IsContent := by
  induction h with
  | nothing => exact Encoding.isContent_nothing
  | append _ _ ihfirst ihsecond => exact ihfirst.append ihsecond
  | element sent _ =>
    obtain ⟨hholds, hinside⟩ := hP _ _ sent
    exact Property.isContent hholds hinside
  | @dictionary q v sent keyed entries each =>
    refine Encoding.Fills.element ?_ .types q.element
    refine (Encoding.IsContent.concat ?_).fills
    intro e he
    obtain ⟨⟨r, w⟩, hx, rfl⟩ := List.mem_map.mp he
    obtain ⟨hsent, helement⟩ := each _ hx
    obtain ⟨hholds, hinside⟩ := hP r w hsent
    exact Property.isContent_entry hholds hinside (hkeys q v r w sent hsent helement keyed)

namespace LocalCopy
variable {t : ObjectType} {o : LocalCopy} {q : Property} {slot : Nat}

/-- Every date-time in a copy is inside the calendar. -/
def Inside (o : LocalCopy) : Prop := ∀ slot v, o.values.get? slot = some v → v.Inside

theorem Typed.created_isContent (h : Typed cat t o) (ht : t.SharesEntries) (hinside : o.Inside) :
    ∃ row, o.encodeCreate cat = .element .types o.type.element row ∧ row.IsContent := by
  obtain ⟨row, hrow, hspells⟩ := encodeCreate_spells cat o
  refine ⟨row, hrow, hspells.isContent ?_ ?_⟩
  · rintro q v ⟨slot, hq, hv⟩
    have hv := (createValue?_eq_some_iff.mp hv).2
    obtain ⟨q', hq', hkeeps⟩ := h.values slot v hv
    rw [h.type, hq'] at hq
    cases hq
    exact ⟨hkeeps.holds, hinside slot v hv⟩
  · rintro q v r w ⟨slot, hq, -⟩ ⟨n, hr, -⟩ helement hkey
    rw [h.type] at hq hr
    exact ht.key?_of_element hq hr helement hkey

theorem Typed.isWritable_itemOps {c : Collection} (hshape : q.shape.Holds cat (.collection c))
    {op : UpdateOp} (hop : op ∈ itemOps q c) : op.IsWritable cat := by
  obtain ⟨hinner, hfits⟩ := Shape.holds_collection_iff.mp hshape
  rcases mem_itemOps hop with ⟨item, hadded, rfl⟩ | ⟨n, rfl⟩ | ⟨n, item, hmodified, rfl⟩
  · obtain ⟨e, he, rfl⟩ := List.mem_map.mp hadded
    have hitem := (hfits e (List.mem_of_mem_filter he)).2
    exact fun t _ => (UpdateOp.isContent_item hinner hitem).fills.element .types t.element
  · exact fun _ _ => Encoding.isContent_nothing
  · obtain ⟨e, he, hmap⟩ := List.mem_filterMap.mp hmodified
    obtain ⟨_, _, heq⟩ := Option.map_eq_some_iff.mp hmap
    obtain ⟨-, rfl⟩ := Prod.mk.inj heq
    have hitem := (hfits e (List.mem_of_mem_filter he)).2
    exact fun t _ => (UpdateOp.isContent_item hinner hitem).fills.element .types t.element

theorem Typed.payload_isWritable (h : Typed cat t o) (hinside : o.Inside) {op : UpdateOp}
    (hop : op ∈ o.payload) : op.IsWritable cat := by
  obtain ⟨slot, q, hq, hop⟩ := mem_payload_iff.mp hop
  have hheld : ∀ v, o.values.get? slot = some v → q.shape.Holds cat v := by
    intro v hv
    obtain ⟨q', hq', hkeeps⟩ := h.values slot v hv
    rw [h.type, hq'] at hq
    cases hq
    exact hkeeps.holds
  rcases mem_slotOps hop with ⟨-, rfl⟩ | ⟨-, ⟨-, rfl⟩ | ⟨v, hv, rfl⟩ | ⟨c, hc, -, hop⟩⟩
  · exact fun _ _ => Encoding.isContent_nothing
  · exact fun _ _ => Encoding.isContent_nothing
  · exact UpdateOp.isWritable_set (hheld v hv) (hinside slot v hv)
  · exact isWritable_itemOps (hheld _ hc) hop

theorem Typed.updates_isContent (h : Typed cat t o) (hinside : o.Inside) :
    ∃ row, o.encodeUpdate cat = .element .types "Updates" row ∧ row.IsContent := by
  refine ⟨_, rfl, Encoding.IsContent.concat ?_⟩
  intro e he
  obtain ⟨op, hop, rfl⟩ := List.mem_map.mp he
  exact (h.payload_isWritable hinside hop).isContent

theorem Typed.encode_taken (h : Typed cat t o) (hshares : t.SharesEntries) (hinside : o.Inside)
    (isUpdate : Bool) (bytes : List UInt8) :
    ∃ w reports, (o.encode cat isUpdate).run Writer.take (Writer.onto bytes) = ⟨w, reports, none⟩ ∧
      w.opened = [] ∧ w.held = bytes := by
  cases isUpdate with
  | false =>
    obtain ⟨row, hrow, hcontent⟩ := h.created_isContent hshares hinside
    change ∃ w reports, (o.encodeCreate cat).run _ _ = ⟨w, reports, none⟩ ∧ _
    rw [hrow]
    exact hcontent.fills.taken bytes .types o.type.element
  | true =>
    obtain ⟨row, hrow, hcontent⟩ := h.updates_isContent hinside
    change ∃ w reports, (o.encodeUpdate cat).run _ _ = ⟨w, reports, none⟩ ∧ _
    rw [hrow]
    exact hcontent.fills.taken bytes .types "Updates"

/-- Whatever callers have done with a copy, it is sent without a fault, to create the object or to
update it: a new writer takes everything and no element is left open. The document is finished if
the output held a text before, and only then. -/
theorem Handled.written {U : LayoutId → Prop} {id : Nat} {session : Session}
    (h : Handled cat (new id t session) o) (hshares : t.SharesEntries) (ht : t.Consistent cat U)
    (hinside : o.Inside) (isUpdate : Bool) (bytes : List UInt8) :
    ∃ w reports, (o.encode cat isUpdate).run Writer.take (Writer.onto bytes) = ⟨w, reports, none⟩ ∧
      w.opened = [] ∧ ∀ s, w.finish = .ok s ↔
        ∃ before : String, bytes = Text.toUtf8 before.toList ∧ s = before ++ w.text := by
  have htyped : Typed cat t o := h.typed ht (.clear (o := new id t session) rfl)
  obtain ⟨w, reports, hrun, hopened, hheld⟩ := htyped.encode_taken hshares hinside isUpdate bytes
  refine ⟨w, reports, hrun, hopened, ?_⟩
  intro s
  rw [Writer.finish_eq_ok_iff, hheld]
  exact and_iff_right hopened

section Reminder
open Mail

/-- Labels, of which an empty text is none. -/
def label : CustomCodec where
  name := "label"
  parse text := some (if text = "" then none else some (.text text))
  format := Scalar.text?

def reminderLabel : Property :=
  (Property.scalar "Label" "reminder:Label" (.custom label)).withFlags Flag.mutable

def due : Property := (Property.dateTime "Due" "reminder:Due").withFlags Flag.mutable

def reminder : ObjectType where
  element := "Reminder"
  target := .item
  members := [⟨.summary, reminderLabel⟩, ⟨.summary, due⟩, ⟨.full, Item.categories⟩,
    ⟨.full, Contact.emailAddress "EmailAddress1"⟩, ⟨.full, Contact.emailAddress "EmailAddress2"⟩]

theorem label_consistent : (Codec.custom label).Consistent := by
  intro text s hread
  simp only [label, Option.some.injEq] at hread
  split at hread
  · cases hread
  · cases hread
    exact ⟨text, rfl⟩

theorem category_consistent : (catalog []).Consistent (· = category) := by
  have hfields : ((catalog []).layout category).fields = [⟨"Value", .text, .scalar .text⟩] := rfl
  constructor
  · rintro l rfl f hf inner hkind
    rw [hfields] at hf
    obtain rfl := List.mem_singleton.mp hf
    cases hkind
  · rintro l rfl f hf codec hkind
    rw [hfields] at hf
    obtain rfl := List.mem_singleton.mp hf
    cases hkind
    trivial

theorem reminder_consistent : reminder.Consistent (catalog []) (· = category) := by
  refine ⟨category_consistent, ?_, ?_⟩
  · simp only [reminder, ObjectType.properties, List.map_cons, List.map_nil, List.forall_mem_cons]
    refine ⟨⟨?_, ?_⟩, ⟨?_, ?_⟩, ⟨?_, ?_⟩, ⟨?_, ?_⟩, ⟨?_, ?_⟩, by simp⟩
    all_goals rintro _ ⟨⟩
    · exact label_consistent
    · rfl
    · trivial
    · trivial
  · simp only [reminder, ObjectType.properties, List.map_cons, List.map_nil, List.forall_mem_cons]
    refine ⟨?_, ?_, ?_, ?_, ?_, by simp⟩
    all_goals rintro ⟨⟩
    rintro v ⟨⟩
    exact ⟨rfl, rfl⟩

def reminderElement : Forest :=
  .element ⟨some .types, "Label", []⟩ (.text "tea" .closed)
    (.element ⟨some .types, "EmailAddresses", []⟩
      (.element ⟨some .types, "Entry", [("Key", "EmailAddress2")]⟩ (.text "b@example.com" .closed)
        (.element ⟨some .types, "Entry", [("Key", "EmailAddress1")]⟩ (.text "a@example.com" .closed)
          .closed)) .closed)

def loadedReminder : LocalCopy :=
  ((new 1 reminder Mail.session).perform (catalog []) (.load reminderElement true {} false)).state

def sortedReminder : LocalCopy :=
  (loadedReminder.perform (catalog []) (.edit Item.categories
    (.collection (.push (Composite.new (catalog []) category))))).state

def readKitchen (c : Composite) : Edited Composite Unit :=
  .done () (c.load (catalog []) Mail.session ⟨none, .text "Kitchen" .closed⟩).state none

def readReminder : LocalCopy :=
  (sortedReminder.editAt (catalog []) Item.categories [.item 0] readKitchen).state

def teaTime : Time.WallClock where
  date := ⟨2024, 2, 29, by decide, by decide, by decide⟩
  second := 61200
  nanos := 0
  second_lt := by decide
  nanos_lt := by decide

def dueReminder : LocalCopy :=
  (readReminder.perform (catalog []) (.set due (.scalar (.dateTime teaTime)))).state

theorem dueReminder_handled : Handled (catalog []) (new 1 reminder Mail.session) dueReminder := by
  have hloaded : Handled (catalog []) (new 1 reminder Mail.session) loadedReminder :=
    Handled.same.perform _ trivial
  have hsorted : Handled (catalog []) (new 1 reminder Mail.session) sortedReminder := by
    refine hloaded.perform _ ?_
    rintro n ⟨⟩
    exact .composite category
  have hread : Handled (catalog []) (new 1 reminder Mail.session) readReminder :=
    hsorted.editAt Item.categories [.item 0] fun c hc => ⟨c.layout_load _ _, hc.read _ _⟩
  exact hread.perform _ (.scalar _)

theorem dueReminder_values : ∃ c₁ c₂ c₃ : Collection, dueReminder.values =
    ((((((SlotMap.empty.insert 0 (.scalar (.text "tea"))).insert 4
      (.scalar (.text "b@example.com"))).insert 3 (.scalar (.text "a@example.com"))).insert 2
        (.collection c₁)).insert 2 (.collection c₂)).insert 2 (.collection c₃)).insert 1
          (.scalar (.dateTime teaTime)) := ⟨_, _, _, rfl⟩

theorem dueReminder_inside : dueReminder.Inside := by
  obtain ⟨c₁, c₂, c₃, hvalues⟩ := dueReminder_values
  rw [Inside, hvalues]
  have htea : (Value.scalar (.dateTime teaTime)).Inside := by
    rintro _ ⟨⟩
    exact ⟨by decide, by decide⟩
  have htext (text : String) : (Value.scalar (.text text)).Inside := by
    rintro _ ⟨⟩
  have hitems (c : Collection) : (Value.collection c).Inside := by
    rintro _ ⟨⟩
  refine SlotMap.forall_insert htea (SlotMap.forall_insert (hitems c₃) (SlotMap.forall_insert
    (hitems c₂) (SlotMap.forall_insert (hitems c₁) (SlotMap.forall_insert (htext _)
      (SlotMap.forall_insert (htext _) (SlotMap.forall_insert (htext _) ?_))))))
  rintro slot v ⟨⟩

theorem reminder_sharesEntries : reminder.SharesEntries := by
  unfold ObjectType.SharesEntries
  decide

theorem dueReminder_written : reminder.SharesEntries ∧
    reminder.Consistent (catalog []) (· = category) ∧
    Handled (catalog []) (new 1 reminder Mail.session) dueReminder ∧ dueReminder.Inside ∧
    ∀ isUpdate, ∃ w reports, (dueReminder.encode (catalog []) isUpdate).run Writer.take {} =
      ⟨w, reports, none⟩ ∧ w.opened = [] ∧ w.finish = .ok w.text := by
  refine ⟨reminder_sharesEntries, reminder_consistent, dueReminder_handled, dueReminder_inside, ?_⟩
  intro isUpdate
  obtain ⟨w, reports, hrun, hopened, hfinish⟩ := Handled.written dueReminder_handled
    reminder_sharesEntries reminder_consistent dueReminder_inside isUpdate []
  exact ⟨w, reports, hrun, hopened, (hfinish w.text).mpr ⟨"", rfl, String.empty_append.symm⟩⟩

def tags : Property :=
  (Property.scalar "Tags" "reminder:Tags" (.custom label)).withFlags
    [.settable, .updatable, .itemLevel, .appendable]

/-- Categories in the place of a scalar, as a codec would leave them that reads collections. -/
def taggedReminder : LocalCopy where
  id := 1
  type := { reminder with members := [⟨.summary, tags⟩] }
  session := Mail.session
  values := SlotMap.empty.insert 0 (.collection ((Collection.new category "String").push (catalog [])
    (Composite.new (catalog []) category)).state)
  touched := SlotSet.empty.insert 0

/-- Behind a byte that is no text a document is not finished, though everything is written. Where a
codec reads collections, not everything is. -/
theorem dueReminder_unfinished :
    (reminder.SharesEntries ∧ reminder.Consistent (catalog []) (· = category) ∧
      Handled (catalog []) (new 1 reminder Mail.session) dueReminder ∧ dueReminder.Inside ∧
      ∀ isUpdate, ∃ w reports,
        (dueReminder.encode (catalog []) isUpdate).run Writer.take (Writer.onto [0xFF]) =
          ⟨w, reports, none⟩ ∧ w.opened = [] ∧ ∀ s, w.finish ≠ .ok s) ∧
    (taggedReminder.encodeUpdate (catalog [])).fault? = some (.typeMismatch "Tags") := by
  refine ⟨⟨reminder_sharesEntries, reminder_consistent, dueReminder_handled, dueReminder_inside, ?_⟩,
    rfl⟩
  intro isUpdate
  have htyped : Typed (catalog []) reminder dueReminder :=
    dueReminder_handled.typed reminder_consistent (.clear (o := new 1 reminder Mail.session) rfl)
  obtain ⟨w, reports, hrun, hopened, hheld⟩ :=
    htyped.encode_taken reminder_sharesEntries dueReminder_inside isUpdate [0xFF]
  refine ⟨w, reports, hrun, hopened, ?_⟩
  intro s hs
  obtain ⟨-, before, hbefore, -⟩ := Writer.finish_eq_ok_iff.mp hs
  cases Text.ofUtf8_eq_ok_iff.mpr (hheld.symm.trans hbefore)

end Reminder

end LocalCopy

end ObjectTracking
