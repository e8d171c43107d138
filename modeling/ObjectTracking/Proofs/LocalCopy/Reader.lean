import ObjectTracking.LocalCopy.Reader
import ObjectTracking.Proofs.Mail
import ObjectTracking.Proofs.Property.Reader
/-!
Where reading an object and its values ends. On a start tag of a document, a reader that succeeds
stops on the end tag that belongs to the start tag, whatever stands in between, and none succeeds if
the document ends before it. What is read is what reading the tree of the element gives.
-/
set_option autoImplicit false

namespace ObjectTracking
open Markup

namespace LocalCopy
variable {cat : Catalog} {c : Cursor}

theorem closes_readSlot (cat : Catalog) (slot : Nat) (q : Property) (c : Cursor) (o : LocalCopy) :
    (o.readSlot cat slot q c).Closes := (q.closes_read cat o.session c _).map _

theorem closes_readEntry (cat : Catalog) (slots : List Nat) (c : Cursor) (tag : Tag)
    (o : LocalCopy) : (o.readEntry cat slots c tag).Closes := by
  unfold readEntry
  split
  · dsimp only
    split
    · split
      · exact closes_readSlot cat _ _ c o
      · exact (c.closes_pass o).remarked _
    · exact (c.closes_pass o).remarked _
  · exact c.closes_pass o

theorem closes_readElement (cat : Catalog) (c : Cursor) (tag : Tag) (o : LocalCopy) :
    (o.readElement cat c tag).Closes := by
  unfold readElement
  dsimp only
  split
  · exact (c.closes_pass o).remarked _
  · split
    · exact Cursor.closes_readElements (fun c' _ => closes_readEntry cat _ c') o
    · split
      · exact closes_readSlot cat _ _ c o
      · exact (c.closes_pass o).remarked _

theorem closes_readObject (cat : Catalog) (c : Cursor) (o : LocalCopy) (clearFirst : Bool)
    (asked : PropertySet) (summary : Bool) :
    (o.readObject cat c clearFirst asked summary).Closes :=
  Passage.Closes.map (Cursor.closes_readElements (fun c' _ => closes_readElement cat c') _) _

theorem readSlot_eq (slot : Nat) (q : Property) {tag : Tag} (o : LocalCopy)
    (htag : c.current = some (.opening tag)) : o.readSlot cat slot q c =
      .ofTree c (o.loadSlot cat slot q tag (Forest.ofNodes c.rest)) := by
  unfold readSlot loadSlot
  simp only [Property.read_eq, Cursor.site_eq htag, Passage.map_ofTree]

theorem readEntry_eq (slots : List Nat) {tag : Tag} (o : LocalCopy)
    (htag : c.current = some (.opening tag)) : o.readEntry cat slots c tag =
      .ofTree c (o.loadEntry cat slots tag (Forest.ofNodes c.rest)) := by
  unfold readEntry loadEntry
  split
  · cases hentry : o.entrySlot? slots (tag.attribute? "Key") with
    | none => simp only [hentry, c.pass_eq, Passage.remarked_ofTree]
    | some target =>
      simp only [hentry, readSlot_eq target.1 target.2 o htag, c.pass_eq, Passage.remarked_ofTree]
      split <;> rfl
  · exact c.pass_eq o

theorem readElement_eq {tag : Tag} (o : LocalCopy) (htag : c.current = some (.opening tag)) :
    o.readElement cat c tag = .ofTree c (o.loadElement cat tag (Forest.ofNodes c.rest)) := by
  unfold readElement loadElement
  have hdictionary : ∀ slots, c.readElements (fun c' _ => readEntry cat slots c') o =
      .ofTree c ((Forest.ofNodes c.rest).walk (loadEntry cat slots) o) := by
    intro slots
    refine Cursor.readElements_eq (fun c' _ => closes_readEntry cat slots c') ?_ o
    intro c' _ tag o htag
    exact readEntry_eq slots o htag
  cases hfirst : (o.type.dispatch tag.name).head?.bind fun slot =>
      (o.type.property? slot).map (slot, ·) with
  | none => simp only [hfirst, c.pass_eq, Passage.remarked_ofTree]
  | some target =>
    simp only [hfirst, hdictionary, readSlot_eq target.1 target.2 o htag, c.pass_eq,
      Passage.remarked_ofTree]
    split
    · rfl
    · split <;> rfl

/-- Reading an object node by node is loading its tree. -/
theorem readObject_eq (cat : Catalog) (c : Cursor) (o : LocalCopy) (clearFirst : Bool)
    (asked : PropertySet) (summary : Bool) : o.readObject cat c clearFirst asked summary =
      .ofTree c (o.load cat (Forest.ofNodes c.rest) clearFirst asked summary) := by
  have helements : ∀ o, c.readElements (fun c' _ => readElement cat c') o =
      .ofTree c ((Forest.ofNodes c.rest).walk (loadElement cat) o) := by
    intro o
    refine Cursor.readElements_eq (fun c' _ => closes_readElement cat c') ?_ o
    intro c' _ tag o htag
    exact readElement_eq o htag
  unfold readObject load
  simp only [helements, Passage.fault?_ofTree_isSome, Passage.map_ofTree]

end LocalCopy

namespace Markup
variable {σ : Type} {c : Cursor}

/-- Reading that gives a result has stopped on the end tag that belongs to the start tag it began
on; without such an end tag it fails. -/
def Passage.EndsElement (p : Passage c σ) : Prop :=
  (∀ s, p.result = .ok s → c.ClosedBy p.cursor) ∧
    ((∀ c', ¬ c.ClosedBy c') → ∃ f, p.result = .error f)

theorem Passage.Closes.endsElement {xml : String} (hc : c.OnStart xml) {p : Passage c σ}
    (h : p.Closes) : p.EndsElement := by
  have hclosed : p.fault? = none → c.ClosedBy p.cursor := fun hnone => hc.closedBy_iff.mpr (h hnone)
  unfold EndsElement result
  cases hfault : p.fault? with
  | none => exact ⟨fun _ _ => hclosed hfault, fun hopen => absurd (hclosed hfault) (hopen _)⟩
  | some f =>
    refine ⟨?_, fun _ => ⟨f, rfl⟩⟩
    rintro s ⟨⟩

/-- On every start tag of every document, objects, the values of properties, composites and
collections are read exactly to the end tag that belongs to it. -/
theorem readers_endElement (cat : Catalog) (session : Session) {xml : String} {c : Cursor}
    (hc : c.OnStart xml) :
    (∀ (o : LocalCopy) clearFirst asked summary,
      (o.readObject cat c clearFirst asked summary).EndsElement) ∧
    (∀ (q : Property) existing, (q.read cat session c existing).EndsElement) ∧
    (∀ v : Composite, (v.read cat session c).EndsElement) ∧
    ∀ v : Collection, (v.read cat session c).EndsElement := by
  refine ⟨?_, ?_, ?_, ?_⟩
  · intro o clearFirst asked summary
    exact (o.closes_readObject cat c clearFirst asked summary).endsElement hc
  · intro q existing
    exact (q.closes_read cat session c existing).endsElement hc
  · intro v
    exact (v.closes_read cat session c).endsElement hc
  · intro v
    exact (v.closes_read cat session c).endsElement hc

def itemStart : Cursor :=
  ⟨some (.opening ⟨none, "Item", []⟩),
    [.opening ⟨none, "Body", []⟩, .text "x", .closing none "Body", .closing none "Item"]⟩

theorem itemStart_onStart : itemStart.OnStart "<Item><Body>x</Body></Item>" :=
  ⟨.opening ⟨none, "Item", []⟩ :: itemStart.rest, by decide +kernel, List.mem_cons_self, rfl⟩

theorem itemStart_endElement :
    itemStart.OnStart "<Item><Body>x</Body></Item>" ∧
    (∀ (o : LocalCopy) clearFirst asked summary,
      (o.readObject (Mail.catalog []) itemStart clearFirst asked summary).EndsElement) ∧
    (∀ (q : Property) existing,
      (q.read (Mail.catalog []) Mail.session itemStart existing).EndsElement) ∧
    (∀ v : Composite, (v.read (Mail.catalog []) Mail.session itemStart).EndsElement) ∧
    ∀ v : Collection, (v.read (Mail.catalog []) Mail.session itemStart).EndsElement :=
  ⟨itemStart_onStart, readers_endElement (Mail.catalog []) Mail.session itemStart_onStart⟩

end Markup

end ObjectTracking
