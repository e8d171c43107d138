import Mathlib.Data.List.Nodup
import ObjectTracking.Proofs.Composite.FitsIn
import ObjectTracking.Proofs.Composite.Loading
import ObjectTracking.Proofs.Markup.Whole
import ObjectTracking.Proofs.Property.Reader
/-!
Lenient reading of composites. A lenient reader takes a name that an enumeration does not know for no
value, which is what a strict reader takes from an empty text. What stands in a document is relaxed by
putting an empty text in the place of each such name.
-/
set_option autoImplicit false

namespace ObjectTracking
open Markup
open Text (trim)

def Session.decoding (session : Session) (strict : Bool) : Session := { session with strict }

theorem Session.decoding_strict (session : Session) : session.decoding session.strict = session := rfl

namespace Codec
variable {codec : Codec} {property text : String}

/-- Whether a text is anything but a name that the codec, an enumeration, does not know. -/
def knows : Codec → String → Bool
  | enumeration names, text =>
    (trim text.toList).isEmpty || names.contains (String.ofList (trim text.toList))
  | _, _ => true

def relax (codec : Codec) (text : String) : String := if codec.knows text then text else ""

theorem parse_of_knows (h : codec.knows text = true) (property : String) :
    codec.parse property text false = codec.parse property text true := by
  cases codec with
  | enumeration names =>
    simp only [parse, parseFilled]
    split
    · rfl
    · rename_i hfilled
      obtain ⟨n, hn⟩ : ∃ n, names.find? (· == String.ofList (trim text.toList)) = some n := by
        apply Option.isSome_iff_exists.mp
        simpa [knows, hfilled] using h
      rw [hn]
  | _ => rfl

theorem parse_of_not_knows (h : codec.knows text = false) (property : String) :
    (codec.parse property text false).1 = .ok none ∧
      (codec.parse property "" true).1 = .ok none ∧
        ∃ e, (codec.parse property text true).1 = .error e := by
  cases codec with
  | enumeration names =>
    simp only [knows, Bool.or_eq_false_iff] at h
    obtain ⟨hfilled, hunknown⟩ := h
    have hnone : names.find? (· == String.ofList (trim text.toList)) = none := by
      apply List.find?_eq_none.mpr
      rintro n hn heq
      obtain rfl := eq_of_beq heq
      simp [hn] at hunknown
    refine ⟨?_, rfl, ?_⟩
    · simp [parse, parseFilled, hfilled, hnone]
    · exact ⟨_, by simp [parse, parseFilled, hfilled, hnone]; rfl⟩
  | _ => cases h

theorem parse_relax (codec : Codec) (property text : String) :
    (codec.parse property (codec.relax text) true).1 = (codec.parse property text false).1 := by
  unfold relax
  cases h : codec.knows text with
  | true =>
    rw [parse_of_knows h]
    rfl
  | false =>
    obtain ⟨hlenient, hempty, -⟩ := parse_of_not_knows h property
    exact hempty.trans hlenient.symm

/-- What a strict reader can read, a lenient one reads too. -/
theorem parse_lenient {v : Option Scalar} (h : (codec.parse property text true).1 = .ok v) :
    (codec.parse property text false).1 = .ok v := by
  cases hknows : codec.knows text with
  | true => rwa [parse_of_knows hknows]
  | false =>
    obtain ⟨-, -, e, he⟩ := parse_of_not_knows hknows property
    rw [he] at h
    cases h

end Codec

namespace Markup

def Forest.relax (codec : Codec) (content : Forest) : Forest :=
  match content.isClosed, content.plainText with
  | true, .ok s => if codec.knows s then content else .closed
  | _, _ => content

theorem Forest.replaces_relax (codec : Codec) (content : Forest) :
    content.Replaces (content.relax codec) := by
  unfold Forest.relax
  split
  · rename_i hclosed _
    split
    · exact .refl content
    · exact ⟨hclosed.symm, fun _ => trivial⟩
  · exact .refl content

theorem Site.value_relax (codec : Codec) (tag? : Option Tag) (content : Forest) :
    Site.value ⟨tag?, content.relax codec⟩ = (Site.value ⟨tag?, content⟩).map codec.relax := by
  cases tag? with
  | none => rfl
  | some tag =>
    unfold Forest.relax Codec.relax
    cases hclosed : content.isClosed with
    | false => simp [Site.value, hclosed, Except.map]
    | true =>
      cases htext : content.plainText with
      | error child => simp [Site.value, hclosed, htext, Except.map]
      | ok text =>
        cases hknows : codec.knows text with
        | true => simp [Site.value, hclosed, htext, hknows, Except.map]
        | false =>
          simp [Site.value, hclosed, htext, hknows, Except.map, Forest.isClosed, Forest.plainText]

end Markup

namespace Layout
variable {l : Layout} {f : LayoutField} {codec : Codec}

def attributeCodec? (l : Layout) (name : String) : Option Codec :=
  l.fields.findSome? fun f =>
    match f.placement, f.kind with
    | .attr, .scalar codec => if f.name = name then some codec else none
    | _, _ => none

/-- The tag of a composite's element, with each attribute relaxed for the codec that reads it. -/
def relaxTag (l : Layout) (tag : Tag) : Tag :=
  -- Only the first attribute of a name is read, but what becomes of the others makes no difference.
  { tag with
    attributes := tag.attributes.map fun a =>
      (a.1, (l.attributeCodec? a.1).elim a.2 fun codec => codec.relax a.2) }

/-- The content of a composite's element: what becomes of the child elements is given, and a text is
relaxed for the codec that reads it. -/
def relaxContent (l : Layout) (children content : Forest) : Forest :=
  match l.textPosition? with
  | none => children
  | some ix =>
    match l.fields[ix]? with
    | some ⟨_, _, .scalar codec⟩ => content.relax codec
    | _ => content

theorem attribute?_relaxTag (l : Layout) (tag : Tag) (name : String) :
    (l.relaxTag tag).attribute? name = (tag.attribute? name).map fun text =>
      (l.attributeCodec? name).elim text fun codec => codec.relax text := by
  simp only [Tag.attribute?, relaxTag]
  induction tag.attributes with
  | nil => rfl
  | cons a attributes ih =>
    rw [List.map_cons, List.lookup_cons, List.lookup_cons, ih]
    cases h : name == a.1 with
    | true =>
      obtain rfl := eq_of_beq h
      rfl
    | false => rfl

/-- The attribute that a field reads is relaxed for the field's codec if no other field has its
name. -/
theorem attributeCodec?_eq (hdistinct : (l.fields.map LayoutField.name).Nodup) (hf : f ∈ l.fields)
    (hplacement : f.placement = .attr) (hkind : f.kind = .scalar codec) :
    l.attributeCodec? f.name = some codec := by
  unfold attributeCodec?
  cases h : l.fields.findSome? _ with
  | none =>
    have hnone := List.findSome?_eq_none_iff.mp h f hf
    simp [hplacement, hkind] at hnone
  | some other =>
    obtain ⟨g, hg, hother⟩ := List.exists_of_findSome?_eq_some h
    split at hother
    · rename_i _ _ _ hcodec
      obtain ⟨hname, heq⟩ := Option.ite_none_right_eq_some.mp hother
      obtain rfl := List.inj_on_of_nodup_map hdistinct hg hf hname
      obtain rfl := FieldKind.scalar.inj (hkind.symm.trans hcodec)
      exact heq.symm
    · cases hother

theorem attributeCodec?_eq_none {name : String}
    (h : ∀ f ∈ l.fields, f.placement = .attr → f.name ≠ name) : l.attributeCodec? name = none := by
  apply List.findSome?_eq_none_iff.mpr
  intro f hf
  split
  · rename_i hplacement _
    exact if_neg (h f hf hplacement)
  · rfl

theorem replaces_relaxContent {children content : Forest} (h : content.Replaces children)
    (l : Layout) : content.Replaces (l.relaxContent children content) := by
  unfold relaxContent
  split
  · exact h
  · split
    · exact Forest.replaces_relax _ content
    · exact .refl content

end Layout

/-- Some layouts each of which tells its fields by their names. -/
structure Catalog.Distinct (cat : Catalog) (U : LayoutId → Prop) : Prop where
  closed : cat.Closed U
  names : ∀ l, U l → ((cat.layout l).fields.map LayoutField.name).Nodup

variable {cat : Catalog} {U : LayoutId → Prop} {session : Session} {l : LayoutId}

namespace Composite
variable {c : Composite}

/-- A child element of a composite, relaxed for the field that it is. What becomes of its own child
elements is given for each layout that it may have. -/
def relaxElement (cat : Catalog) (l : LayoutId) (children : LayoutId → Forest) (tag : Tag)
    (content : Forest) : Tag × Forest :=
  match ((cat.layout l).elementPosition? tag.name).bind ((cat.layout l).fields[·]?) with
  | some ⟨_, _, .scalar codec⟩ => (tag, content.relax codec)
  | some ⟨_, _, .nested inner⟩ =>
    ((cat.layout inner).relaxTag tag, (cat.layout inner).relaxContent (children inner) content)
  | none => (tag, content)

def relaxElements (cat : Catalog) : LayoutId → Forest → Forest
  | _, .closed => .closed
  | _, .cut => .cut
  | l, .text s rest => .text s (relaxElements cat l rest)
  | l, .element tag content rest =>
    let x := relaxElement cat l (fun inner => relaxElements cat inner content) tag content
    .element x.1 x.2 (relaxElements cat l rest)

def relax (cat : Catalog) (l : LayoutId) (tag : Tag) (content : Forest) : Tag × Forest :=
  ((cat.layout l).relaxTag tag, (cat.layout l).relaxContent (relaxElements cat l content) content)

theorem storeText_relaxes (session : Session) (ix : Nat) (name : String) (codec : Codec)
    (text : String) (c : Composite) :
    Progress.Relaxes id (c.storeText (session.decoding false) ix name codec text)
      (c.storeText (session.decoding true) ix name codec (codec.relax text))
      (c.storeText (session.decoding true) ix name codec text) := by
  constructor
  · simp only [storeText, Session.decoding, codec.parse_relax]
    exact ⟨rfl, rfl⟩
  · intro hend
    cases hread : (codec.parse name text true).1 with
    | error e => simp [storeText, Session.decoding, hread] at hend
    | ok v =>
      simp only [storeText, Session.decoding, hread, Codec.parse_lenient hread]
      exact ⟨rfl, rfl⟩

theorem storeValue_relaxes (session : Session) (ix : Nat) (name : String) (codec : Codec)
    (tag? : Option Tag) (content : Forest) (c : Composite) :
    Progress.Relaxes id (c.storeValue (session.decoding false) ix name codec ⟨tag?, content⟩)
      (c.storeValue (session.decoding true) ix name codec ⟨tag?, content.relax codec⟩)
      (c.storeValue (session.decoding true) ix name codec ⟨tag?, content⟩) := by
  unfold storeValue
  rw [Site.value_relax]
  cases Site.value ⟨tag?, content⟩ with
  | error e => exact .refl id (.halt c e)
  | ok text => exact (storeText_relaxes session ix name codec text c).later _ _ _

theorem loadAttributes_relaxes {tag? tag'? : Option Tag} (ix : Nat) {fs : List LayoutField}
    (htags : ∀ f ∈ fs, ∀ codec, f.placement = .attr → f.kind = .scalar codec →
      tag'?.bind (·.attribute? f.name) = (tag?.bind (·.attribute? f.name)).map codec.relax)
    (c : Composite) :
    Progress.Relaxes id (loadAttributes (session.decoding false) tag? ix fs c)
      (loadAttributes (session.decoding true) tag'? ix fs c)
      (loadAttributes (session.decoding true) tag? ix fs c) := by
  induction fs generalizing ix c with
  | nil => exact .refl id (.done c)
  | cons f fs ih =>
    obtain ⟨hf, hfs⟩ := List.forall_mem_cons.mp htags
    refine Progress.Relaxes.andThen ?_ fun _ => ih (ix + 1) hfs _
    cases hplacement : f.placement with
    | attr =>
      cases hkind : f.kind with
      | scalar codec =>
        rw [hf codec hplacement hkind]
        cases tag?.bind (·.attribute? f.name) with
        | none => exact .refl id (.done c)
        | some text => exact storeText_relaxes session ix f.name codec text c
      | nested inner => exact .refl id (.done c)
    | _ => exact .refl id (.done c)

/-- To read a composite leniently is to read it strictly with nothing in the place of unknown names, if
that is so of its child elements. -/
theorem load_relaxes_of (hdistinct : ((cat.layout l).fields.map LayoutField.name).Nodup)
    (session : Session) {content : Forest} (hcontent : ∀ c : Composite, c.layout = l →
      Progress.Relaxes id (loadElements cat (session.decoding false) content c)
        (loadElements cat (session.decoding true) (relaxElements cat l content) c)
        (loadElements cat (session.decoding true) content c))
    (tag : Tag) (hc : c.layout = l) :
    Progress.Relaxes id (c.load cat (session.decoding false) ⟨some tag, content⟩)
      (c.load cat (session.decoding true)
        ⟨some (relax cat l tag content).1, (relax cat l tag content).2⟩)
      (c.load cat (session.decoding true) ⟨some tag, content⟩) := by
  subst hc
  have hattributes : Progress.Relaxes id
      (loadAttributes (session.decoding false) (some tag) 0 (cat.layout c.layout).fields c)
      (loadAttributes (session.decoding true) (some ((cat.layout c.layout).relaxTag tag)) 0
        (cat.layout c.layout).fields c)
      (loadAttributes (session.decoding true) (some tag) 0 (cat.layout c.layout).fields c) := by
    refine loadAttributes_relaxes 0 ?_ c
    intro f hf codec hplacement hkind
    rw [Option.bind_some, Option.bind_some, Layout.attribute?_relaxTag,
      Layout.attributeCodec?_eq hdistinct hf hplacement hkind]
    rfl
  have hlayout : (loadAttributes (session.decoding false) (some tag) 0 (cat.layout c.layout).fields
      c).state.layout = c.layout :=
    (layout_keptByReading cat).loadAttributes rfl (some tag) _ List.drop_zero
  unfold load loadBy relax Layout.relaxContent
  refine hattributes.andThen ?_
  intro _
  generalize (loadAttributes (session.decoding false) (some tag) 0 (cat.layout c.layout).fields
    c).state = d at hlayout
  cases (cat.layout c.layout).textPosition? with
  | none => exact hcontent d hlayout
  | some ix =>
    cases hf : (cat.layout c.layout).fields[ix]? with
    | none =>
      simp only [hf]
      exact .same _
    | some f =>
      obtain ⟨name, placement, kind⟩ := f
      cases kind with
      | scalar codec =>
        simp only [hf]
        exact storeValue_relaxes session ix name codec (some tag) content d
      | nested inner =>
        simp only [hf]
        exact .same _

theorem loadElements_element (session : Session) (tag : Tag) (content rest : Forest)
    (c : Composite) : loadElements cat session (.element tag content rest) c =
      ((c.loadElement cat session tag content).later 1).andThen fun c =>
        (loadElements cat session rest c).later (content.size + 2) := rfl

theorem loadElement_relaxes (hcat : cat.Distinct U) (hl : U l) (session : Session) {content : Forest}
    (hcontent : ∀ inner, U inner → ∀ n : Composite, n.layout = inner →
      Progress.Relaxes id (loadElements cat (session.decoding false) content n)
        (loadElements cat (session.decoding true) (relaxElements cat inner content) n)
        (loadElements cat (session.decoding true) content n))
    (tag : Tag) (hc : c.layout = l) :
    Progress.Relaxes id (c.loadElement cat (session.decoding false) tag content)
      (c.loadElement cat (session.decoding true)
        (relaxElement cat l (relaxElements cat · content) tag content).1
        (relaxElement cat l (relaxElements cat · content) tag content).2)
      (c.loadElement cat (session.decoding true) tag content) := by
  subst hc
  unfold loadElement relaxElement
  cases hpos : (cat.layout c.layout).elementPosition? tag.name with
  | none =>
    simp only [hpos, Option.bind_none]
    exact Forest.skip_relaxes id content c
  | some ix =>
    cases hf : (cat.layout c.layout).fields[ix]? with
    | none =>
      simp only [hpos, hf, Option.bind_some]
      exact Forest.skip_relaxes id content c
    | some f =>
      obtain ⟨name, placement, kind⟩ := f
      cases kind with
      | scalar codec =>
        simp only [hpos, hf, Option.bind_some]
        exact storeValue_relaxes session ix name codec (some tag) content c
      | nested inner =>
        have hinner : U inner := hcat.closed c.layout hl _ (List.mem_of_getElem? hf) inner rfl
        have hnested := load_relaxes_of (hcat.names inner hinner) session
          (hcontent inner hinner) tag (c := new cat inner) rfl
        have hname : ((cat.layout inner).relaxTag tag).name = tag.name := rfl
        simp only [hname, hpos, hf, Option.bind_some]
        let stored (stopped : Bool) (n : Composite) : Composite :=
          if stopped then c else c.setAt ix (.nested n)
        exact hnested.ended stored stored fun _ _ => rfl

theorem loadElements_relaxes (hcat : cat.Distinct U) (hl : U l) (session : Session)
    (content : Forest) (hc : c.layout = l) :
    Progress.Relaxes id (loadElements cat (session.decoding false) content c)
      (loadElements cat (session.decoding true) (relaxElements cat l content) c)
      (loadElements cat (session.decoding true) content c) := by
  induction content generalizing l c with
  | closed => exact .same (.done c)
  | cut => exact .same (.halt c _)
  | text _ rest ih => exact (ih hl hc).later 1 1 1
  | element tag content rest ihcontent ihrest =>
    have hfirst := loadElement_relaxes hcat hl session
      (fun inner hinner n hn => ihcontent hinner hn) tag hc
    have hlayout := layout_loadElement cat (session.decoding false) tag content c
    rw [relaxElements, loadElements_element, loadElements_element, loadElements_element]
    refine (hfirst.later 1 1 1).andThen ?_
    intro _
    exact (ihrest hl (hlayout.trans hc)).later _ _ _

theorem load_relaxes (hcat : cat.Distinct U) (hl : U l) (session : Session) (tag : Tag)
    (content : Forest) (hc : c.layout = l) :
    Progress.Relaxes id (c.load cat (session.decoding false) ⟨some tag, content⟩)
      (c.load cat (session.decoding true)
        ⟨some (relax cat l tag content).1, (relax cat l tag content).2⟩)
      (c.load cat (session.decoding true) ⟨some tag, content⟩) :=
  load_relaxes_of (hcat.names l hl) session (fun _ => loadElements_relaxes hcat hl session content) tag
    hc

theorem replaces_relaxElements (cat : Catalog) (l : LayoutId) (content : Forest) :
    content.Replaces (relaxElements cat l content) := by
  induction content generalizing l with
  | closed => exact .refl _
  | cut => exact .refl _
  | text s rest ih => exact (ih l).text s
  | element tag content rest ihcontent ihrest =>
    have hcontent : content.Replaces
        (relaxElement cat l (relaxElements cat · content) tag content).2 := by
      unfold relaxElement
      split
      · exact Forest.replaces_relax _ content
      · exact Layout.replaces_relaxContent (ihcontent _) _
      · exact .refl content
    refine hcontent.element (ihrest l) ?_ tag _
    rintro rfl
    rfl

theorem replaces_relax (cat : Catalog) (l : LayoutId) (tag : Tag) (content : Forest) :
    content.Replaces (relax cat l tag content).2 :=
  Layout.replaces_relaxContent (replaces_relaxElements cat l content) _

end Composite

end ObjectTracking
