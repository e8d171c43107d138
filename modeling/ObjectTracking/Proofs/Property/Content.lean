import ObjectTracking.Proofs.Collection.Markup
import ObjectTracking.Proofs.Property.Scoping
import ObjectTracking.Proofs.Property.Values
import ObjectTracking.Property.Content
/-!
The value of a property that was written on create is read again, by induction on the layers of the
shape. The attributes of a composite stand on the innermost element, which for the entry of a
dictionary also has the key.
-/
set_option autoImplicit false

namespace ObjectTracking
open Markup

namespace Value

/-- A value that is told from all others by what is written for it in a session. -/
def Writable (cat : Catalog) (session : Session) : Value → Prop
  | .scalar (.dateTime t) => Scoping.Writable session.zone t
  | .composite c => c.Telling cat
  | .collection c => ∀ e ∈ c.entries, e.value.Telling cat
  | _ => True

/-- What is read of a value: its changes are settled, and it reports to nobody. -/
def restored : Value → Value
  | .composite c => .composite (c.attach none)
  | .collection c => .collection (c.markSaved.attach none)
  | v => v

end Value

namespace Shape

def WellFormed : Shape → Prop
  | scalar codec => codec.Faithful
  | dateTime _ => True
  | composite _ => True
  | collection _ element => IsName element
  | indexed _ inner => inner.WellFormed
  | contained wrapper inner => IsName wrapper ∧ inner.WellFormed

def decideWellFormed : (shape : Shape) → Decidable shape.WellFormed
  | scalar codec => inferInstanceAs (Decidable codec.Faithful)
  | dateTime _ => .isTrue trivial
  | composite _ => .isTrue trivial
  | collection _ element => inferInstanceAs (Decidable (IsName element))
  | indexed _ inner => inner.decideWellFormed
  | contained wrapper inner =>
    have := inner.decideWellFormed
    inferInstanceAs (Decidable (IsName wrapper ∧ inner.WellFormed))

instance : DecidablePred WellFormed := decideWellFormed

def HasAttribute (cat : Catalog) (shape : Shape) (name : String) : Prop :=
  ∃ l, shape.innermost = .composite l ∧
    ∃ f ∈ (cat.layout l).fields, f.placement = .attr ∧ f.name = name

/-- Only composites have attributes, and no shape with a text is one. -/
theorem not_hasAttribute {cat cat' : Catalog} {shape : Shape}
    (h : (shape.emptyValue cat').isNull = true) (name : String) :
    ¬ shape.HasAttribute cat name := by
  rintro ⟨l, hl, _⟩
  simp [emptyValue, hl, Value.isNull] at h

/-- A value is written as attributes and a content, and is read from an element with both, which may
have other attributes besides. -/
structure Conveyed (cat : Catalog) (session : Session) (shape : Shape) (v : Value)
    (attributes : List (String × String)) (content : Content) : Prop where
  areAttributes : AreAttributes attributes
  named : ∀ a ∈ attributes, shape.HasAttribute cat a.1
  wellFormed : content.WellFormed
  encoded : ∀ property, shape.encode cat ⟨session, false, none⟩ property v =
    .ofCalls (attributeCalls attributes ++ content.calls)
  loaded : ∀ (property element : String) (extra : List (String × String)),
    (∀ a ∈ extra, ¬ shape.HasAttribute cat a.1) →
      shape.decode cat session property
          ⟨some (Content.tag element (extra ++ attributes)), content.forest⟩ none =
        .done v.restored

variable {cat : Catalog} {session : Session} {shape inner : Shape} {v : Value}

theorem conveyed_text {s : Scalar} {text : String}
    (hencode : ∀ property, shape.encode cat ⟨session, false, none⟩ property (.scalar s) =
      .call (.text text))
    (hread : ∀ (property : String) (tag : Tag),
      shape.decode cat session property ⟨some tag, .ofText text⟩ none = .done (.scalar s)) :
    shape.Conveyed cat session (.scalar s) [] (.text text) := by
  refine ⟨areAttributes_nil, by simp, trivial, hencode, ?_⟩
  intro property element extra _
  exact hread property _

theorem conveyed_scalar {codec : Codec} {s : Scalar} (hcodec : codec.Faithful)
    (hs : codec.Stores s) : ∃ content, (scalar codec).Conveyed cat session (.scalar s) [] content := by
  obtain ⟨text, htext⟩ := hs.text?
  refine ⟨.text text, conveyed_text ?_ ?_⟩
  · intro property
    simp only [encode, Codec.formatValue, Codec.format, htext, encodeText]
  · intro property tag
    simp only [decode, readText, Site.value_ofText, Codec.parseValue,
      Codec.parse_text? hcodec hs htext]
    rfl

theorem conveyed_dateTime (zoneUri : Option String) {t : Time.WallClock}
    (ht : Scoping.Writable session.zone t) : ∃ content,
      (dateTime zoneUri).Conveyed cat session (.scalar (.dateTime t)) [] content := by
  obtain ⟨text, htext⟩ := Scoping.decode_encode ht
  refine ⟨.text text, conveyed_text ?_ ?_⟩
  · intro property
    have hzone : WriteContext.zone ⟨session, false, none⟩ = some session.zone := rfl
    simp only [encode, hzone, (htext property).1, encodeText]
  · intro property tag
    simp only [decode, readText, Site.value_ofText, (htext property).2]
    rfl

theorem conveyed_composite {c : Composite} (hcat : cat.WellFormed) (hfits : c.Fits cat)
    (htells : c.Telling cat) : ∃ content,
      (composite c.layout).Conveyed cat session (.composite c) (c.attributes cat) content := by
  obtain ⟨body, hbody⟩ := Composite.conveyed hcat c hfits
  refine ⟨body, Composite.areAttributes (hcat c.layout), ?_, hbody.wellFormed,
    fun _ => hbody.encoded, ?_⟩
  · intro a ha
    exact ⟨c.layout, rfl, LayoutField.mem_attributes ha⟩
  · intro property element extra hextra
    have htag : c.AttributesIn cat (Content.tag element (extra ++ c.attributes cat)) := by
      intro f hf hplacement
      have hnone : extra.lookup f.name = none := by
        rw [List.lookup_eq_none_iff]
        intro a ha
        have hne : f.name ≠ a.1 := fun hname => hextra a ha ⟨c.layout, rfl, f, hf, hplacement, hname⟩
        simpa using hne
      rw [Tag.attribute?, Content.tag, List.lookup_append, hnone, Option.none_or]
    change (Composite.load cat session _ (Composite.new cat c.layout)).map Value.composite = _
    rw [hbody.loaded session _ htag, Composite.retold_of_telling c htells, Progress.map_done]
    rfl

theorem conveyed_collection {c : Collection} (hcat : cat.WellFormed) (helement : IsName c.element)
    (hfits : c.Fits cat) (htells : ∀ e ∈ c.entries, e.value.Telling cat) : ∃ content,
      (collection c.layout c.element).Conveyed cat session (.collection c) [] content := by
  obtain ⟨row, hrow, hencode, hload⟩ := Collection.conveyed hcat helement hfits htells
  refine ⟨row, areAttributes_nil, by simp, hrow, fun _ => hencode, ?_⟩
  intro property element extra _
  change (Collection.load cat session _ (Collection.new c.layout c.element)).map _ = _
  rw [hload, Progress.map_done]
  rfl

/-- What is in a wrapper has the attributes there, so that the outer element has none. -/
theorem Conveyed.contained {attributes : List (String × String)} {content : Content}
    (h : inner.Conveyed cat session v attributes content) (hv : v.isNull = false)
    {wrapper : String} (hwrapper : IsName wrapper) :
    (contained wrapper inner).Conveyed cat session v []
      (.element wrapper attributes content .nothing) := by
  refine ⟨areAttributes_nil, by simp, ⟨hwrapper, h.areAttributes, h.wellFormed, trivial, rfl⟩, ?_, ?_⟩
  · intro property
    rw [encode, hv, h.encoded, Encoding.element_eq]
    rfl
  · intro property element extra _
    have hinner := h.loaded property wrapper [] (by simp)
    simp only [List.nil_append, Content.tag] at hinner
    simp [decode, Content.forest, Content.tag, Forest.walk, hinner]

/-- A value of a shape is written and read again. -/
theorem conveyed (hcat : cat.WellFormed) (hshape : shape.WellFormed) (hv : shape.Holds cat v)
    (hw : v.Writable cat session) :
    ∃ attributes content, shape.Conveyed cat session v attributes content := by
  induction hv with
  | scalar hs => exact ⟨[], conveyed_scalar hshape hs⟩
  | dateTime zoneUri t => exact ⟨[], conveyed_dateTime zoneUri hw⟩
  | composite hfits => exact ⟨_, conveyed_composite hcat hfits hw⟩
  | collection hfits => exact ⟨[], conveyed_collection hcat hshape hfits hw⟩
  | indexed key held ih =>
    obtain ⟨attributes, content, h⟩ := ih hshape hw
    exact ⟨attributes, content, h.areAttributes, h.named, h.wellFormed, h.encoded, h.loaded⟩
  | contained wrapper held ih =>
    obtain ⟨attributes, content, h⟩ := ih hshape.2 hw
    exact ⟨[], _, h.contained held.not_null hshape.1⟩

end Shape

namespace Property

structure WellFormed (cat : Catalog) (p : Property) : Prop where
  element : IsName p.element
  shape : p.shape.WellFormed
  /-- What is created on read is an empty nested value. -/
  created : p.flags.contains .autoCreate = true →
    p.default? = some (p.shape.emptyValue cat) ∧ (p.shape.emptyValue cat).isNull = false
  /-- Beside the key of an entry there is no other attribute of that name. -/
  entry : p.key?.isSome = true → ¬ p.shape.HasAttribute cat "Key"

structure Conveyed (cat : Catalog) (session : Session) (p : Property) (v : Value) (e : Encoding)
    (name : String) (attributes : List (String × String)) (content : Content) : Prop where
  isName : IsName name
  areAttributes : AreAttributes attributes
  wellFormed : content.WellFormed
  encoded : e = .element .types name (.ofCalls (attributeCalls attributes ++ content.calls))
  loaded : p.decode cat session ⟨some (Content.tag name attributes), content.forest⟩ none =
    .done v.restored

variable {cat : Catalog} {session : Session} {p : Property} {v : Value}

theorem conveyed_element (hcat : cat.WellFormed) (hp : p.WellFormed cat) (hkey : p.key? = none)
    (hv : p.shape.Holds cat v) (hw : v.Writable cat session) : ∃ attributes content,
      p.Conveyed cat session v (p.encode cat ⟨session, false, none⟩ v) p.element attributes
        content := by
  obtain ⟨attributes, content, h⟩ := Shape.conveyed hcat hp.shape hv hw
  refine ⟨attributes, content, hp.element, h.areAttributes, h.wellFormed, ?_,
    h.loaded p.name p.element [] (by simp)⟩
  simp [encode, hv.not_null, hkey, h.encoded]

/-- The element of an entry of a dictionary has the key before the attributes of the value. -/
theorem conveyed_entry (hcat : cat.WellFormed) (hp : p.WellFormed cat) {key : String}
    (hkey : p.key? = some key) (hv : p.shape.Holds cat v) (hw : v.Writable cat session) :
    ∃ attributes content, p.Conveyed cat session v (p.encodeEntry cat ⟨session, false, none⟩ v)
      "Entry" (("Key", key) :: attributes) content := by
  obtain ⟨attributes, content, h⟩ := Shape.conveyed hcat hp.shape hv hw
  have hfree : ¬ p.shape.HasAttribute cat "Key" := hp.entry (by simp [hkey])
  have hname : IsName "Entry" := ⟨by decide, by decide⟩
  have hkeyName : IsName "Key" ∧ "Key" ≠ "xmlns" := ⟨⟨by decide, by decide⟩, by decide⟩
  refine ⟨attributes, content, hname, ⟨?_, ?_⟩, h.wellFormed, ?_,
    h.loaded p.name "Entry" [("Key", key)] (by simpa using hfree)⟩
  · exact List.forall_mem_cons.mpr ⟨hkeyName, h.areAttributes.names⟩
  · rw [List.map_cons, List.nodup_cons]
    refine ⟨?_, h.areAttributes.distinct⟩
    intro hmem
    obtain ⟨a, ha, hname⟩ := List.mem_map.mp hmem
    have hattribute := h.named a ha
    rw [hname] at hattribute
    exact hfree hattribute
  · simp only [encodeEntry, hkey, hv.not_null, h.encoded, Encoding.call_eq_ofCalls,
      Encoding.ofCalls_append]
    rfl

end Property

end ObjectTracking
