import ObjectTracking.Proofs.Composite.Lenient
import ObjectTracking.Proofs.Property.Content
import ObjectTracking.Proofs.Property.Reread
/-!
Lenient reading of the values of properties, layer by layer.
-/
set_option autoImplicit false

namespace ObjectTracking
open Markup

variable {cat : Catalog} {U : LayoutId → Prop} {session : Session} {l : LayoutId}

namespace Collection
variable {element : String} {c : Collection}

def relaxItem (cat : Catalog) (l : LayoutId) (element : String) (tag : Tag) (content : Forest) :
    Tag × Forest :=
  if tag.name = element then Composite.relax cat l tag content else (tag, content)

def relax (cat : Catalog) (l : LayoutId) (element : String) (content : Forest) : Forest :=
  content.along (fun _ _ _ => ()) (fun tag content _ => relaxItem cat l element tag content) ()

theorem keeps_loadItem (cat : Catalog) (session : Session) (tag : Tag) (content : Forest)
    (c : Collection) : (c.loadItem cat session tag content).state.layout = c.layout ∧
      (c.loadItem cat session tag content).state.element = c.element := by
  unfold loadItem
  split
  · rw [Progress.state_map]
    split <;> exact ⟨rfl, rfl⟩
  · rw [Forest.state_skip]
    exact ⟨rfl, rfl⟩

theorem loadItem_relaxes (hcat : cat.Distinct U) (hl : U c.layout) (session : Session) (tag : Tag)
    (content : Forest) : Progress.Relaxes id (c.loadItem cat (session.decoding false) tag content)
      (c.loadItem cat (session.decoding true) (relaxItem cat c.layout c.element tag content).1
        (relaxItem cat c.layout c.element tag content).2)
      (c.loadItem cat (session.decoding true) tag content) := by
  unfold loadItem relaxItem
  by_cases hname : tag.name = c.element
  · have hname' : (Composite.relax cat c.layout tag content).1.name = c.element := hname
    simp only [if_pos hname, if_pos hname']
    let stored (stopped : Bool) (item : Composite) : Collection :=
      if stopped then c
      else { c with entries := c.entries ++ [⟨some c.entries.length, false, item.attach c.link⟩] }
    exact (Composite.load_relaxes hcat hl session tag content (c := Composite.new cat c.layout)
      rfl).ended stored stored fun _ _ => rfl
  · simp only [if_neg hname]
    exact Forest.skip_relaxes id content c

theorem load_relaxes (hcat : cat.Distinct U) (hl : U c.layout) (session : Session)
    (content : Forest) : Progress.Relaxes id (c.load cat (session.decoding false) content)
      (c.load cat (session.decoding true) (relax cat c.layout c.element content))
      (c.load cat (session.decoding true) content) := by
  let Kept (d : Collection) : Prop := d.layout = c.layout ∧ d.element = c.element
  refine Forest.walk_relaxes Kept (fun _ => ()) ?_ (fun _ _ _ _ => rfl) ?_ content ⟨rfl, rfl⟩
  · rintro tag content d ⟨hlayout, helement⟩
    obtain ⟨hlayout', helement'⟩ := keeps_loadItem cat (session.decoding false) tag content d
    exact ⟨hlayout'.trans hlayout, helement'.trans helement⟩
  · rintro tag content d ⟨hlayout, helement⟩
    rw [← hlayout] at hl
    have hitem := loadItem_relaxes hcat hl session tag content
    rwa [hlayout, helement] at hitem

theorem replaces_relax (cat : Catalog) (l : LayoutId) (element : String) (content : Forest) :
    content.Replaces (relax cat l element content) := by
  refine Forest.replaces_along ?_ content ()
  intro tag content _
  unfold relaxItem
  split
  · exact Composite.replaces_relax cat l tag content
  · exact .refl content

end Collection

namespace Shape
variable {shape : Shape} {property : String}

/-- The element of a value, relaxed for the shape. It depends on what is held which elements are the
items of a collection. -/
def relax (cat : Catalog) : Shape → Tag → Forest → Option Value → Tag × Forest
  | scalar codec, tag, content, _ => (tag, content.relax codec)
  | dateTime _, tag, content, _ => (tag, content)
  | composite l, tag, content, _ => Composite.relax cat l tag content
  | collection l element, tag, content, held =>
    (tag, Collection.relax cat l (Collection.readInto l element held).element content)
  | indexed _ inner, tag, content, held => inner.relax cat tag content held
  | contained wrapper inner, tag, content, held =>
    -- Only the first wrapper is read into what is held.
    let after (tag : Tag) (_ : Forest) (held : Option Value) : Option Value :=
      if tag.IsWrapper wrapper then none else held
    let edit (tag : Tag) (content : Forest) (held : Option Value) : Tag × Forest :=
      if tag.IsWrapper wrapper then inner.relax cat tag content held else (tag, content)
    (tag, content.along after edit held)

/-- Of the tag of an element only attributes are relaxed, and those only if the shape is a composite
without wrappers. -/
theorem relax_tag (cat : Catalog) (shape : Shape) (tag : Tag) (content : Forest)
    (held : Option Value) : (shape.relax cat tag content held).1 = tag ∨
      ∃ l, shape.innermost = .composite l ∧
        (shape.relax cat tag content held).1 = (cat.layout l).relaxTag tag := by
  induction shape with
  | composite l => exact .inr ⟨l, rfl, rfl⟩
  | indexed key inner ih => exact ih
  | _ => exact .inl rfl

theorem relax_tag_named (cat : Catalog) (shape : Shape) (tag : Tag) (content : Forest)
    (held : Option Value) : (shape.relax cat tag content held).1.ns = tag.ns ∧
      (shape.relax cat tag content held).1.name = tag.name := by
  rcases shape.relax_tag cat tag content held with h | ⟨l, -, h⟩ <;> rw [h] <;> exact ⟨rfl, rfl⟩

theorem relax_attribute? {name : String} (h : ¬ shape.HasAttribute cat name) (tag : Tag)
    (content : Forest) (held : Option Value) :
    (shape.relax cat tag content held).1.attribute? name = tag.attribute? name := by
  rcases shape.relax_tag cat tag content held with htag | ⟨l, hl, htag⟩
  · rw [htag]
  · have hnone : (cat.layout l).attributeCodec? name = none :=
      Layout.attributeCodec?_eq_none fun f hf hplacement hname => h ⟨l, hl, f, hf, hplacement, hname⟩
    rw [htag, Layout.attribute?_relaxTag, hnone]
    simp

theorem relax_attribute?_of_none {name : String} {tag : Tag} (h : tag.attribute? name = none)
    (cat : Catalog) (shape : Shape) (content : Forest) (held : Option Value) :
    (shape.relax cat tag content held).1.attribute? name = none := by
  rcases shape.relax_tag cat tag content held with htag | ⟨l, -, htag⟩
  · rw [htag, h]
  · rw [htag, Layout.attribute?_relaxTag, h]
    rfl

theorem replaces_relax (cat : Catalog) (shape : Shape) (tag : Tag) (content : Forest)
    (held : Option Value) : content.Replaces (shape.relax cat tag content held).2 := by
  induction shape generalizing tag content held with
  | scalar codec => exact Forest.replaces_relax codec content
  | dateTime zoneUri => exact .refl content
  | composite l => exact Composite.replaces_relax cat l tag content
  | collection l element => exact Collection.replaces_relax cat l _ content
  | indexed key inner ih => exact ih tag content held
  | contained wrapper inner ih =>
    refine Forest.replaces_along ?_ content held
    intro tag content held
    by_cases hwrapper : tag.IsWrapper wrapper
    · simpa only [if_pos hwrapper] using ih tag content held
    · simpa only [if_neg hwrapper] using Forest.Replaces.refl content

theorem readText_relaxes (codec : Codec) (property : String) (tag? : Option Tag) (content : Forest) :
    Progress.Relaxes id
      (readText ⟨tag?, content⟩ fun s => codec.parseValue property s false)
      (readText ⟨tag?, content.relax codec⟩ fun s => codec.parseValue property s true)
      (readText ⟨tag?, content⟩ fun s => codec.parseValue property s true) := by
  unfold readText
  rw [Site.value_relax]
  cases Site.value ⟨tag?, content⟩ with
  | error e => exact .same (.halt Value.null e)
  | ok text =>
    constructor
    · -- Where a refused text is refused makes no difference.
      simp only [Except.map, Codec.parseValue, codec.parse_relax]
      cases (codec.parse property text false).1 <;> exact ⟨rfl, rfl⟩
    · intro hend
      cases hread : (codec.parse property text true).1 with
      | error e => simp [Codec.parseValue, hread, Except.map, Progress.later] at hend
      | ok v =>
        simp only [Codec.parseValue, hread, Codec.parse_lenient hread]
        exact ⟨rfl, rfl⟩

/-- To read a value leniently is to read it strictly with nothing in the place of unknown names. -/
theorem decode_relaxes (hcat : cat.Distinct U) (hl : ∀ l, shape.layout? = some l → U l)
    (session : Session) (property : String) (tag : Tag) (content : Forest) (held : Option Value) :
    Progress.Relaxes id
      (shape.decode cat (session.decoding false) property ⟨some tag, content⟩ held)
      (shape.decode cat (session.decoding true) property
        ⟨some (shape.relax cat tag content held).1, (shape.relax cat tag content held).2⟩ held)
      (shape.decode cat (session.decoding true) property ⟨some tag, content⟩ held) := by
  induction shape generalizing tag content held with
  | scalar codec => exact readText_relaxes codec property (some tag) content
  | dateTime zoneUri => exact .same _
  | composite l =>
    have hlayout := Composite.layout_readInto cat l held
    exact (Composite.load_relaxes hcat (hl l rfl) session tag content hlayout).map _ _ fun _ => rfl
  | collection l element =>
    have hlayout := Collection.layout_readInto l element held
    have hread := Collection.load_relaxes (c := Collection.readInto l element held) hcat
      (hlayout.symm ▸ hl l rfl) session content
    rw [hlayout] at hread
    exact hread.map _ _ fun _ => rfl
  | indexed key inner ih => exact ih hl tag content held
  | contained wrapper inner ih =>
    rw [decode_contained, decode_contained, decode_contained]
    refine Progress.Relaxes.map ?_ _ _ fun _ => rfl
    refine Forest.walk_relaxes (fun _ => True) Prod.fst (fun _ _ _ _ => trivial) ?_ ?_ content trivial
    · intro tag content s _
      by_cases hwrapper : tag.IsWrapper wrapper
      · rw [loadWrapper_of_isWrapper hwrapper, if_pos hwrapper, Progress.state_map]
      · rw [loadWrapper_of_not_isWrapper hwrapper, if_neg hwrapper, Forest.state_skip]
    · intro tag content s _
      by_cases hwrapper : tag.IsWrapper wrapper
      · have hwrapper' : (inner.relax cat tag content s.1).1.IsWrapper wrapper := by
          obtain ⟨hns, hname⟩ := inner.relax_tag_named cat tag content s.1
          exact ⟨hns.trans hwrapper.1, hname.trans hwrapper.2⟩
        simp only [if_pos hwrapper]
        rw [loadWrapper_of_isWrapper hwrapper, loadWrapper_of_isWrapper hwrapper,
          loadWrapper_of_isWrapper hwrapper']
        exact (ih hl tag content s.1).map _ _ fun _ => rfl
      · simp only [if_neg hwrapper]
        rw [loadWrapper_of_not_isWrapper hwrapper, loadWrapper_of_not_isWrapper hwrapper]
        exact Forest.skip_relaxes id content s

end Shape

end ObjectTracking
