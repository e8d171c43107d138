import ObjectTracking.Proofs.Composite.Loading
import ObjectTracking.Proofs.LocalCopy.Dispatch
import ObjectTracking.Proofs.LocalCopy.Load
import ObjectTracking.Proofs.Markup.Alike
import ObjectTracking.Proofs.Property.Reader
import ObjectTracking.Proofs.Property.Reading
import ObjectTracking.Proofs.Property.Values
/-!
The elements within the element of an object are read as what the element around them is read as: as
properties, entries of a dictionary, items, a wrapper or fields. For each there is a reader and what
reading an element keeps.

A collection that is read into what is held keeps the name that its items had there. So an element
can be an item by two names, which are the same for every copy whose values are of their shapes.
-/
set_option autoImplicit false

namespace ObjectTracking
open Markup

def Shape.itemElement? (shape : Shape) : Option String :=
  match shape.innermost with
  | .collection _ element => some element
  | _ => none

/-- A value whose items, if it is a collection, have one of some names. -/
def Value.ItemsNamed (names : List String) : Value → Prop
  | .collection c => c.element ∈ names
  | _ => True

def LocalCopy.itemNames (o : LocalCopy) (slot : Nat) (q : Property) : List String :=
  q.shape.itemElement?.toList ++
    (((o.values.get? slot).bind Value.collection?).map Collection.element).toList

/-- What the elements within an element are read as. -/
inductive Role where
  /-- Properties of the object. -/
  | properties
  /-- Entries of the dictionary of a name. -/
  | entries (element : String)
  /-- Items of a collection of a layout, under any of some names. -/
  | items (layout : LayoutId) (names : List String)
  /-- Wrappers around the value of a property. -/
  | wrappers (wrapper : String) (inner : Shape) (property : String) (names : List String)
  /-- Fields of a composite of a layout. -/
  | fields (layout : LayoutId)

namespace Role

/-- What the elements within a composite are read as. If it has a text field, nothing is read but
text. -/
def ofLayout? (cat : Catalog) (l : LayoutId) : Option Role :=
  if (cat.layout l).textPosition?.isSome then none else some (fields l)

/-- What the elements within a value of a shape are read as; none if it is a text. -/
def ofShape? (cat : Catalog) (property : String) (names : List String) : Shape → Option Role
  | .scalar _ => none
  | .dateTime _ => none
  | .composite l => ofLayout? cat l
  | .collection l _ => some (items l names)
  | .indexed _ inner => ofShape? cat property names inner
  | .contained wrapper inner => some (wrappers wrapper inner property names)

def Ignores (cat : Catalog) (o : LocalCopy) : Role → Tag → Prop
  | properties, tag => (∀ q ∈ o.type.properties, q.element ≠ tag.name) ∨
      ∃ q ∈ o.type.properties, q.element = tag.name ∧ q.key? = none ∧
        q.isApplicable o.version = false
  | entries element, tag => ∀ q ∈ o.type.properties, q.element = element →
      q.isApplicable o.version = true →
        ¬ (tag.ns = some .types ∧ tag.name = "Entry" ∧ tag.attribute? "Key" = q.key?)
  | items _ names, tag => tag.name ∉ names
  | wrappers wrapper _ _ _, tag => ¬ (tag.ns = some .types ∧ tag.name = wrapper)
  | fields l, tag => ∀ f ∈ (cat.layout l).fields, f.placement = .element → f.name ≠ tag.name

instance (cat : Catalog) (o : LocalCopy) (r : Role) (tag : Tag) : Decidable (r.Ignores cat o tag) :=
  match r with
  | properties => inferInstanceAs (Decidable (_ ∨ _))
  | entries element => inferInstanceAs (Decidable (∀ q ∈ o.type.properties, q.element = element →
      q.isApplicable o.version = true →
        ¬ (tag.ns = some .types ∧ tag.name = "Entry" ∧ tag.attribute? "Key" = q.key?)))
  | items _ names => inferInstanceAs (Decidable (tag.name ∉ names))
  | wrappers wrapper _ _ _ =>
    inferInstanceAs (Decidable (¬ (tag.ns = some .types ∧ tag.name = wrapper)))
  | fields l => inferInstanceAs (Decidable (∀ f ∈ (cat.layout l).fields,
      f.placement = .element → f.name ≠ tag.name))

/-- What the elements within an element are read as, where it stands. -/
inductive Reads (cat : Catalog) (o : LocalCopy) : Role → Tag → Role → Prop where
  | property {slot : Nat} {q : Property} {tag : Tag} {r : Role}
      (known : o.type.property? slot = some q) (plain : q.key? = none)
      (applicable : q.isApplicable o.version = true) (named : tag.name = q.element)
      (content : ofShape? cat q.name (o.itemNames slot q) q.shape = some r) :
      Reads cat o properties tag r
  | dictionary {slot : Nat} {q : Property} {tag : Tag} (known : o.type.property? slot = some q)
      (keyed : q.key?.isSome = true) (named : tag.name = q.element) :
      Reads cat o properties tag (entries q.element)
  | entry {element : String} {slot : Nat} {q : Property} {tag : Tag} {r : Role}
      (found : o.entrySlot? (o.type.dispatch element) (tag.attribute? "Key") = some (slot, q))
      (applicable : q.isApplicable o.version = true)
      (named : tag.ns = some .types ∧ tag.name = "Entry")
      (content : ofShape? cat q.name (o.itemNames slot q) q.shape = some r) :
      Reads cat o (entries element) tag r
  | item {l : LayoutId} {names : List String} {tag : Tag} {r : Role} (named : tag.name ∈ names)
      (content : ofLayout? cat l = some r) : Reads cat o (items l names) tag r
  | wrapped {wrapper property : String} {inner : Shape} {names : List String} {tag : Tag} {r : Role}
      (named : tag.ns = some .types ∧ tag.name = wrapper)
      (content : ofShape? cat property names inner = some r) :
      Reads cat o (wrappers wrapper inner property names) tag r
  | field {l inner : LayoutId} {f : LayoutField} {ix : Nat} {tag : Tag} {r : Role}
      (found : (cat.layout l).elementPosition? tag.name = some ix)
      (known : (cat.layout l).fields[ix]? = some f) (nested : f.kind = .nested inner)
      (content : ofLayout? cat inner = some r) : Reads cat o (fields l) tag r

end Role

variable {cat : Catalog} {session : Session} {o : LocalCopy} {l : LayoutId}

namespace Composite

/-- A composite without a text field is read from its attributes and then from its elements. -/
theorem load_of_elements (htext : (cat.layout l).textPosition? = none) (tag? : Option Tag)
    (content : Forest) {c : Composite} (hc : c.layout = l) :
    c.load cat session ⟨tag?, content⟩ =
      (loadAttributes session tag? 0 (cat.layout l).fields c).andThen
        (loadElements cat session content) := by
  subst hc
  simp only [load, loadBy, htext]

end Composite

/-! The readers of the elements within an element, each with what it keeps. -/

def fieldReader (cat : Catalog) (session : Session) (l : LayoutId) : ElementReader where
  State := Composite
  step := Composite.loadElement cat session
  Valid c := c.layout = l
  valid_step tag content c hc := (Composite.layout_loadElement cat session tag content c).trans hc

def itemReader (cat : Catalog) (session : Session) (l : LayoutId) (names : List String) :
    ElementReader where
  State := Collection
  step := Collection.loadItem cat session
  Valid c := c.layout = l ∧ c.element ∈ names
  valid_step tag content c hc := by
    unfold Collection.loadItem
    split
    · rw [Progress.state_map]
      split
      · exact hc
      · exact hc
    · rwa [Forest.state_skip]

theorem Collection.load_valid {names : List String} {c : Collection} (hc : c.element ∈ names)
    (content : Forest) :
    (itemReader cat session c.layout names).Valid (c.load cat session content).state :=
  (itemReader cat session c.layout names).valid_walk content ⟨rfl, hc⟩

theorem Shape.decode_itemsNamed {names : List String} (cat : Catalog) (session : Session)
    (property : String) {shape : Shape} (hshape : ∀ element, shape.itemElement? = some element →
      element ∈ names) (site : Site) {existing : Option Value}
    (hexisting : ∀ v, existing = some v → v.ItemsNamed names) :
    (shape.decode cat session property site existing).state.ItemsNamed names := by
  induction shape generalizing site existing with
  | scalar codec => exact readText_parseValue_induction trivial fun _ _ _ => trivial
  | dateTime zoneUri => exact readText_scoping_induction trivial fun _ => trivial
  | composite l => trivial
  | collection l element =>
    obtain ⟨c, -, hc, hdecode⟩ := decode_collection cat session property l element existing
    rw [hdecode]
    apply (Collection.load_valid _ site.content).2
    rcases hc with rfl | rfl
    · exact hshape element rfl
    · exact hexisting _ rfl
  | indexed key inner ih => exact ih hshape site hexisting
  | contained wrapper inner ih =>
    refine decode_contained_induction (Q := fun existing => ∀ v, existing = some v →
      v.ItemsNamed names) trivial (by simp) hexisting ?_
    intro site existing h
    exact ih hshape site h

def wrapperReader (cat : Catalog) (session : Session) (property wrapper : String) (inner : Shape)
    (names : List String) : ElementReader where
  State := Option Value × Value
  step := inner.loadWrapper cat session property wrapper
  Valid s := (∀ element, inner.itemElement? = some element → element ∈ names) ∧
    ∀ v, s.1 = some v → v.ItemsNamed names
  valid_step tag content s hs := by
    unfold Shape.loadWrapper
    split
    · exact ⟨hs.1, by simp⟩
    · rwa [Forest.state_skip]

namespace LocalCopy
variable {o' : LocalCopy} {slot : Nat} {q : Property}

/-- A copy that reading elements has made of another, with items of the names that they had. -/
structure ReadsItems (o o' : LocalCopy) : Prop where
  reading : Reading o o'
  named : ∀ slot q v, o.type.property? slot = some q → o'.values.get? slot = some v →
    v.ItemsNamed (o.itemNames slot q)

theorem ReadsItems.refl (o : LocalCopy) : o.ReadsItems o := by
  refine ⟨.refl o, ?_⟩
  intro slot q v _ hv
  cases v with
  | collection c => simp [Value.ItemsNamed, itemNames, hv, Value.collection?]
  | _ => trivial

theorem itemElement_mem_itemNames {element : String} (h : q.shape.itemElement? = some element) :
    element ∈ o.itemNames slot q := by
  simp [itemNames, h]

theorem itemsNamed_attach {names : List String} {v : Value} (h : v.ItemsNamed names) (k : Link) :
    (v.attach k).ItemsNamed names := by
  cases v with
  | collection c => exact h
  | _ => trivial

theorem ReadsItems.loadSlot (h : o.ReadsItems o') (hq : o.type.property? slot = some q) (tag : Tag)
    (content : Forest) : o.ReadsItems (o'.loadSlot cat slot q tag content).state := by
  refine ⟨h.reading.trans (loadSlot_reading o' slot q tag content), ?_⟩
  intro n r v hr hv
  by_cases hn : n = slot
  · subst hn
    obtain rfl : q = r := Option.some.inj (hq.symm.trans hr)
    obtain ⟨existing, hexisting⟩ : ∃ existing,
        existing = if q.has .reuseInstance o'.version then o'.values.get? n else none := ⟨_, rfl⟩
    have hnames : ∀ element, q.shape.itemElement? = some element → element ∈ o.itemNames n q :=
      fun _ => itemElement_mem_itemNames
    have hnamed : ∀ v, existing = some v → v.ItemsNamed (o.itemNames n q) := by
      intro v hv
      rw [hexisting] at hv
      exact h.named n q v hq (Option.ite_none_right_eq_some.mp hv).2
    have hread := Shape.decode_itemsNamed cat o'.session q.name hnames ⟨some tag, content⟩ hnamed
    have hstate : ∀ w : Value, (if w.isNull then o'.values.erase n
        else o'.values.insert n (w.attach (o'.link n))).get? n =
          if w.isNull then none else some (w.attach (o'.link n)) := by
      intro w
      cases w.isNull <;> simp
    rw [hexisting] at hread
    obtain ⟨-, hvalue⟩ := Option.ite_none_left_eq_some.mp ((hstate _).symm.trans hv)
    rw [← Option.some.inj hvalue]
    exact itemsNamed_attach hread _
  · rw [loadSlot_get?_of_ne o' hn] at hv
    exact h.named n r v hr hv

theorem ReadsItems.loadEntry (h : o.ReadsItems o') (slots : List Nat) (tag : Tag)
    (content : Forest) : o.ReadsItems (o'.loadEntry cat slots tag content).state := by
  rcases loadEntry_eq cat o' slots tag content with ⟨n, q, hq, -, -, he⟩ | ⟨-, he⟩
  · rw [he]
    exact h.loadSlot (by rwa [← h.reading.type]) tag content
  · rwa [he]

theorem ReadsItems.loadElement (h : o.ReadsItems o') (tag : Tag) (content : Forest) :
    o.ReadsItems (o'.loadElement cat tag content).state := by
  rcases loadElement_eq cat o' tag content with ⟨n, q, hq, -, -, he⟩ | ⟨slots, -, he⟩ | ⟨-, he⟩
  · rw [he]
    exact h.loadSlot (by rwa [← h.reading.type]) tag content
  · rw [he]
    exact Forest.walk_induction h fun y _ o' h => h.loadEntry slots y.1 y.2
  · rwa [he]

end LocalCopy

def entryReader (cat : Catalog) (o : LocalCopy) (element : String) : ElementReader where
  State := LocalCopy
  step := LocalCopy.loadEntry cat (o.type.dispatch element)
  Valid := o.ReadsItems
  valid_step tag content _ h := h.loadEntry (o.type.dispatch element) tag content

def propertyReader (cat : Catalog) (o : LocalCopy) : ElementReader where
  State := LocalCopy
  step := LocalCopy.loadElement cat
  Valid := o.ReadsItems
  valid_step tag content _ h := h.loadElement tag content

namespace Role

def reader (cat : Catalog) (o : LocalCopy) : Role → ElementReader
  | properties => propertyReader cat o
  | entries element => entryReader cat o element
  | items l names => itemReader cat o.session l names
  | wrappers wrapper inner property names => wrapperReader cat o.session property wrapper inner names
  | fields l => fieldReader cat o.session l

end Role

end ObjectTracking
