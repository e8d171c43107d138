import ObjectTracking.Proofs.Composite.Written
import ObjectTracking.Proofs.Property.Scoping
import ObjectTracking.Proofs.Property.Values
import ObjectTracking.Property.Content
/-!
A value of a property's shape is written without a fault, by induction on the layers of the shape: all
that can go wrong is a date-time at an end of the calendar.
-/
set_option autoImplicit false

namespace ObjectTracking
open Markup

variable {cat : Catalog} {v : Value}

/-- A value whose date-time, if it is one, is inside the calendar. -/
def Value.Inside (v : Value) : Prop := ∀ t, v = .scalar (.dateTime t) → t.date.Inside

namespace Shape
variable {shape : Shape} {ctx : WriteContext}

theorem fills_encodeText {text : Except Fault (Option String)} {s : String}
    (h : text = .ok (some s)) : (encodeText text).Fills := by
  rw [h]
  exact (Encoding.isContent_text s).fills

/-- The element of a property is filled with a value of its shape. -/
theorem Holds.fills (h : shape.Holds cat v) (hinside : v.Inside) (property : String) :
    (shape.encode cat ctx property v).Fills := by
  induction h with
  | scalar stored =>
    obtain ⟨text, htext⟩ := stored.text?
    exact fills_encodeText (s := text) (by simp only [Codec.formatValue, Codec.format, htext])
  | dateTime zoneUri t =>
    obtain ⟨text, htext⟩ := Scoping.encode_of_inside (hinside t rfl) property ctx.zone
    exact fills_encodeText htext
  | composite fits => exact Composite.Fits.fills _ fits
  | @collection c fits =>
    have hitems : ∀ item ∈ c.items, item.Fits cat := by
      intro item hitem
      obtain ⟨e, he, rfl⟩ := List.mem_map.mp hitem
      exact (fits e he).2
    exact (Collection.isContent_items hitems c.element).fills
  | indexed key held ih => exact ih hinside
  | contained wrapper held ih =>
    rw [encode, held.not_null]
    exact ((ih hinside).element .types wrapper).fills

theorem isContent_items {items : List Composite} {l : LayoutId} {element : String}
    (h : shape.innermost = .collection l element) (hitems : ∀ item ∈ items, item.Fits cat)
    (property : String) : (shape.encodeItems cat property items).IsContent := by
  induction shape with
  | scalar codec => cases h
  | dateTime zoneUri => cases h
  | composite l => cases h
  | collection l element => exact Collection.isContent_items hitems element
  | indexed key inner ih => exact ih h
  | contained wrapper inner ih => exact (ih h).fills.element .types wrapper

end Shape

namespace Property
variable {q : Property} {ctx : WriteContext}

theorem isContent_entry (h : q.shape.Holds cat v) (hinside : v.Inside) (hkey : q.key?.isSome = true) :
    (q.encodeEntry cat ctx v).IsContent := by
  obtain ⟨key, hkey⟩ := Option.isSome_iff_exists.mp hkey
  have hfills : (q.shape.encode cat ctx q.name v).Fills := h.fills hinside q.name
  simp only [encodeEntry, hkey, h.not_null]
  exact (hfills.attribute "Key" key).element .types "Entry"

theorem isContent (h : q.shape.Holds cat v) (hinside : v.Inside) :
    (q.encode cat ctx v).IsContent := by
  rw [encode, h.not_null]
  refine Encoding.Fills.element ?_ .types q.element
  split
  · rename_i hkey
    exact (isContent_entry h hinside hkey).fills
  · exact h.fills hinside q.name

end Property

end ObjectTracking
