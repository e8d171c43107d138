import ObjectTracking.Property.Content
import ObjectTracking.Proofs.Time.Scoped
/-!
The date-times of properties. However deep in wrappers its text stands, a date-time is written in the
zone that the circumstances scope it to.
-/
set_option autoImplicit false

namespace ObjectTracking
open Markup
open Time (Offset Stamp WallClock)

/-- The text of a date-time is that of what it is sent as. -/
theorem Scoping.encode_scoped {t : WallClock} {zone? : Option Offset} {stamp : Stamp}
    (h : Stamp.Scoped t zone? stamp) (property : String) :
    encode property (.scalar (.dateTime t)) zone? = .ok (some (String.ofList stamp.text)) := by
  cases h with
  | instant hshows => simp only [encode, hshows.scopedText?, Stamp.text]
  | bare => rfl

def Shape.around : Shape → Encoding → Encoding
  | indexed _ inner, content => inner.around content
  | contained wrapper inner, content => .element .types wrapper (inner.around content)
  | _, content => content

namespace Property

/-- A property whose values are date-times, alone, in wrappers or in a dictionary. -/
def IsDateTime (q : Property) : Prop := ∃ zoneUri, q.shape.innermost = .dateTime zoneUri

def around (q : Property) (content : Encoding) : Encoding :=
  match q.key? with
  | none => q.shape.around content
  | some key => .element .types "Entry" (.call (.attr "Key" key) ++ q.shape.around content)

end Property

variable {cat : Catalog} {ctx : WriteContext} {q : Property} {t : WallClock} {stamp : Stamp}

theorem Shape.encode_scoped {shape : Shape} {zoneUri : Option String}
    (hshape : shape.innermost = .dateTime zoneUri) (h : Stamp.Scoped t ctx.zone stamp)
    (property : String) : shape.encode cat ctx property (.scalar (.dateTime t)) =
      shape.around (.call (.text (String.ofList stamp.text))) := by
  induction shape with
  | dateTime => simp only [encode, Scoping.encode_scoped h, encodeText, around]
  | indexed key inner ih => exact ih hshape
  | contained wrapper inner ih =>
    rw [encode, ih hshape]
    rfl
  | _ => cases hshape

namespace Property

theorem encodeEntry_scoped (hq : q.IsDateTime) (hkey : q.key?.isSome = true)
    (h : Stamp.Scoped t ctx.zone stamp) : q.encodeEntry cat ctx (.scalar (.dateTime t)) =
      q.around (.call (.text (String.ofList stamp.text))) := by
  obtain ⟨zoneUri, hshape⟩ := hq
  obtain ⟨key, hkey⟩ := Option.isSome_iff_exists.mp hkey
  simp only [encodeEntry, around, hkey, Shape.encode_scoped hshape h]
  rfl

theorem encode_scoped (hq : q.IsDateTime) (h : Stamp.Scoped t ctx.zone stamp) :
    q.encode cat ctx (.scalar (.dateTime t)) =
      .element .types q.element (q.around (.call (.text (String.ofList stamp.text)))) := by
  cases hkey : q.key? with
  | none =>
    obtain ⟨zoneUri, hshape⟩ := hq
    simp [encode, around, hkey, Shape.encode_scoped hshape h, Value.isNull]
  | some key =>
    have hkeyed : q.key?.isSome = true := by rw [hkey]; rfl
    have hentry : q.encodeEntry cat ctx (.scalar (.dateTime t)) = _ := encodeEntry_scoped hq hkeyed h
    simp [encode, hkey, hentry, Value.isNull]

end Property

end ObjectTracking
