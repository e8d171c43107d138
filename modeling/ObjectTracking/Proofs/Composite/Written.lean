import ObjectTracking.Collection.Markup
import ObjectTracking.Proofs.Composite.Fits
import ObjectTracking.Proofs.Markup.Spelt
/-!
Composites that fit their layouts are written without a fault: every field holds what its kind says,
and all attributes come before the first element.
-/
set_option autoImplicit false

namespace ObjectTracking
open Markup

variable {cat : Catalog}

namespace LayoutField

theorem Holds.spelt_attribute {f : LayoutField} {v : Field} (h : f.Holds v) :
    ∃ attributes, (f.encodeAttribute v).Spelt (attributeCalls attributes) := by
  unfold encodeAttribute
  split
  · rename_i codec _ hkind
    cases v with
    | unset => exact ⟨[], rfl, rfl⟩
    | nested c => exact absurd (hkind.symm.trans h) (by simp)
    | scalar s =>
      obtain ⟨codec', hkind', hstores⟩ := h
      obtain rfl : codec = codec' := FieldKind.scalar.inj (hkind.symm.trans hkind')
      obtain ⟨text, htext⟩ := hstores.text?
      refine ⟨[(f.name, text)], ?_⟩
      simp only [htext]
      exact Encoding.spelt_call _
  · exact ⟨[], rfl, rfl⟩

theorem spelt_attributes {fs : List LayoutField} {vs : List Field}
    (h : Field.EachOf cat Holds fs vs) :
    ∃ attributes, (encodeAttributes fs vs).Spelt (attributeCalls attributes) := by
  induction fs generalizing vs with
  | nil => exact ⟨[], rfl, rfl⟩
  | cons f fs ih =>
    cases vs with
    | nil => exact ⟨[], rfl, rfl⟩
    | cons v vs =>
      obtain ⟨first, hfirst⟩ := h.1.spelt_attribute
      obtain ⟨rest, hrest⟩ := ih h.2.2
      refine ⟨first ++ rest, ?_⟩
      rw [attributeCalls, List.map_append]
      exact hfirst.append hrest

end LayoutField

theorem Field.isContent_scalar {f : LayoutField} {s : Scalar} (h : f.Holds (.scalar s)) :
    (Field.encode cat f (.scalar s)).IsContent := by
  obtain ⟨codec, hkind, hstores⟩ := h
  obtain ⟨text, htext⟩ := hstores.text?
  unfold Field.encode
  split
  · exact Encoding.isContent_nothing
  · exact Encoding.isContent_nothing
  · rename_i hkind' _
    obtain rfl := FieldKind.scalar.inj (hkind.symm.trans hkind')
    simp only [htext]
    split
    · exact Encoding.isContent_text text
    · exact (Encoding.isContent_text text).fills.element .types f.name

mutual

theorem Composite.Fits.fills :
    (c : Composite) → c.Each cat LayoutField.Holds → (c.encodeContents cat).Fills
  | .mk l _ vs, h => by
    obtain ⟨attributes, hattributes⟩ := LayoutField.spelt_attributes h
    have hfields := Field.isContent_all (cat.layout l).fields vs h
    rw [Composite.encodeContents]
    exact Encoding.Fills.append ⟨attributes, .nothing, by simpa [Mixed.calls] using hattributes⟩
      hfields

theorem Field.isContent (f : LayoutField) : (v : Field) → f.Holds v →
    v.Each cat LayoutField.Holds → (v.encode cat f).IsContent
  | .unset, _, _ => by
    rw [Field.encode]
    exact Encoding.isContent_nothing
  | .scalar _, h, _ => Field.isContent_scalar h
  | .nested c, hkind, h => by
    have hfills := Composite.Fits.fills c h
    rw [Field.encode]
    split
    · exact Encoding.isContent_nothing
    · rename_i hscalar _
      exact absurd (hscalar.symm.trans hkind) (by simp)
    · exact hfills.element .types f.name

theorem Field.isContent_all : (fs : List LayoutField) → (vs : List Field) →
    Field.EachOf cat LayoutField.Holds fs vs → (Field.encodeAll cat fs vs).IsContent
  | [], [], _ => Encoding.isContent_nothing
  | [], _ :: _, h => h.elim
  | _ :: _, [], h => h.elim
  | f :: fs, v :: vs, ⟨hv, heach, hrest⟩ => by
    rw [Field.encodeAll]
    exact (Field.isContent f v hv heach).append (Field.isContent_all fs vs hrest)

end

theorem Composite.Fits.isContent {c : Composite} (h : c.Fits cat) (element : String) :
    (c.encode cat element).IsContent := (Composite.Fits.fills c h).element .types element

/-- Items that fit are written as elements in a row. -/
theorem Collection.isContent_items {items : List Composite} (h : ∀ item ∈ items, item.Fits cat)
    (element : String) : (encodeItems cat element items).IsContent := by
  apply Encoding.IsContent.concat
  intro e he
  obtain ⟨item, hitem, rfl⟩ := List.mem_map.mp he
  exact (h item hitem).isContent element

end ObjectTracking
