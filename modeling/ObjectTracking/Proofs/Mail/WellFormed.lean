import ObjectTracking.Proofs.LocalCopy.Filled
import ObjectTracking.Proofs.Mail
/-!
The object types for mail are well formed.
-/
set_option autoImplicit false

namespace ObjectTracking.Mail

theorem layouts_wellFormed : ∀ l ∈ layouts, l.WellFormed := by
  have hall : ∀ l ∈ layouts, (∀ f ∈ l.fields, f.WellFormed) ∧
      (l.fields.map LayoutField.name).Nodup ∧
      ∀ f ∈ l.fields, f.placement = .text → ∀ g ∈ l.fields, g.placement ≠ .attr →
        g.name = f.name := by decide
  intro l hl
  obtain ⟨hfields, hdistinct, htext⟩ := hall l hl
  exact Layout.wellFormed_of_fields hfields hdistinct htext

/-- A catalog is well formed if what the user adds to it is. -/
theorem catalog_wellFormed {more : List Layout} (h : ∀ l ∈ more, l.WellFormed) :
    (catalog more).WellFormed := by
  intro l
  have hempty : Layout.WellFormed { name := "" } := by
    refine Layout.wellFormed_of_fields ?_ ?_ ?_ <;> simp
  have hall : ∀ l ∈ layouts ++ more, l.WellFormed :=
    List.forall_mem_append.mpr ⟨layouts_wellFormed, h⟩
  simp only [catalog, Array.getD_eq_getD_getElem?, List.getElem?_toArray]
  cases hl : (layouts ++ more)[l.index]? with
  | none => exact hempty
  | some found => exact hall found (List.mem_of_getElem? hl)

/-- What mail objects create on read is an empty collection. -/
theorem created_wellFormed {type : ObjectType} (ht : type ∈ types) {q : Property}
    (hq : q ∈ type.properties) (hauto : q.flags.contains .autoCreate = true) (cat : Catalog) :
    q.default? = some (q.shape.emptyValue cat) ∧ (q.shape.emptyValue cat).isNull = false := by
  have hmem : q ∈ types.flatMap fun t => t.properties.filter (·.flags.contains .autoCreate) :=
    List.mem_flatMap.mpr ⟨type, ht, List.mem_filter.mpr ⟨hq, hauto⟩⟩
  have hcreated : (types.flatMap fun t => t.properties.filter (·.flags.contains .autoCreate)) =
      [Folder.permissionSet, Item.categories, Item.categories, Calendar.requiredAttendees] := rfl
  rw [hcreated] at hmem
  simp only [List.mem_cons, List.not_mem_nil, or_false] at hmem
  rcases hmem with rfl | rfl | rfl | rfl
  all_goals exact ⟨rfl, rfl⟩

/-- The types for mail are well formed, whatever catalog they are used with. -/
theorem types_wellFormed (cat : Catalog) : ∀ type ∈ types, type.WellFormed cat := by
  have hall : ∀ type ∈ types, Markup.IsName type.element ∧
      (type.properties.Pairwise fun p q => p.element = q.element →
        p.key?.isSome = true ∧ q.key?.isSome = true ∧ p.key? ≠ q.key?) ∧
      ∀ q ∈ type.properties, Markup.IsName q.element ∧ q.shape.WellFormed ∧
        (q.key?.isSome = true → (q.shape.emptyValue (catalog [])).isNull = true) := by decide
  intro type ht
  obtain ⟨helement, helements, hproperties⟩ := hall type ht
  refine ⟨helement, helements, ?_⟩
  intro q hq
  obtain ⟨hname, hshape, hentry⟩ := hproperties q hq
  exact ⟨hname, hshape, fun hauto => created_wellFormed ht hq hauto cat,
    fun hkey => Shape.not_hasAttribute (hentry hkey) "Key"⟩

end ObjectTracking.Mail
