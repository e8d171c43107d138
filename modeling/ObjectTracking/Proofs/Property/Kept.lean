import ObjectTracking.Proofs.Composite.Made
import ObjectTracking.Proofs.Property.Reading
import ObjectTracking.Proofs.Property.Values
/-!
What a property keeps: values of its shape that are made as those of callers are. It takes such
values, creates them, and reads nothing else but them or nothing. The latter is by induction on the
layers of the shape, of which only the innermost has to do with the value.
-/
set_option autoImplicit false

namespace ObjectTracking.Shape
open Markup

/-- A value of a shape, made as those of callers are. -/
structure Keeps (cat : Catalog) (shape : Shape) (v : Value) : Prop where
  holds : shape.Holds cat v
  made : v.Made cat

/-- The codec of a scalar writes what it reads, and the layout is one of some. -/
structure Consistent (U : LayoutId → Prop) (shape : Shape) : Prop where
  codec : ∀ codec, shape.innermost = .scalar codec → codec.Consistent
  layout : ∀ l, shape.layout? = some l → U l

variable {cat : Catalog} {U : LayoutId → Prop} {shape : Shape} {v v' : Value} {property : String}

theorem made_emptyValue (cat : Catalog) (shape : Shape) : (shape.emptyValue cat).Made cat := by
  unfold emptyValue
  split
  · exact .composite _
  · exact .collection _ _
  · exact .null

theorem keeps_emptyValue (h : (shape.emptyValue cat).isNull = false) :
    shape.Keeps cat (shape.emptyValue cat) := ⟨emptyValue_holds h, made_emptyValue cat shape⟩

theorem Takes.keeps (h : shape.innermost.Takes property v v') (hU : cat.Consistent U)
    (hshape : shape.Consistent U) (hv : v.Made cat) : shape.Keeps cat v' := by
  have hfits : v.Fits cat := by
    apply (hv.fitsIn hU).fits
    rw [h.layout?]
    exact hshape.layout
  refine ⟨(h.holds hfits).of_innermost, ?_⟩
  generalize shape.innermost = inner at h
  cases h with
  | scalar _ => exact .scalar _
  | dateTime _ t => exact .scalar _
  | composite c => exact hv
  | collection c => exact hv

namespace Keeps

theorem attach (h : shape.Keeps cat v) (k : Link) : shape.Keeps cat (v.attach k) :=
  ⟨h.holds.attach k, h.made.attach k⟩

theorem composite {c c' : Composite} (h : shape.Keeps cat (.composite c)) (hU : cat.Consistent U)
    (hshape : shape.Consistent U) (hc : c.Remade cat c') : shape.Keeps cat (.composite c') :=
  ⟨h.holds.replace_composite hU.closed hshape.layout fun _ => ⟨hc.layout, hc.made.fitsIn hU⟩, hc.made⟩

theorem collection {c c' : Collection} (h : shape.Keeps cat (.collection c))
    (hU : cat.Consistent U) (hshape : shape.Consistent U) (hc : c.Remade cat c') :
    shape.Keeps cat (.collection c') := by
  refine ⟨?_, hc.made⟩
  apply h.holds.replace_collection hU.closed hshape.layout
  exact fun _ => ⟨hc.layout, hc.element, hc.made.fitsIn hU⟩

theorem perform {edit : ValueEdit} {r : Edited Value Unit} (h : shape.Keeps cat v)
    (hU : cat.Consistent U) (hshape : shape.Consistent U)
    (hedit : ∀ n, edit.assigned? = some n → (Value.composite n).Made cat)
    (hr : v.perform cat edit = some r) : shape.Keeps cat r.state := by
  refine ⟨?_, h.made.edit edit hedit hr⟩
  exact h.holds.perform hU.closed hshape.layout (fun n hn => (hedit n hn).fitsIn hU) hr

end Keeps

/-- What is read into a value that is kept, or into none, is kept unless it is nothing. -/
theorem decode_keeps (hU : cat.Consistent U) (hshape : shape.Consistent U) (session : Session)
    (property : String) (site : Site) {existing : Option Value}
    (hexisting : ∀ v, existing = some v → shape.Keeps cat v) :
    (shape.decode cat session property site existing).state = .null ∨
      shape.Keeps cat (shape.decode cat session property site existing).state := by
  induction shape generalizing site existing with
  | scalar codec =>
    refine readText_parseValue_induction (P := fun v => v = .null ∨ Keeps cat _ v) (.inl rfl) ?_
    intro text s hs
    have hstores := Codec.parse_stores (hshape.codec codec rfl) hs
    exact .inr ⟨.scalar hstores, .scalar s⟩
  | dateTime zoneUri =>
    refine readText_scoping_induction (P := fun v => v = .null ∨ Keeps cat _ v) (.inl rfl) ?_
    exact fun t => .inr ⟨.dateTime zoneUri t, .scalar _⟩
  | composite l =>
    obtain ⟨c, rfl, hc, hdecode⟩ := decode_composite cat session property l existing
    have hheld : (Shape.composite c.layout).Keeps cat (.composite c) := by
      rcases hc with hnew | hheld
      · rw [hnew]
        exact ⟨.composite (Composite.new_fits cat c.layout), .composite c.layout⟩
      · exact hexisting _ hheld
    rw [hdecode, Progress.state_map]
    refine .inr (hheld.composite hU hshape ?_)
    exact ⟨c.layout_load session site, hheld.made.read session site⟩
  | collection l element =>
    obtain ⟨c, rfl, hc, hdecode⟩ := decode_collection cat session property l element existing
    have hheld : (Shape.collection c.layout element).Keeps cat (.collection c) := by
      rcases hc with hnew | hheld
      · rw [hnew]
        exact keeps_emptyValue rfl
      · exact hexisting _ hheld
    rw [hdecode, Progress.state_map]
    refine .inr (hheld.collection hU hshape ?_)
    exact ⟨c.layout_load session site.content, c.element_load session site.content,
      hheld.made.refill session site.content⟩
  | indexed key inner ih =>
    have hinner : ∀ v, existing = some v → inner.Keeps cat v := by
      intro v hv
      obtain ⟨hholds, hmade⟩ := hexisting v hv
      cases hholds with
      | indexed _ held => exact ⟨held, hmade⟩
    exact (ih ⟨hshape.codec, hshape.layout⟩ site hinner).imp_right
      fun h => ⟨.indexed key h.holds, h.made⟩
  | contained wrapper inner ih =>
    have hinner : ∀ v, existing = some v → inner.Keeps cat v := by
      intro v hv
      obtain ⟨hholds, hmade⟩ := hexisting v hv
      cases hholds with
      | contained _ held => exact ⟨held, hmade⟩
    refine decode_contained_induction (P := fun v => v = .null ∨ Keeps cat _ v)
      (Q := fun existing => ∀ v, existing = some v → inner.Keeps cat v) (.inl rfl) ?_ hinner ?_
    · exact fun v hv => by cases hv
    · intro site existing hexisting
      exact (ih ⟨hshape.codec, hshape.layout⟩ site hexisting).imp_right
        fun h => ⟨.contained wrapper h.holds, h.made⟩

end ObjectTracking.Shape
