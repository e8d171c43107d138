import ObjectTracking.Proofs.Composite.FitsIn
import ObjectTracking.Proofs.Property
/-!
The values that a property comes to hold, by assigning, by creating on read and by editing.
-/
set_option autoImplicit false

namespace ObjectTracking

namespace Shape

/-- The values of a shape, in the form in which they are stored. -/
inductive Holds (cat : Catalog) : Shape → Value → Prop where
  | scalar {codec : Codec} {s : Scalar} (stored : codec.Stores s) :
      Holds cat (.scalar codec) (.scalar s)
  | dateTime (zoneUri : Option String) (t : Time.WallClock) :
      Holds cat (.dateTime zoneUri) (.scalar (.dateTime t))
  | composite {c : Composite} (fits : c.Fits cat) : Holds cat (.composite c.layout) (.composite c)
  | collection {c : Collection} (fits : c.Fits cat) :
      Holds cat (.collection c.layout c.element) (.collection c)
  | indexed (key : String) {inner : Shape} {v : Value} (held : Holds cat inner v) :
      Holds cat (.indexed key inner) v
  | contained (wrapper : String) {inner : Shape} {v : Value} (held : Holds cat inner v) :
      Holds cat (.contained wrapper inner) v

variable {cat : Catalog} {shape : Shape} {v v' : Value}

theorem Holds.of_innermost (h : shape.innermost.Holds cat v) : shape.Holds cat v := by
  induction shape with
  | indexed key inner ih => exact .indexed key (ih h)
  | contained wrapper inner ih => exact .contained wrapper (ih h)
  | _ => exact h

theorem Holds.not_null (h : shape.Holds cat v) : v.isNull = false := by
  induction h with
  | indexed key held ih => exact ih
  | contained wrapper held ih => exact ih
  | _ => rfl

theorem holds_composite_iff {c : Composite} : shape.Holds cat (.composite c) ↔
    shape.innermost = .composite c.layout ∧ c.Fits cat := by
  constructor
  · generalize hv : Value.composite c = v
    intro h
    induction h with
    | composite fits =>
      cases hv
      exact ⟨rfl, fits⟩
    | indexed key held ih => exact ih hv
    | contained wrapper held ih => exact ih hv
    | _ => cases hv
  · rintro ⟨hshape, hfits⟩
    apply Holds.of_innermost
    rw [hshape]
    exact .composite hfits

theorem holds_collection_iff {c : Collection} : shape.Holds cat (.collection c) ↔
    shape.innermost = .collection c.layout c.element ∧ c.Fits cat := by
  constructor
  · generalize hv : Value.collection c = v
    intro h
    induction h with
    | collection fits =>
      cases hv
      exact ⟨rfl, fits⟩
    | indexed key held ih => exact ih hv
    | contained wrapper held ih => exact ih hv
    | _ => cases hv
  · rintro ⟨hshape, hfits⟩
    apply Holds.of_innermost
    rw [hshape]
    exact .collection hfits

theorem emptyValue_holds (h : (shape.emptyValue cat).isNull = false) :
    shape.Holds cat (shape.emptyValue cat) := by
  apply Holds.of_innermost
  unfold emptyValue at h ⊢
  split
  · rename_i l hl
    rw [hl]
    exact .composite (Composite.new_fits cat l)
  · rename_i l element hl
    rw [hl]
    exact .collection (c := Collection.new l element) fun e he => by cases he
  · simp [Value.isNull] at h

theorem Takes.holds {property : String} (h : shape.Takes property v v') (hv : v.Fits cat) :
    shape.Holds cat v' := by
  cases h with
  | scalar normal => exact .scalar (Codec.normalise_stores normal)
  | dateTime zoneUri t => exact .dateTime zoneUri t
  | composite c => exact .composite hv
  | collection c => exact .collection hv

theorem Holds.attach (h : shape.Holds cat v) (k : Link) : shape.Holds cat (v.attach k) := by
  cases v with
  | composite c =>
    obtain ⟨hshape, hfits⟩ := holds_composite_iff.mp h
    rw [← Composite.layout_attach (some k) c] at hshape
    exact holds_composite_iff.mpr ⟨hshape, hfits.attach k⟩
  | collection c =>
    obtain ⟨hshape, hfits⟩ := holds_collection_iff.mp h
    exact holds_collection_iff.mpr ⟨hshape, hfits.attach k⟩
  | _ => exact h

def layout? (shape : Shape) : Option LayoutId :=
  match shape.innermost with
  | composite l => some l
  | collection l _ => some l
  | _ => none

theorem Takes.layout? {property : String} (h : shape.innermost.Takes property v v') :
    v.layout? = shape.layout? := by
  unfold Shape.layout?
  generalize shape.innermost = inner at h ⊢
  cases h <;> rfl

section Closed
variable {U : LayoutId → Prop}

theorem Holds.replace_composite {c c' : Composite} (h : shape.Holds cat (.composite c))
    (hU : cat.Closed U) (hl : ∀ l, shape.layout? = some l → U l)
    (hc : c.FitsIn cat U → c.Replaces cat U c') : shape.Holds cat (.composite c') := by
  obtain ⟨hshape, hfits⟩ := holds_composite_iff.mp h
  have hl : U c.layout := hl c.layout (by rw [layout?, hshape])
  obtain ⟨hlayout, hfits'⟩ := hc (hfits.fitsIn hU hl)
  rw [← hlayout] at hshape hl
  exact holds_composite_iff.mpr ⟨hshape, hfits'.fits hl⟩

theorem Holds.replace_collection {c c' : Collection} (h : shape.Holds cat (.collection c))
    (hU : cat.Closed U) (hl : ∀ l, shape.layout? = some l → U l)
    (hc : c.FitsIn cat U → c.Replaces cat U c') : shape.Holds cat (.collection c') := by
  obtain ⟨hshape, hfits⟩ := holds_collection_iff.mp h
  have hl : U c.layout := hl c.layout (by rw [layout?, hshape])
  obtain ⟨hlayout, helement, hfits'⟩ := hc (hfits.fitsIn hU hl)
  rw [← helement, ← hlayout] at hshape
  exact holds_collection_iff.mpr ⟨hshape, hfits'.fits (hlayout ▸ hl)⟩

/-- An edit that brings in a composite that fits, or none, leaves a value of the shape. -/
theorem Holds.perform {edit : ValueEdit} {r : Edited Value Unit} (h : shape.Holds cat v)
    (hU : cat.Closed U) (hl : ∀ l, shape.layout? = some l → U l)
    (hedit : ∀ n, edit.assigned? = some n → n.FitsIn cat U) (hr : v.perform cat edit = some r) :
    shape.Holds cat r.state := by
  cases edit with
  | composite edit =>
    cases v with
    | composite c =>
      cases hr
      exact h.replace_composite hU hl fun hc => hc.perform hU hedit
    | _ => cases hr
  | collection edit =>
    cases v with
    | collection c =>
      cases hr
      exact h.replace_collection hU hl fun hc => hc.perform hU hedit
    | _ => cases hr

end Closed

end Shape

end ObjectTracking
