import Mathlib.Data.List.Nodup
import ObjectTracking.Proofs.Property.Refreshed
/-!
How elements merge into the composite that is held of a property. Each field holds what the last
mention of it says, and what it held before if there is none. A text is a mention of every text field,
but only the first of them takes it.
-/
set_option autoImplicit false

namespace ObjectTracking
open Markup

/-- What the element of a composite says of a field, each time it mentions it, in the order in which
it is read. -/
def LayoutField.mentions (cat : Catalog) (session : Session) (f : LayoutField) (site : Site) :
    List (Option Field) :=
  match f.placement with
  | .attr => f.saidByAttribute session site.tag?
  | .element =>
    (site.content.elements.filter (·.1.name = f.name)).map fun x =>
      f.told? cat session ⟨some x.1, x.2⟩
  | .text => f.saidByText cat session site

namespace Layout
variable {l : Layout} {f : LayoutField} {ix : Nat}

/-- No field is a child element if there is a text field. -/
def Unmixed (l : Layout) : Prop :=
  ∀ f ∈ l.fields, f.placement = .text → ∀ g ∈ l.fields, g.placement ≠ .element

theorem placement_of_textPosition? (h : l.textPosition? = some ix) (hf : l.fields[ix]? = some f) :
    f.placement = .text := by
  obtain ⟨hlt, hplacement, -⟩ := List.findIdx?_eq_some_iff_getElem.mp h
  obtain rfl : l.fields[ix] = f := Option.some.inj ((List.getElem?_eq_getElem hlt).symm.trans hf)
  simpa using hplacement

theorem textPosition?_eq_none_iff : l.textPosition? = none ↔ ∀ f ∈ l.fields, f.placement ≠ .text := by
  rw [textPosition?, List.findIdx?_eq_none_iff]
  simp

theorem elementPosition?_eq_some_iff (hdistinct : (l.fields.map LayoutField.name).Nodup)
    (hf : l.fields[ix]? = some f) {name : String} :
    l.elementPosition? name = some ix ↔ f.placement = .element ∧ name = f.name := by
  obtain ⟨hlt, rfl⟩ := List.getElem?_eq_some_iff.mp hf
  constructor
  · intro h
    obtain ⟨_, hfound, -⟩ := List.findIdx?_eq_some_iff_getElem.mp h
    simp only [Bool.and_eq_true, beq_iff_eq] at hfound
    exact ⟨hfound.1, hfound.2.symm⟩
  · rintro ⟨hplacement, rfl⟩
    refine List.findIdx?_eq_some_iff_getElem.mpr ⟨hlt, by simp [hplacement], ?_⟩
    intro n hn hfound
    simp only [Bool.and_eq_true, beq_iff_eq] at hfound
    have hne := List.nodup_iff_getElem?_ne_getElem?.mp hdistinct n ix hn (by simpa using hlt)
    rw [List.getElem?_map, List.getElem?_map, List.getElem?_eq_getElem (Nat.lt_trans hn hlt), hf] at hne
    exact hne (congrArg some hfound.2)

/-- Every mention of a field is heeded, but for those of text fields other than the first. -/
theorem said_eq (hdistinct : (l.fields.map LayoutField.name).Nodup) (hunmixed : l.Unmixed)
    (hf : l.fields[ix]? = some f) (cat : Catalog) (session : Session) (site : Site) :
    l.said cat session site ix =
      if f.placement = .text ∧ l.textPosition? ≠ some ix then [] else f.mentions cat session site := by
  have hmem := List.mem_of_getElem? hf
  unfold said LayoutField.mentions
  rw [hf]
  cases hplacement : f.placement with
  | attr =>
    have hattr : ∀ n, l.textPosition? = some n → n ≠ ix := by
      rintro n hn rfl
      rw [placement_of_textPosition? hn hf] at hplacement
      cases hplacement
    cases htext : l.textPosition? with
    | some n => simp [hattr n htext]
    | none => simp [elementPosition?_eq_some_iff hdistinct hf, hplacement]
  | element =>
    have hnone : l.textPosition? = none :=
      textPosition?_eq_none_iff.mpr fun g hg htext => hunmixed g hg htext f hmem hplacement
    simp [hnone, LayoutField.saidByAttribute, hplacement, elementPosition?_eq_some_iff hdistinct hf]
  | text =>
    have hsome : l.textPosition? ≠ none :=
      fun hnone => textPosition?_eq_none_iff.mp hnone f hmem hplacement
    obtain ⟨n, hn⟩ := Option.ne_none_iff_exists'.mp hsome
    by_cases hfirst : n = ix
    · simp [hn, hfirst, LayoutField.saidByAttribute, hplacement]
    · simp [hn, hfirst, LayoutField.saidByAttribute, hplacement]

end Layout

namespace Shape
variable {cat : Catalog} {session : Session} {property : String} {l : LayoutId} {shape : Shape}
  {x y : Tag × Forest}

/-- The element whose content a nested value is, if there is exactly one of every wrapper on the way
to it. -/
def bare? : Shape → Tag × Forest → Option (Tag × Forest)
  | contained wrapper inner, x =>
    match wrappers wrapper x.2 with
    | [y] => inner.bare? y
    | _ => none
  | indexed _ inner, x => inner.bare? x
  | _, x => some x

/-- Unless something in the wrappers cannot be passed over, the composite that is held is read from its
own element. -/
theorem outcome_bare? (h : shape.innermost = .composite l) (hy : shape.bare? x = some y)
    (cat : Catalog) (session : Session) (property : String) : ∃ passes : Bool, ∀ held,
      shape.outcome cat session property x held = if passes then
        ((Composite.readInto cat l held).load cat session ⟨some y.1, y.2⟩).finished?.map .composite
      else none := by
  induction shape generalizing x with
  | scalar codec => cases h
  | dateTime zoneUri => cases h
  | collection l' element => cases h
  | composite l' =>
    obtain rfl : l' = l := by cases h; rfl
    obtain rfl : x = y := Option.some.inj hy
    exact ⟨true, fun held => Progress.finished?_map _ _⟩
  | indexed key inner ih => exact ih h hy
  | contained wrapper inner ih =>
    obtain ⟨passes, houtcome⟩ := outcome_contained cat session property wrapper inner x
    simp only [bare?] at hy
    split at hy
    · rename_i z hz
      obtain ⟨passes', hinner⟩ := ih h hy
      refine ⟨passes && passes', ?_⟩
      intro held
      rw [houtcome, hz]
      cases passes with
      | false => rfl
      | true =>
        simp only [if_true, unwrap, Option.bind_fun_some, Bool.true_and]
        exact hinner held
    · cases hy

end Shape

namespace Property
variable {q : Property} {cat : Catalog} {session : Session} {link : Link} {l : LayoutId}
  {xs ys : List (Tag × Forest)} {held held' : Option Value}

/-- What a field of the composite that is held has in it, as far as one is held. Its links are those of
the slot. -/
def heldField (cat : Catalog) (link : Link) (l : LayoutId) (held : Option Value) (ix : Nat) :
    Option Field :=
  ((Composite.readInto cat l held).attach link).fields[ix]?

/-- What reading elements one after the other makes of the composite that is held. -/
structure ReadsAll (cat : Catalog) (session : Session) (link : Link) (l : LayoutId)
    (ys : List (Tag × Forest)) (told : Nat → List Field) (held held' : Option Value) : Prop where
  said : ∀ ix, (ys.flatMap fun y => (cat.layout l).said cat session ⟨some y.1, y.2⟩ ix) =
    (told ix).map some
  overwritten : Composite.Overwritten (fun ix => (told ix).map (Field.attach link))
    ((Composite.readInto cat l held).attach link) ((Composite.readInto cat l held').attach link)
  composite : ys ≠ [] → ∃ c, held' = some (.composite c) ∧ c.layout = l ∧ c.attach link = c
  kept : ys = [] → held' = held

theorem readAll_merges (hl : q.shape.innermost = .composite l)
    (hreuse : q.has .reuseInstance session.version = true) (hys : xs.mapM q.shape.bare? = some ys)
    (h : q.readAll cat session link xs held = some held') :
    ∃ told, ReadsAll cat session link l ys told held held' := by
  induction xs generalizing ys held with
  | nil =>
    obtain rfl := Option.some.inj hys
    obtain rfl := Option.some.inj h
    exact ⟨fun _ => [], fun _ => rfl, .refl _, fun hne => absurd rfl hne, fun _ => rfl⟩
  | cons x xs ih =>
    rw [List.mapM_cons] at hys
    obtain ⟨y, hy, hys⟩ := Option.bind_eq_some_iff.mp hys
    obtain ⟨ys, hrest, hys⟩ := Option.bind_eq_some_iff.mp hys
    obtain rfl := Option.some.inj hys
    obtain ⟨w, hw, hread⟩ := Option.bind_eq_some_iff.mp h
    obtain ⟨passes, houtcome⟩ := q.shape.outcome_bare? hl hy cat session q.name
    simp only [readOver, hreuse, if_true, houtcome] at hw
    obtain ⟨v, hv, rfl⟩ := Option.map_eq_some_iff.mp hw
    obtain ⟨-, hv⟩ := Option.ite_none_right_eq_some.mp hv
    obtain ⟨c, hc, rfl⟩ := Option.map_eq_some_iff.mp hv
    obtain ⟨told, hsaid, ho⟩ := (Composite.merges_load cat session l _).told _ c
      (Composite.layout_readInto ..) hc
    have hlayout : (c.attach link).layout = l := by
      rw [Composite.layout_attach, ho.layout, Composite.layout_readInto]
    obtain ⟨told', hrest⟩ := ih hrest hread
    have ho' := hrest.overwritten
    have hinto : (Composite.readInto cat l (store link (.composite c))).attach link =
        c.attach link := by
      change (Composite.readInto cat l (some (.composite (c.attach link)))).attach link = _
      rw [Composite.readInto_of_layout hlayout, Composite.attach_attach]
    rw [hinto] at ho'
    refine ⟨fun ix => told ix ++ told' ix, ?_, ?_, ?_, by simp⟩
    · intro ix
      rw [List.flatMap_cons, hsaid, hrest.said, List.map_append]
    · simpa only [List.map_append] using (ho.attach link).trans ho'
    · intro _
      by_cases hnil : ys = []
      · rw [hrest.kept hnil]
        exact ⟨c.attach link, rfl, hlayout, Composite.attach_attach _ _ c⟩
      · exact hrest.composite hnil

end Property

end ObjectTracking
