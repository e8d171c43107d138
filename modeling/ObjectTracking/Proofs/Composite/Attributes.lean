import ObjectTracking.Composite.Markup
import ObjectTracking.Proofs.Composite.Fits
import ObjectTracking.Proofs.Layout
import ObjectTracking.Proofs.Markup.Walk
import ObjectTracking.Proofs.Markup.Writing
/-!
The attributes of a composite, written and read again. They are read first, so that the other fields
are still unset then.
-/
set_option autoImplicit false

namespace ObjectTracking
open Markup

namespace LayoutField

def attribute? (f : LayoutField) (v : Field) : Option (String × String) :=
  match f.placement, f.kind, v with
  | .attr, .scalar codec, .scalar s => (codec.text? s).map (f.name, ·)
  | _, _, _ => none

def attributes : List LayoutField → List Field → List (String × String)
  | f :: fs, v :: vs => (f.attribute? v).toList ++ attributes fs vs
  | _, _ => []

def staged (f : LayoutField) (v : Field) : Field := if f.placement = .attr then v else .unset

variable {cat : Catalog} {f : LayoutField} {v : Field} {fs : List LayoutField} {vs : List Field}
  {P : LayoutField → Field → Prop}

theorem attribute?_eq_some {a : String × String} (h : f.attribute? v = some a) :
    f.placement = .attr ∧ a.1 = f.name := by
  unfold attribute? at h
  split at h
  · rename_i hplacement _
    obtain ⟨text, _, rfl⟩ := Option.map_eq_some_iff.mp h
    exact ⟨hplacement, rfl⟩
  · cases h

theorem mem_attributes {a : String × String} (h : a ∈ attributes fs vs) :
    ∃ f ∈ fs, f.placement = .attr ∧ f.name = a.1 := by
  induction fs generalizing vs with
  | nil => cases h
  | cons f fs ih =>
    cases vs with
    | nil => cases h
    | cons v vs =>
      rw [attributes, List.mem_append, Option.mem_toList] at h
      rcases h with h | h
      · obtain ⟨hplacement, hname⟩ := attribute?_eq_some h
        exact ⟨f, List.mem_cons_self, hplacement, hname.symm⟩
      · obtain ⟨g, hg, hattr⟩ := ih h
        exact ⟨g, List.mem_cons_of_mem f hg, hattr⟩

theorem attributes_sublist (fs : List LayoutField) (vs : List Field) :
    ((attributes fs vs).map Prod.fst).Sublist (fs.map LayoutField.name) := by
  induction fs generalizing vs with
  | nil => exact List.Sublist.slnil
  | cons f fs ih =>
    cases vs with
    | nil => exact List.nil_sublist _
    | cons v vs =>
      rw [attributes, List.map_append]
      cases h : f.attribute? v with
      | none => exact (ih vs).cons _
      | some a =>
        rw [List.map_cons, ← (attribute?_eq_some h).2]
        exact (ih vs).cons_cons _

theorem encodeAttribute_eq (hv : f.Holds v) : f.encodeAttribute v =
    .ofCalls (attributeCalls (f.attribute? v).toList) := by
  unfold encodeAttribute attribute?
  obtain ⟨name, placement, kind⟩ := f
  cases placement <;> cases kind <;> try rfl
  rename_i codec
  cases v with
  | unset => rfl
  | nested c => cases hv
  | scalar s =>
    obtain ⟨codec', hkind, hstores⟩ := hv
    cases hkind
    obtain ⟨text, htext⟩ := hstores.text?
    simp only [htext]
    rfl

theorem encodeAttributes_eq (h : Field.EachOf cat Holds fs vs) : encodeAttributes fs vs =
    .ofCalls (attributeCalls (attributes fs vs)) := by
  induction fs generalizing vs with
  | nil => rfl
  | cons f fs ih =>
    cases vs with
    | nil => rfl
    | cons v vs =>
      rw [encodeAttributes, encodeAttribute_eq h.1, ih h.2.2, Encoding.ofCalls_append]
      simp [attributes, attributeCalls]

/-- Among the attributes of a layout with distinct names each field finds its own. -/
theorem lookup_attributes (hdistinct : (fs.map name).Nodup) :
    ∀ p ∈ fs.zip vs, (attributes fs vs).lookup p.1.name = (p.1.attribute? p.2).map Prod.snd := by
  induction fs generalizing vs with
  | nil => simp
  | cons f fs ih =>
    cases vs with
    | nil => simp
    | cons v vs =>
      rw [List.map_cons, List.nodup_cons] at hdistinct
      obtain ⟨hfresh, hdistinct⟩ := hdistinct
      have hnames : ∀ a ∈ attributes fs vs, a.1 ≠ f.name := by
        intro a ha heq
        obtain ⟨g, hg, _, hname⟩ := mem_attributes ha
        exact hfresh (List.mem_map.mpr ⟨g, hg, hname.trans heq⟩)
      intro p hp
      rw [List.zip_cons_cons, List.mem_cons] at hp
      rw [attributes]
      rcases hp with rfl | hp
      · cases h : f.attribute? v with
        | none =>
          rw [Option.toList_none, List.nil_append, Option.map_none, List.lookup_eq_none_iff]
          intro a ha
          simpa using Ne.symm (hnames a ha)
        | some a =>
          obtain ⟨name, text⟩ := a
          obtain rfl : name = f.name := (attribute?_eq_some h).2
          simp
      · have hne : p.1.name ≠ f.name := by
          intro heq
          exact hfresh (List.mem_map.mpr ⟨p.1, (List.of_mem_zip hp).1, heq⟩)
        rw [← ih hdistinct p hp]
        cases h : f.attribute? v with
        | none => rfl
        | some a =>
          obtain ⟨name, text⟩ := a
          obtain rfl : name = f.name := (attribute?_eq_some h).2
          have hskip : (p.1.name == f.name) = false := by simpa using hne
          simp [List.lookup_cons, hskip]

end LayoutField

namespace Composite

theorem storeText_eq {codec : Codec} {s : Scalar} {text : String} (hcodec : codec.Faithful)
    (hs : codec.Stores s) (htext : codec.text? s = some text) (session : Session) (ix : Nat)
    (name : String) (c : Composite) :
    c.storeText session ix name codec text = .done (c.setAt ix (.scalar s)) := by
  rw [storeText, Codec.parse_text? hcodec hs htext]
  rfl

theorem setAt_append (l : LayoutId) (k : Option Link) (pre post : List Field) (v v' : Field) :
    (mk l k (pre ++ v :: post)).setAt pre.length v' = mk l k (pre ++ v' :: post) := by
  simp [setAt, withFields, layout, link, fields]

variable {cat : Catalog} {fs : List LayoutField} {vs : List Field}

theorem loadAttributes_cons (session : Session) {tag : Tag} {f : LayoutField} {v : Field}
    (hcodecs : ∀ codec, f.kind = .scalar codec → codec.Faithful)
    (hnested : ∀ inner, f.kind = .nested inner → f.placement = .element) (hv : f.Holds v)
    (htag : f.placement = .attr → tag.attribute? f.name = (f.attribute? v).map Prod.snd)
    (fs : List LayoutField) (l : LayoutId) (k : Option Link) (pre post : List Field) :
    loadAttributes session (some tag) pre.length (f :: fs) (mk l k (pre ++ Field.unset :: post)) =
      loadAttributes session (some tag) (pre.length + 1) fs
        (mk l k (pre ++ f.staged v :: post)) := by
  rw [loadAttributes, Option.bind_some]
  obtain ⟨name, placement, kind⟩ := f
  cases placement with
  | element => rfl
  | text => rfl
  | attr =>
    cases kind with
    | nested inner => cases hnested inner rfl
    | scalar codec =>
      rw [htag rfl]
      cases v with
      | unset => rfl
      | nested c => cases hv
      | scalar s =>
        obtain ⟨codec', hkind, hstores⟩ := hv
        cases hkind
        obtain ⟨text, htext⟩ := hstores.text?
        have hattribute : LayoutField.attribute? ⟨name, .attr, .scalar codec⟩ (.scalar s) =
            some (name, text) := by simp [LayoutField.attribute?, htext]
        rw [hattribute]
        simp only [Option.map_some]
        rw [storeText_eq (hcodecs codec rfl) hstores htext, setAt_append, Progress.andThen_done]
        rfl

theorem loadAttributes_eq (session : Session) {tag : Tag} (l : LayoutId) (k : Option Link)
    (hcodecs : ∀ f ∈ fs, ∀ codec, f.kind = .scalar codec → codec.Faithful)
    (hnested : ∀ f ∈ fs, ∀ inner, f.kind = .nested inner → f.placement = .element)
    (hfits : Field.EachOf cat LayoutField.Holds fs vs)
    (htag : ∀ p ∈ fs.zip vs, p.1.placement = .attr →
      tag.attribute? p.1.name = (p.1.attribute? p.2).map Prod.snd) (pre : List Field) :
    loadAttributes session (some tag) pre.length fs
        (mk l k (pre ++ fs.map fun _ => .unset)) =
      .done (mk l k (pre ++ List.zipWith LayoutField.staged fs vs)) := by
  induction fs generalizing vs pre with
  | nil =>
    cases vs with
    | nil => rfl
    | cons v vs => cases hfits
  | cons f fs ih =>
    cases vs with
    | nil => cases hfits
    | cons v vs =>
      have hrest := ih (fun g hg => hcodecs g (List.mem_cons_of_mem f hg))
        (fun g hg => hnested g (List.mem_cons_of_mem f hg)) hfits.2.2
        (fun p hp => htag p (List.mem_cons_of_mem (f, v) hp)) (pre ++ [f.staged v])
      rw [List.map_cons, loadAttributes_cons session (hcodecs f List.mem_cons_self)
        (hnested f List.mem_cons_self) hfits.1 (htag (f, v) List.mem_cons_self)]
      simpa using hrest

end Composite

end ObjectTracking
