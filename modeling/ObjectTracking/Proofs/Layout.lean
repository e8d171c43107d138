import Mathlib.Data.List.Nodup
import ObjectTracking.Proofs.Markup.Content
import ObjectTracking.Proofs.Scalar.Codec
import ObjectTracking.Layout
/-!
Layouts whose values can be told apart in XML, and where their fields are found.
-/
set_option autoImplicit false

namespace ObjectTracking
open Markup

namespace LayoutField

def WellFormed (f : LayoutField) : Prop :=
  IsName f.name ∧ (f.placement = .attr → f.name ≠ "xmlns") ∧
    match f.kind with
    | .scalar codec => codec.Faithful
    | .nested _ => f.placement = .element

instance : DecidablePred WellFormed
  | ⟨name, placement, .scalar codec⟩ => inferInstanceAs
      (Decidable (IsName name ∧ (placement = .attr → name ≠ "xmlns") ∧ codec.Faithful))
  | ⟨name, placement, .nested _⟩ => inferInstanceAs
      (Decidable (IsName name ∧ (placement = .attr → name ≠ "xmlns") ∧ placement = .element))

end LayoutField

namespace Layout

/-- A layout whose values are read again from what is written for them. -/
structure WellFormed (l : Layout) : Prop where
  names : ∀ f ∈ l.fields, IsName f.name
  distinct : (l.fields.map LayoutField.name).Nodup
  /-- No attribute declares a namespace. -/
  attributes : ∀ f ∈ l.fields, f.placement = .attr → f.name ≠ "xmlns"
  /-- Beside a text there are only attributes. -/
  text : ∀ f ∈ l.fields, f.placement = .text → ∀ g ∈ l.fields, g.placement ≠ .attr → g = f
  codecs : ∀ f ∈ l.fields, ∀ codec, f.kind = .scalar codec → codec.Faithful
  /-- Nested values are child elements. -/
  nested : ∀ f ∈ l.fields, ∀ inner, f.kind = .nested inner → f.placement = .element

/-- Fields that are well formed each by itself make a well-formed layout if they are told from each
other by their names. -/
theorem wellFormed_of_fields {l : Layout} (hfields : ∀ f ∈ l.fields, f.WellFormed)
    (hdistinct : (l.fields.map LayoutField.name).Nodup)
    (htext : ∀ f ∈ l.fields, f.placement = .text → ∀ g ∈ l.fields, g.placement ≠ .attr →
      g.name = f.name) : l.WellFormed := by
  refine ⟨fun f hf => (hfields f hf).1, hdistinct, fun f hf => (hfields f hf).2.1, ?_, ?_, ?_⟩
  · intro f hf hplacement g hg hattr
    exact List.inj_on_of_nodup_map hdistinct hg hf (htext f hf hplacement g hg hattr)
  · intro f hf codec hkind
    simpa [hkind] using (hfields f hf).2.2
  · intro f hf inner hkind
    simpa [hkind] using (hfields f hf).2.2

variable {l : Layout} {before after : List LayoutField} {f : LayoutField}

theorem textPosition?_eq_none (h : ∀ f ∈ l.fields, f.placement ≠ .text) : l.textPosition? = none := by
  rw [textPosition?, List.findIdx?_eq_none_iff]
  intro f hf
  simpa using h f hf

theorem findIdx?_append_of_first {α : Type} {p : α → Bool} {xs ys : List α} {x : α}
    (hxs : ∀ y ∈ xs, p y = false) (hx : p x = true) :
    (xs ++ x :: ys).findIdx? p = some xs.length := by
  induction xs with
  | nil => simp [List.findIdx?_cons, hx]
  | cons y xs ih =>
    rw [List.cons_append, List.findIdx?_cons, hxs y List.mem_cons_self,
      ih fun z hz => hxs z (List.mem_cons_of_mem y hz)]
    simp

theorem textPosition?_eq_some (hfields : l.fields = before ++ f :: after)
    (hbefore : ∀ g ∈ before, g.placement = .attr) (hf : f.placement = .text) :
    l.textPosition? = some before.length := by
  rw [textPosition?, hfields]
  refine findIdx?_append_of_first ?_ (by simp [hf])
  intro g hg
  simp [hbefore g hg]

theorem WellFormed.beside_text (hl : l.WellFormed) (hfields : l.fields = before ++ f :: after)
    (hf : f.placement = .text) : ∀ g ∈ before ++ after, g.placement = .attr := by
  intro g hg
  have hmem : ∀ h ∈ f :: (before ++ after), h ∈ l.fields := by
    intro h hh
    rw [hfields]
    exact List.perm_middle.mem_iff.mpr hh
  by_cases hattr : g.placement = .attr
  · exact hattr
  · obtain rfl := hl.text f (hmem f List.mem_cons_self) hf g (hmem g (List.mem_cons_of_mem f hg)) hattr
    have hdistinct : (before ++ g :: after).Nodup := by
      rw [← hfields]
      exact List.Nodup.of_map LayoutField.name hl.distinct
    exact absurd hg (List.nodup_cons.mp (List.nodup_middle.mp hdistinct)).1

theorem elementPosition?_eq_some (hl : l.WellFormed) (hfields : l.fields = before ++ f :: after)
    (hf : f.placement = .element) : l.elementPosition? f.name = some before.length := by
  have hdistinct := hl.distinct
  rw [hfields, List.map_append, List.map_cons] at hdistinct
  rw [elementPosition?, hfields]
  refine findIdx?_append_of_first ?_ (by simp [hf])
  intro g hg
  have hne : g.name ≠ f.name := by
    intro heq
    have hdisjoint := (List.nodup_append.mp hdistinct).2.2
    exact hdisjoint g.name (List.mem_map_of_mem hg) f.name List.mem_cons_self heq
  simp [hne]

end Layout

def Catalog.WellFormed (cat : Catalog) : Prop := ∀ l, (cat.layout l).WellFormed

end ObjectTracking
