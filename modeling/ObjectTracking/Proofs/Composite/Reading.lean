import ObjectTracking.Proofs.Composite.FitsIn
import ObjectTracking.Proofs.Composite.Loading
import ObjectTracking.Proofs.Layout
/-!
Reading makes composites that fit, whatever stands in the document and wherever reading stops.
-/
set_option autoImplicit false

namespace ObjectTracking
open Markup

/-- Some layouts have only fields whose codecs write what they read, and nested values of each
other. -/
structure Catalog.Consistent (cat : Catalog) (U : LayoutId → Prop) : Prop where
  closed : cat.Closed U
  codecs : ∀ l, U l → ∀ f ∈ (cat.layout l).fields, ∀ codec, f.kind = .scalar codec → codec.Consistent

variable {cat : Catalog} {U : LayoutId → Prop} {c : Composite}

theorem Catalog.WellFormed.consistent (hcat : cat.WellFormed) : cat.Consistent fun _ => True :=
  ⟨cat.closed_true, fun l _ f hf codec hkind => ((hcat l).codecs f hf codec hkind).consistent⟩

namespace Composite

theorem fitsIn_keptByReading (hU : cat.Consistent U) :
    KeptByReading cat fun l c => c.layout = l ∧ c.FitsIn cat U := by
  refine ⟨And.left, fun l => ⟨rfl, fitsIn_new cat U l⟩, ?_, ?_⟩
  · rintro l c ix f codec s name text strict ⟨rfl, hc⟩ hf hkind hread
    have hholds : U c.layout → f.Holds (.ofScalar? s) := by
      intro hl
      cases s with
      | none => trivial
      | some s =>
        have hcodec := hU.codecs c.layout hl f (List.mem_of_getElem? hf) codec hkind
        exact ⟨codec, hkind, Codec.parse_stores hcodec hread⟩
    have hstored : (Field.ofScalar? s).FitsIn cat U := by
      cases s <;> trivial
    have hset := hc.setAt hU.closed (fun hl => ⟨f, hf, hholds hl⟩) hstored
    exact ⟨hset.layout, hset.fits⟩
  · rintro l c ix f n ⟨rfl, hc⟩ hf inner hkind ⟨rfl, hn⟩
    have hset := hc.setAt (v := .nested n) hU.closed (fun _ => ⟨f, hf, hkind⟩) hn
    exact ⟨hset.layout, hset.fits⟩

/-- Reading into a composite that fits keeps it so. -/
theorem FitsIn.load (h : c.FitsIn cat U) (hU : cat.Consistent U) (session : Session) (site : Site) :
    c.Replaces cat U (c.load cat session site).state := by
  obtain ⟨hlayout, hfits⟩ := (fitsIn_keptByReading hU).load ⟨rfl, h⟩ session site
  exact ⟨hlayout, hfits⟩

end Composite

/-- All items that are read into a collection fit. -/
theorem Collection.replaces_load (hU : cat.Consistent U) (session : Session) (content : Forest)
    (c : Collection) : c.Replaces cat U (c.load cat session content).state := by
  obtain ⟨hlayout, -, hentries⟩ :=
    (Composite.fitsIn_keptByReading hU).entries session content c
  refine ⟨hlayout, c.element_load session content, ?_⟩
  intro e he
  obtain ⟨item, ⟨hitem, hfits⟩, hvalue⟩ := hentries e he
  rw [hlayout, hvalue]
  exact ⟨(Composite.layout_attach c.link item).trans hitem, Composite.fitsIn_attach c.link item hfits⟩

end ObjectTracking
