import ObjectTracking.Property.Content
import ObjectTracking.Proofs.Markup.Walk
/-!
What is read as a value: what a text gives, and what the wrappers of a shape add to that.
-/
set_option autoImplicit false

namespace ObjectTracking
open Markup

variable {property text : String} {v : Value}

theorem Codec.of_parseValue {codec : Codec} {strict : Bool}
    (h : (codec.parseValue property text strict).1 = .ok v) :
    ∃ s, (codec.parse property text strict).1 = .ok s ∧ v = .ofScalar? s := by
  unfold parseValue at h
  dsimp only at h
  cases hr : (codec.parse property text strict).1 with
  | error e => simp [hr, Except.map] at h
  | ok s =>
    simp only [hr, Except.map, Except.ok.injEq] at h
    exact ⟨s, rfl, h.symm⟩

theorem Scoping.of_decode {zone : Time.Offset} (h : decode property text zone = .ok v) :
    v = .null ∨ ∃ t, v = .scalar (.dateTime t) := by
  unfold decode at h
  dsimp only at h
  split at h
  · cases h
    exact .inl rfl
  · split at h
    · rename_i t _
      cases h
      exact .inr ⟨t, rfl⟩
    · cases h

namespace Shape
variable {P : Value → Prop}

theorem readText_induction {site : Site} {parse : String → Except Fault Value × List Report}
    (hnull : P .null) (h : ∀ s v, (parse s).1 = .ok v → P v) : P (readText site parse).state := by
  unfold readText
  split
  · exact hnull
  · rename_i text _
    simp only [Progress.state_remarked]
    split
    · rename_i v hv
      exact h text v hv
    · exact hnull

theorem readText_parseValue_induction {codec : Codec} {site : Site} {strict : Bool}
    (hnull : P .null) (hscalar : ∀ text s, (codec.parse property text strict).1 = .ok (some s) →
      P (.scalar s)) : P (readText site fun s => codec.parseValue property s strict).state := by
  apply readText_induction hnull
  intro text v hv
  obtain ⟨s, hs, rfl⟩ := Codec.of_parseValue hv
  cases s with
  | none => exact hnull
  | some s => exact hscalar text s hs

theorem readText_scoping_induction {site : Site} {zone : Time.Offset}
    (hnull : P .null) (hscalar : ∀ t, P (.scalar (.dateTime t))) :
    P (readText site fun s => (Scoping.decode property s zone, [])).state := by
  apply readText_induction hnull
  intro text v hv
  rcases Scoping.of_decode hv with rfl | ⟨t, rfl⟩
  · exact hnull
  · exact hscalar t

/-- What a composite is read into: the one held, if it has the layout, or a new one. -/
theorem decode_composite (cat : Catalog) (session : Session) (property : String) (l : LayoutId)
    (existing : Option Value) : ∃ c : Composite, c.layout = l ∧
      (c = Composite.new cat l ∨ existing = some (.composite c)) ∧
      ∀ site, (composite l).decode cat session property site existing =
        (c.load cat session site).map .composite := by
  by_cases hheld : ∃ c : Composite, c.layout = l ∧ existing = some (.composite c)
  · obtain ⟨c, hc, rfl⟩ := hheld
    exact ⟨c, hc, .inr rfl, fun site => by simp only [decode, if_pos hc]⟩
  · refine ⟨Composite.new cat l, rfl, .inl rfl, ?_⟩
    intro site
    simp only [decode]
    split
    · rename_i c
      rw [if_neg fun hc => hheld ⟨c, hc, rfl⟩]
    · rfl

/-- What a collection is read into: the one held, if it has the layout, or a new one. -/
theorem decode_collection (cat : Catalog) (session : Session) (property : String) (l : LayoutId)
    (element : String) (existing : Option Value) : ∃ c : Collection, c.layout = l ∧
      (c = Collection.new l element ∨ existing = some (.collection c)) ∧
      ∀ site, (collection l element).decode cat session property site existing =
        (c.load cat session site.content).map .collection := by
  by_cases hheld : ∃ c : Collection, c.layout = l ∧ existing = some (.collection c)
  · obtain ⟨c, hc, rfl⟩ := hheld
    exact ⟨c, hc, .inr rfl, fun site => by simp only [decode, if_pos hc]⟩
  · refine ⟨Collection.new l element, rfl, .inl rfl, ?_⟩
    intro site
    simp only [decode]
    split
    · rename_i c
      rw [if_neg fun hc => hheld ⟨c, hc, rfl⟩]
    · rfl

def loadWrapper (cat : Catalog) (session : Session) (property wrapper : String) (inner : Shape)
    (tag : Tag) (content : Forest) (s : Option Value × Value) : Progress (Option Value × Value) :=
  if tag.ns = some .types ∧ tag.name = wrapper then
    (inner.decode cat session property ⟨some tag, content⟩ s.1).map (none, ·)
  else content.skip s

theorem decode_contained (cat : Catalog) (session : Session) (property wrapper : String)
    (inner : Shape) (site : Site) (existing : Option Value) :
    (contained wrapper inner).decode cat session property site existing =
      (site.content.walk (loadWrapper cat session property wrapper inner) (existing, .null)).map
        Prod.snd := rfl

/-- What holds of null and of what the inner shape reads holds of what is read in a wrapper. -/
theorem decode_contained_induction {cat : Catalog} {session : Session} {wrapper : String}
    {inner : Shape} {site : Site} {existing : Option Value} {Q : Option Value → Prop}
    (hnull : P .null) (hnone : Q none) (hexisting : Q existing)
    (hinner : ∀ site existing, Q existing →
      P (inner.decode cat session property site existing).state) :
    P ((contained wrapper inner).decode cat session property site existing).state := by
  rw [decode_contained, Progress.state_map]
  refine (Forest.walk_induction (P := fun s : Option Value × Value => Q s.1 ∧ P s.2)
    ⟨hexisting, hnull⟩ ?_).2
  rintro x - s ⟨hs, hv⟩
  unfold loadWrapper
  split
  · exact ⟨hnone, hinner _ _ hs⟩
  · rw [Forest.state_skip]
    exact ⟨hs, hv⟩

end Shape

end ObjectTracking
