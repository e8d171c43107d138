import ObjectTracking.Collection.Markup
import ObjectTracking.Proofs.Markup.Walk
/-!
What reading keeps. A composite is read by storing, field by field, scalars that a codec has read and
nested values that were read into new ones; what these two steps keep holds wherever reading stops.
-/
set_option autoImplicit false

namespace ObjectTracking
open Markup

/-- What holds of a new composite of a layout, and stays while fields are stored that were read. -/
structure Composite.KeptByReading (cat : Catalog) (P : LayoutId → Composite → Prop) : Prop where
  layout : ∀ {l c}, P l c → c.layout = l
  new : ∀ l, P l (new cat l)
  scalar : ∀ {l c} {ix : Nat} {f : LayoutField} {codec : Codec} {s : Option Scalar} {name text strict},
    P l c → (cat.layout l).fields[ix]? = some f → f.kind = .scalar codec →
    (codec.parse name text strict).1 = .ok s → P l (c.setAt ix (.ofScalar? s))
  nested : ∀ {l c} {ix : Nat} {f : LayoutField} {n : Composite}, P l c →
    (cat.layout l).fields[ix]? = some f → ∀ {inner}, f.kind = .nested inner → P inner n →
    P l (c.setAt ix (.nested n))

variable {cat : Catalog} {session : Session} {P : LayoutId → Composite → Prop} {l : LayoutId}
  {c : Composite} {ix : Nat} {f : LayoutField} {codec : Codec}

namespace Composite.KeptByReading

theorem storeText (h : KeptByReading cat P) (hc : P l c) (hf : (cat.layout l).fields[ix]? = some f)
    (hkind : f.kind = .scalar codec) (name text : String) :
    P l (c.storeText session ix name codec text).state := by
  cases hread : (codec.parse name text session.strict).1 with
  | error e => simpa [Composite.storeText, hread] using hc
  | ok s =>
    simp only [Composite.storeText, hread, Progress.state_remarked, Progress.state_done]
    exact h.scalar hc hf hkind hread

theorem storeValue (h : KeptByReading cat P) (hc : P l c) (hf : (cat.layout l).fields[ix]? = some f)
    (hkind : f.kind = .scalar codec) (name : String) (site : Site) :
    P l (c.storeValue session ix name codec site).state := by
  unfold Composite.storeValue
  split
  · exact hc
  · exact h.storeText hc hf hkind name _

theorem loadAttributes (h : KeptByReading cat P) (hc : P l c) (tag? : Option Tag)
    (fs : List LayoutField) (hfields : (cat.layout l).fields.drop ix = fs) :
    P l (Composite.loadAttributes session tag? ix fs c).state := by
  induction fs generalizing ix c with
  | nil => exact hc
  | cons f fs ih =>
    obtain ⟨hf, hrest⟩ : (cat.layout l).fields[ix]? = some f ∧
        (cat.layout l).fields.drop (ix + 1) = fs := by
      constructor
      · simpa using congrArg List.head? hfields
      · simpa using congrArg List.tail hfields
    apply Progress.andThen_induction
    · split
      · rename_i hkind _
        exact h.storeText hc hf hkind _ _
      · exact hc
    · exact fun c' hc' => ih hc' hrest

theorem loadBy (h : KeptByReading cat P) (hc : P l c) (site : Site)
    {children : Composite → Progress Composite} (hchildren : ∀ c, P l c → P l (children c).state) :
    P l (Composite.loadBy cat session site children c).state := by
  apply Progress.andThen_induction
  · exact h.loadAttributes hc site.tag? _ (by simp [h.layout hc])
  · intro c' hc'
    rw [h.layout hc]
    split
    · exact hchildren c' hc'
    · split
      · rename_i hf
        exact h.storeValue hc' hf rfl _ site
      · split
        · exact hc'
        · exact hc'

theorem loadElements (h : KeptByReading cat P) (hc : P l c) (content : Forest) :
    P l (Composite.loadElements cat session content c).state := by
  induction content generalizing l c with
  | closed => exact hc
  | cut => exact hc
  | text _ rest ih => exact ih hc
  | element tag content rest ihcontent ihrest =>
    apply Progress.andThen_induction
    · rw [Progress.state_later, h.layout hc]
      split
      · simpa using hc
      · split
        · rename_i hf
          exact h.storeValue hc hf rfl _ _
        · rename_i hf
          rw [Progress.state_map]
          split
          · exact hc
          · exact h.nested hc hf rfl (h.loadBy (h.new _) _ fun _ hc => ihcontent hc)
        · simpa using hc
    · exact fun c' hc' => ihrest hc'

theorem load (h : KeptByReading cat P) (hc : P l c) (session : Session) (site : Site) :
    P l (c.load cat session site).state :=
  h.loadBy hc site fun _ hc => h.loadElements hc site.content

/-- The items of a collection that was read are linked to it, and are what is kept but for that. -/
theorem entries (h : KeptByReading cat P) (session : Session) (content : Forest) (v : Collection) :
    (v.load cat session content).state.layout = v.layout ∧
      (v.load cat session content).state.link = v.link ∧
      ∀ e ∈ (v.load cat session content).state.entries,
        ∃ item, P v.layout item ∧ e.value = item.attach v.link := by
  unfold Collection.load
  refine Forest.walk_induction (P := fun v' : Collection => v'.layout = v.layout ∧ v'.link = v.link ∧
    ∀ e ∈ v'.entries, ∃ item, P v.layout item ∧ e.value = item.attach v.link) ⟨rfl, rfl, by simp⟩ ?_
  rintro x - v' ⟨hlayout, hlink, hentries⟩
  unfold Collection.loadItem
  split
  · rw [Progress.state_map]
    split
    · exact ⟨hlayout, hlink, hentries⟩
    · refine ⟨hlayout, hlink, ?_⟩
      intro e he
      rcases List.mem_append.mp he with he | he
      · exact hentries e he
      · obtain rfl := List.mem_singleton.mp he
        refine ⟨_, ?_, congrArg (fun k => Composite.attach k _) hlink⟩
        rw [← hlayout]
        exact h.load (h.new v'.layout) session _
  · rw [Forest.state_skip]
    exact ⟨hlayout, hlink, hentries⟩

end Composite.KeptByReading

theorem Composite.layout_keptByReading (cat : Catalog) :
    KeptByReading cat fun l c => c.layout = l := by
  refine ⟨id, fun _ => rfl, ?_, ?_⟩
  · intro l c ix f codec s name text strict hc _ _ _
    exact hc
  · intro l c ix f n hc _ inner _ _
    exact hc

theorem Composite.layout_load (session : Session) (site : Site) (c : Composite) :
    (c.load cat session site).state.layout = c.layout :=
  (layout_keptByReading cat).load rfl session site

theorem Collection.layout_load (session : Session) (content : Forest) (c : Collection) :
    (c.load cat session content).state.layout = c.layout :=
  ((Composite.layout_keptByReading cat).entries session content c).1

theorem Collection.element_load (session : Session) (content : Forest) (c : Collection) :
    (c.load cat session content).state.element = c.element := by
  unfold load
  refine Forest.walk_induction (P := fun c' : Collection => c'.element = c.element) rfl ?_
  rintro x - c' hc
  unfold loadItem
  split
  · rw [Progress.state_map]
    split
    · exact hc
    · exact hc
  · rwa [Forest.state_skip]

end ObjectTracking
