import ObjectTracking.Proofs.Composite.Attributes
import ObjectTracking.Proofs.Composite.Retold
/-!
A composite that was written is read again, if its layouts are well formed. The child elements are
read in the order of the fields, so that at any time the fields before a place are those that were
written and the others hold attributes alone.
-/
set_option autoImplicit false

namespace ObjectTracking
open Markup

namespace Composite

def attributes (cat : Catalog) (c : Composite) : List (String × String) :=
  LayoutField.attributes (cat.layout c.layout).fields c.fields

/-- An element with the attributes of a composite, perhaps among others. -/
def AttributesIn (cat : Catalog) (c : Composite) (tag : Tag) : Prop :=
  ∀ f ∈ (cat.layout c.layout).fields, f.placement = .attr →
    tag.attribute? f.name = (c.attributes cat).lookup f.name

/-- A composite is written as its attributes and a content, and is read from an element with both. -/
structure Conveyed (cat : Catalog) (c : Composite) (body : Content) : Prop where
  wellFormed : body.WellFormed
  encoded : c.encodeContents cat = .ofCalls (attributeCalls (c.attributes cat) ++ body.calls)
  loaded : ∀ (session : Session) (tag : Tag), c.AttributesIn cat tag →
    load cat session ⟨some tag, body.forest⟩ (new cat c.layout) = .done (c.retold cat)

end Composite

/-- Fields of a layout from a place on are written as elements in a row, and are read from them once
the attributes are. -/
structure Field.Conveyed (cat : Catalog) (l : LayoutId) (before fs : List LayoutField)
    (vs : List Field) (row : Content) : Prop where
  wellFormed : row.WellFormed
  isRow : row.isRow = true
  encoded : Field.encodeAll cat fs vs = .ofCalls row.calls
  loaded : ∀ (session : Session) (k : Option Link) (pre : List Field), pre.length = before.length →
    Composite.loadElements cat session row.forest
        (.mk l k (pre ++ List.zipWith LayoutField.staged fs vs)) =
      .done (.mk l k (pre ++ Field.retoldAll cat fs vs))

theorem Markup.Site.value_ofText (tag : Tag) (s : String) :
    Site.value ⟨some tag, .ofText s⟩ = .ok s := by
  unfold Forest.ofText
  cases h : s.isEmpty with
  | true =>
    rw [String.isEmpty_iff] at h
    subst h
    rfl
  | false =>
    have happend : s ++ "" = s := String.append_empty
    simp [Site.value, Forest.isClosed, Forest.plainText, happend]

variable {cat : Catalog} {l : LayoutId} {before fs : List LayoutField} {f : LayoutField} {v : Field}
  {vs : List Field}

theorem Composite.storeValue_eq {codec : Codec} {s : Scalar} {text : String}
    (hcodec : codec.Faithful) (hs : codec.Stores s) (htext : codec.text? s = some text)
    (session : Session) (ix : Nat) (name : String) (tag : Tag) (c : Composite) :
    c.storeValue session ix name codec ⟨some tag, .ofText text⟩ =
      .done (c.setAt ix (.scalar s)) := by
  rw [storeValue, Site.value_ofText]
  dsimp only
  rw [storeText_eq hcodec hs htext, Progress.later_done]

/-- Nothing is written for a field that is unset or an attribute, and the rest is read as it is. -/
theorem Field.Conveyed.skip {row : Content} (h : Field.Conveyed cat l (before ++ [f]) fs vs row)
    (hencode : v.encode cat f = .nothing) (hretold : v.retold cat f = f.staged v) :
    Field.Conveyed cat l before (f :: fs) (v :: vs) row := by
  refine ⟨h.wellFormed, h.isRow, ?_, ?_⟩
  · rw [Field.encodeAll, hencode, h.encoded, Encoding.nothing_eq_ofCalls, Encoding.ofCalls_append]
    rfl
  · intro session k pre hpre
    have hrest := h.loaded session k (pre ++ [f.staged v]) (by simp [hpre])
    simpa [Field.retoldAll, hretold] using hrest

/-- A field that is written as an element is read from it, and then the rest is read. -/
theorem Field.Conveyed.element {row body : Content} {attributes : List (String × String)}
    (h : Field.Conveyed cat l (before ++ [f]) fs vs row) (hl : (cat.layout l).WellFormed)
    (hfields : (cat.layout l).fields = before ++ f :: fs) (hplacement : f.placement = .element)
    (hbody : body.WellFormed) (hattributes : AreAttributes attributes)
    (hencode : v.encode cat f =
      .element .types f.name (.ofCalls (attributeCalls attributes ++ body.calls)))
    (hload : ∀ (session : Session) (c : Composite) (rest : Forest), c.layout = l →
      Composite.loadElements cat session (.element (Content.tag f.name attributes) body.forest rest)
          c = (Composite.loadElements cat session rest
            (c.setAt before.length (v.retold cat f))).later (body.forest.size + 2)) :
    Field.Conveyed cat l before (f :: fs) (v :: vs) (.element f.name attributes body row) := by
  have hname : IsName f.name := hl.names f (by simp [hfields])
  refine ⟨⟨hname, hattributes, hbody, h.wellFormed, h.isRow⟩, rfl, ?_, ?_⟩
  · rw [Field.encodeAll, hencode, h.encoded, Encoding.element_append]
  · intro session k pre hpre
    have hstaged : f.staged v = .unset := by simp [LayoutField.staged, hplacement]
    have hrest := h.loaded session k (pre ++ [v.retold cat f]) (by simp [hpre])
    rw [Content.forest, hload session _ _ rfl, List.zipWith_cons_cons, hstaged, ← hpre,
      Composite.setAt_append]
    simp only [List.append_assoc, List.singleton_append] at hrest
    rw [hrest]
    rfl

namespace Layout.WellFormed

theorem elementPosition? (hl : (cat.layout l).WellFormed)
    (hfields : (cat.layout l).fields = before ++ f :: fs) (hplacement : f.placement = .element) :
    (cat.layout l).elementPosition? f.name = some before.length ∧
      (cat.layout l).fields[before.length]? = some f :=
  ⟨elementPosition?_eq_some hl hfields hplacement, by simp [hfields]⟩

end Layout.WellFormed

theorem Field.Conveyed.scalar {row : Content} {codec : Codec} {s : Scalar}
    (h : Field.Conveyed cat l (before ++ [f]) fs vs row) (hl : (cat.layout l).WellFormed)
    (hfields : (cat.layout l).fields = before ++ f :: fs) (hplacement : f.placement = .element)
    (hkind : f.kind = .scalar codec) (hs : codec.Stores s) :
    ∃ row', Field.Conveyed cat l before (f :: fs) (.scalar s :: vs) row' := by
  have hcodec := hl.codecs f (by simp [hfields]) codec hkind
  obtain ⟨text, htext⟩ := hs.text?
  obtain ⟨hposition, hfield⟩ := hl.elementPosition? hfields hplacement
  obtain ⟨name, placement, kind⟩ := f
  subst hplacement hkind
  have hbody : (Content.text text).WellFormed := trivial
  refine ⟨_, h.element hl hfields rfl hbody areAttributes_nil ?_ ?_⟩
  · simp only [Field.encode, htext]
    rfl
  · intro session c rest hc
    rw [← hc] at hposition hfield
    simp only [Composite.loadElements, Content.tag, hposition, hfield, Content.forest,
      Composite.storeValue_eq hcodec hs htext, Progress.later_done, Progress.andThen_done]
    rfl

theorem Field.Conveyed.nested {row body : Content} {n : Composite}
    (h : Field.Conveyed cat l (before ++ [f]) fs vs row) (hl : (cat.layout l).WellFormed)
    (hfields : (cat.layout l).fields = before ++ f :: fs) (hkind : f.kind = .nested n.layout)
    (hn : n.Conveyed cat body) (hattributes : AreAttributes (n.attributes cat)) :
    Field.Conveyed cat l before (f :: fs) (.nested n :: vs)
      (.element f.name (n.attributes cat) body row) := by
  have hplacement := hl.nested f (by simp [hfields]) n.layout hkind
  obtain ⟨hposition, hfield⟩ := hl.elementPosition? hfields hplacement
  obtain ⟨name, placement, kind⟩ := f
  subst hplacement hkind
  refine h.element hl hfields rfl hn.wellFormed hattributes ?_ ?_
  · simp only [Field.encode, hn.encoded]
  · intro session c rest hc
    rw [← hc] at hposition hfield
    have hload : Composite.loadBy cat session
        ⟨some (Content.tag name (n.attributes cat)), body.forest⟩
        (Composite.loadElements cat session body.forest) (Composite.new cat n.layout) =
          .done (n.retold cat) := hn.loaded session _ fun _ _ _ => rfl
    simp only [Content.tag] at hload ⊢
    simp only [Composite.loadElements, hposition, hfield, hload]
    rfl

section Composite
variable {c : Composite}

theorem Composite.areAttributes (hl : (cat.layout c.layout).WellFormed) :
    AreAttributes (c.attributes cat) := by
  refine ⟨?_, (LayoutField.attributes_sublist _ _).nodup hl.distinct⟩
  intro a ha
  obtain ⟨f, hf, hplacement, hname⟩ := LayoutField.mem_attributes ha
  rw [← hname]
  exact ⟨hl.names f hf, hl.attributes f hf hplacement⟩

def Composite.afterAttributes (cat : Catalog) (c : Composite) : Composite :=
  .mk c.layout none (List.zipWith LayoutField.staged (cat.layout c.layout).fields c.fields)

theorem Composite.loadAttributes_new (hl : (cat.layout c.layout).WellFormed) (hfits : c.Fits cat)
    (session : Session) {tag : Tag} (htag : c.AttributesIn cat tag) :
    loadAttributes session (some tag) 0 (cat.layout c.layout).fields (new cat c.layout) =
      .done (c.afterAttributes cat) := by
  obtain ⟨l, k, vs⟩ := c
  refine loadAttributes_eq session l none hl.codecs hl.nested hfits ?_ []
  intro p hp hplacement
  rw [htag p.1 (List.of_mem_zip hp).1 hplacement]
  exact LayoutField.lookup_attributes hl.distinct p hp

theorem Composite.load_row (hl : (cat.layout c.layout).WellFormed) (hfits : c.Fits cat)
    (session : Session) {tag : Tag} (htag : c.AttributesIn cat tag)
    (htext : ∀ f ∈ (cat.layout c.layout).fields, f.placement ≠ .text) (content : Forest) :
    load cat session ⟨some tag, content⟩ (new cat c.layout) =
      loadElements cat session content (c.afterAttributes cat) := by
  have hlayout : (new cat c.layout).layout = c.layout := rfl
  have hposition := Layout.textPosition?_eq_none htext
  rw [load, loadBy]
  simp only [hlayout, loadAttributes_new hl hfits session htag, Progress.andThen_done, hposition]

theorem Composite.load_text {codec : Codec} {after : List LayoutField}
    (hl : (cat.layout c.layout).WellFormed) (hfits : c.Fits cat) (session : Session) {tag : Tag}
    (htag : c.AttributesIn cat tag) (hfields : (cat.layout c.layout).fields = before ++ f :: after)
    (hplacement : f.placement = .text) (hkind : f.kind = .scalar codec) (content : Forest) :
    load cat session ⟨some tag, content⟩ (new cat c.layout) =
      (c.afterAttributes cat).storeValue session before.length f.name codec
        ⟨some tag, content⟩ := by
  have hlayout : (new cat c.layout).layout = c.layout := rfl
  have hbeside := hl.beside_text hfields hplacement
  have hposition := Layout.textPosition?_eq_some hfields
    (fun g hg => hbeside g (List.mem_append_left after hg)) hplacement
  have hfield : (cat.layout c.layout).fields[before.length]? = some f := by simp [hfields]
  obtain ⟨name, placement, kind⟩ := f
  subst hkind
  rw [load, loadBy]
  simp only [hlayout, loadAttributes_new hl hfits session htag, Progress.andThen_done, hposition,
    hfield]

/-- A composite without a text field is written as its fields in a row. -/
theorem Composite.conveyed_of_row {row : Content} (hl : (cat.layout c.layout).WellFormed)
    (hfits : c.Fits cat) (htext : ∀ f ∈ (cat.layout c.layout).fields, f.placement ≠ .text)
    (hrow : Field.Conveyed cat c.layout [] (cat.layout c.layout).fields c.fields row) :
    c.Conveyed cat row := by
  refine ⟨hrow.wellFormed, ?_, ?_⟩
  · obtain ⟨l, k, vs⟩ := c
    rw [encodeContents, LayoutField.encodeAttributes_eq hfits, ← Encoding.ofCalls_append]
    exact congrArg _ hrow.encoded
  · intro session tag htag
    rw [load_row hl hfits session htag htext]
    obtain ⟨l, k, vs⟩ := c
    exact hrow.loaded session none [] rfl

end Composite

section Text
variable {before after : List LayoutField} {pre post : List Field}

theorem LayoutField.retold_eq_staged (hplacement : f.placement = .attr)
    (hnested : ∀ inner, f.kind = .nested inner → f.placement = .element) (hv : f.Holds v) :
    v.retold cat f = f.staged v := by
  cases v with
  | unset => simp [staged, Field.retold, unwritten_eq_unset, hplacement]
  | scalar s => simp [staged, hplacement, Field.retold]
  | nested n => simp [hnested n.layout hv] at hplacement

theorem LayoutField.retoldAll_eq_staged (hattributes : ∀ f ∈ fs, f.placement = .attr)
    (hnested : ∀ f ∈ fs, ∀ inner, f.kind = .nested inner → f.placement = .element)
    (hfits : Field.EachOf cat LayoutField.Holds fs vs) :
    Field.retoldAll cat fs vs = List.zipWith LayoutField.staged fs vs := by
  induction fs generalizing vs with
  | nil =>
    cases vs with
    | nil => rfl
    | cons v vs => cases hfits
  | cons f fs ih =>
    cases vs with
    | nil => cases hfits
    | cons v vs =>
      rw [Field.retoldAll, List.zipWith_cons_cons,
        retold_eq_staged (hattributes f List.mem_cons_self) (hnested f List.mem_cons_self) hfits.1,
        ih (fun g hg => hattributes g (List.mem_cons_of_mem f hg))
          (fun g hg => hnested g (List.mem_cons_of_mem f hg)) hfits.2.2]

theorem Field.encode_attribute (hplacement : f.placement = .attr) (v : Field) :
    v.encode cat f = .nothing := by
  cases v <;> simp [Field.encode, hplacement]

theorem Field.encodeAll_attributes (hattributes : ∀ f ∈ before, f.placement = .attr)
    (hlength : pre.length = before.length) :
    Field.encodeAll cat (before ++ fs) (pre ++ vs) = Field.encodeAll cat fs vs := by
  induction before generalizing pre with
  | nil =>
    obtain rfl : pre = [] := List.length_eq_zero_iff.mp hlength
    rfl
  | cons f before ih =>
    cases pre with
    | nil => cases hlength
    | cons v pre =>
      rw [List.cons_append, List.cons_append, Field.encodeAll,
        encode_attribute (hattributes f List.mem_cons_self),
        ih (fun g hg => hattributes g (List.mem_cons_of_mem f hg)) (by simpa using hlength)]
      rfl

theorem Field.eachOf_append {P : LayoutField → Field → Prop}
    (h : Field.EachOf cat P (before ++ f :: after) vs) : ∃ pre v post, vs = pre ++ v :: post ∧
      pre.length = before.length ∧ Field.EachOf cat P before pre ∧ P f v ∧
        Field.EachOf cat P after post := by
  induction before generalizing vs with
  | nil =>
    cases vs with
    | nil => cases h
    | cons v vs => exact ⟨[], v, vs, rfl, rfl, trivial, h.1, h.2.2⟩
  | cons g before ih =>
    cases vs with
    | nil => cases h
    | cons w vs =>
      obtain ⟨pre, v, post, rfl, hlength, hpre, hv, hpost⟩ := ih h.2.2
      exact ⟨w :: pre, v, post, rfl, by simp [hlength], ⟨h.1, h.2.1, hpre⟩, hv, hpost⟩

/-- The field that is the text of an element is written as that text, or as nothing if it is unset,
and is read from it. -/
theorem Field.conveyed_text {codec : Codec} (hcodec : codec.Faithful)
    (hplacement : f.placement = .text) (hkind : f.kind = .scalar codec) (hv : f.Holds v) :
    ∃ body : Content, body.WellFormed ∧
      v.encode cat f = .ofCalls body.calls ∧
      ∀ (session : Session) (tag : Tag) (ix : Nat) (c : Composite),
        c.storeValue session ix f.name codec ⟨some tag, body.forest⟩ =
          .done (c.setAt ix (v.retold cat f)) := by
  cases v with
  | unset =>
    refine ⟨.nothing, trivial, rfl, ?_⟩
    intro session tag ix c
    have hvalue : Site.value ⟨some tag, .closed⟩ = .ok "" := rfl
    rw [Content.forest, Composite.storeValue, hvalue]
    dsimp only
    rw [Composite.storeText, Codec.parse_empty hcodec, Field.retold,
      LayoutField.unwritten_text hplacement hkind]
    rfl
  | nested n => simp [LayoutField.Holds, hkind] at hv
  | scalar s =>
    obtain ⟨codec', hkind', hs⟩ := hv
    obtain rfl : codec = codec' := FieldKind.scalar.inj (hkind.symm.trans hkind')
    obtain ⟨text, htext⟩ := hs.text?
    refine ⟨.text text, trivial, ?_, ?_⟩
    · simp only [Field.encode, hplacement, hkind, htext]
      rfl
    · intro session tag ix c
      exact Composite.storeValue_eq hcodec hs htext session ix f.name tag c

theorem Composite.conveyed_of_text {c : Composite} (hl : (cat.layout c.layout).WellFormed)
    (hfits : c.Fits cat) (hf : f ∈ (cat.layout c.layout).fields) (hplacement : f.placement = .text) :
    ∃ body, c.Conveyed cat body := by
  obtain ⟨l, k, vs⟩ := c
  simp only [Composite.layout] at hl hf
  obtain ⟨before, after, hfields⟩ := List.append_of_mem hf
  obtain ⟨hbefore, hafter⟩ := List.forall_mem_append.mp (hl.beside_text hfields hplacement)
  have hholds : Field.EachOf cat LayoutField.Holds (before ++ f :: after) vs := hfields ▸ hfits
  obtain ⟨pre, v, post, rfl, hlength, hpre, hv, hpost⟩ := Field.eachOf_append hholds
  cases hkind : f.kind with
  | nested inner => simp [hl.nested f hf inner hkind] at hplacement
  | scalar codec =>
    obtain ⟨body, hbody, hencode, hload⟩ :=
      Field.conveyed_text (hl.codecs f hf codec hkind) hplacement hkind hv
    refine ⟨body, hbody, ?_, ?_⟩
    · have hpost' : Field.encodeAll cat after post = .nothing := by
        have h : Field.encodeAll cat (after ++ []) (post ++ []) = Field.encodeAll cat [] [] :=
          Field.encodeAll_attributes hafter (Field.eachOf_iff.mp hpost).1.symm
        simpa [Field.encodeAll] using h
      have hall : Field.encodeAll cat (cat.layout l).fields (pre ++ v :: post) =
          .ofCalls body.calls := by
        rw [hfields, Field.encodeAll_attributes hbefore hlength, Field.encodeAll, hencode, hpost',
          Encoding.nothing_eq_ofCalls, Encoding.ofCalls_append, List.append_nil]
      rw [encodeContents, LayoutField.encodeAttributes_eq hfits, hall, Encoding.ofCalls_append]
      rfl
    · intro session tag htag
      have hstaged : afterAttributes cat (mk l k (pre ++ v :: post)) =
          mk l none (Field.retoldAll cat before pre ++ .unset :: Field.retoldAll cat after post) := by
        have hunset : f.staged v = .unset := by simp [LayoutField.staged, hplacement]
        have hnested : ∀ g ∈ before ++ f :: after, ∀ inner, g.kind = .nested inner →
            g.placement = .element := hfields ▸ hl.nested
        rw [LayoutField.retoldAll_eq_staged hbefore (fun g hg => hnested g (by simp [hg])) hpre,
          LayoutField.retoldAll_eq_staged hafter (fun g hg => hnested g (by simp [hg])) hpost,
          afterAttributes, layout, fields, hfields, List.zipWith_append hlength.symm,
          List.zipWith_cons_cons, hunset]
      have hretold : retold cat (mk l k (pre ++ v :: post)) =
          mk l none (Field.retoldAll cat before pre ++
            v.retold cat f :: Field.retoldAll cat after post) := by
        simp only [retold, hfields, Field.retoldAll_eq_zipWith, List.zipWith_append hlength.symm,
          List.zipWith_cons_cons]
      have hlength' : before.length = (Field.retoldAll cat before pre).length := by
        rw [Field.retoldAll_eq_zipWith, List.length_zipWith, hlength, Nat.min_self]
      rw [load_text hl hfits session htag hfields hplacement hkind, hload, hstaged, hretold,
        hlength', setAt_append]

end Text

mutual

/-- A composite that fits is written and read again. -/
theorem Composite.conveyed (hcat : cat.WellFormed) :
    (c : Composite) → c.Fits cat → ∃ body, c.Conveyed cat body
  | .mk l k vs, hfits => by
    by_cases htext : ∃ f ∈ (cat.layout l).fields, f.placement = .text
    · obtain ⟨f, hf, hplacement⟩ := htext
      exact Composite.conveyed_of_text (hcat l) hfits hf hplacement
    · have htext' : ∀ f ∈ (cat.layout l).fields, f.placement ≠ .text :=
        fun f hf hplacement => htext ⟨f, hf, hplacement⟩
      obtain ⟨row, hrow⟩ := Field.conveyedAll hcat l [] (cat.layout l).fields vs rfl hfits htext'
      exact ⟨row, Composite.conveyed_of_row (hcat l) hfits htext' hrow⟩

theorem Field.conveyedAll (hcat : cat.WellFormed) (l : LayoutId) :
    (before fs : List LayoutField) → (vs : List Field) → (cat.layout l).fields = before ++ fs →
      Field.EachOf cat LayoutField.Holds fs vs → (∀ f ∈ fs, f.placement ≠ .text) →
      ∃ row, Field.Conveyed cat l before fs vs row
  | before, [], [], _, _, _ =>
    ⟨.nothing, trivial, rfl, rfl, fun _ _ _ _ => rfl⟩
  | before, f :: fs, v :: vs, hfields, hfits, htext => by
    have hmore : (cat.layout l).fields = (before ++ [f]) ++ fs := by simp [hfields]
    obtain ⟨row, hrow⟩ := Field.conveyedAll hcat l (before ++ [f]) fs vs hmore hfits.2.2
      fun g hg => htext g (List.mem_cons_of_mem f hg)
    have hl := hcat l
    have hf : f ∈ (cat.layout l).fields := by simp [hfields]
    cases hplacement : f.placement with
    | text => exact absurd hplacement (htext f List.mem_cons_self)
    | attr =>
      exact ⟨row, hrow.skip (Field.encode_attribute hplacement v)
        (LayoutField.retold_eq_staged hplacement (hl.nested f hf) hfits.1)⟩
    | element =>
      match v, hfits with
      | .unset, _ =>
        exact ⟨row, hrow.skip rfl
          (by simp [LayoutField.staged, Field.retold, LayoutField.unwritten_eq_unset, hplacement])⟩
      | .scalar s, hfits =>
        obtain ⟨codec, hkind, hs⟩ := hfits.1
        exact hrow.scalar hl hfields hplacement hkind hs
      | .nested n, hfits =>
        obtain ⟨body, hbody⟩ := Composite.conveyed hcat n hfits.2.1
        exact ⟨_, hrow.nested hl hfields hfits.1 hbody (Composite.areAttributes (hcat n.layout))⟩

end

end ObjectTracking
