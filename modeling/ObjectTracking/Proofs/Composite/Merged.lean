import ObjectTracking.Proofs.Composite.Loading
import ObjectTracking.Proofs.Links
import ObjectTracking.Proofs.Markup.Reordered
import ObjectTracking.Proofs.Property.Reader
/-!
What reading overwrites in a composite. An element says of each field what it is, once or several
times or not at all: the last time counts, and a field of which nothing is said keeps its content.
Whether the element can be read does not depend on what it is read into.
-/
set_option autoImplicit false

namespace ObjectTracking
open Markup

/-- What a text says of a field, unless the codec refuses it. -/
def Codec.told? (codec : Codec) (session : Session) (name text : String) : Option Field :=
  (codec.parse name text session.strict).1.toOption.map Field.ofScalar?

namespace LayoutField

def saidByAttribute (session : Session) (f : LayoutField) (tag? : Option Tag) :
    List (Option Field) :=
  match f.placement, f.kind, tag?.bind (·.attribute? f.name) with
  | .attr, .scalar codec, some text => [codec.told? session f.name text]
  | _, _, _ => []

/-- What an element says of a field, unless it cannot be read. -/
def told? (cat : Catalog) (session : Session) (f : LayoutField) (site : Site) : Option Field :=
  match f.kind with
  | .scalar codec => site.value.toOption.bind (codec.told? session f.name)
  | .nested inner => ((Composite.new cat inner).load cat session site).finished?.map .nested

/-- What the text of a composite's own element says of a field. Only a scalar is told anything. -/
def saidByText (cat : Catalog) (session : Session) (f : LayoutField) (site : Site) :
    List (Option Field) :=
  match f.kind with
  | .scalar _ => [f.told? cat session site]
  | .nested _ => []

end LayoutField

/-- What the element of a composite says of the field at a place, each time it is mentioned, in the
order in which it is read. -/
def Layout.said (cat : Catalog) (session : Session) (l : Layout) (site : Site) (ix : Nat) :
    List (Option Field) :=
  match l.fields[ix]? with
  | none => []
  | some f =>
    f.saidByAttribute session site.tag? ++
      match l.textPosition? with
      | some n => if n = ix then f.saidByText cat session site else []
      | none =>
        (site.content.elements.filter fun x => l.elementPosition? x.1.name = some ix).map fun x =>
          f.told? cat session ⟨some x.1, x.2⟩

namespace Composite
variable {cat : Catalog} {session : Session} {l : LayoutId} {c c' c'' : Composite}
  {told told' : Nat → List Field} {said said' : Nat → List (Option Field)}

/-- A composite whose fields have been overwritten, each with the last that was told of it. -/
structure Overwritten (told : Nat → List Field) (c c' : Composite) : Prop where
  layout : c'.layout = c.layout
  link : c'.link = c.link
  fields : ∀ ix, c'.fields[ix]? = c.fields[ix]?.map fun v => (told ix).getLast?.getD v

namespace Overwritten

theorem refl (c : Composite) : Overwritten (fun _ => []) c c := ⟨rfl, rfl, fun _ => by simp⟩

theorem trans (h : Overwritten told c c') (h' : Overwritten told' c' c'') :
    Overwritten (fun ix => told ix ++ told' ix) c c'' := by
  refine ⟨h'.layout.trans h.layout, h'.link.trans h.link, ?_⟩
  intro ix
  rw [h'.fields, h.fields, Option.map_map]
  congr 1
  funext v
  rw [Function.comp_apply, List.getLast?_append]
  cases (told' ix).getLast? <;> rfl

theorem setAt (c : Composite) (ix : Nat) (f : Field) :
    Overwritten (fun n => if n = ix then [f] else []) c (c.setAt ix f) := by
  refine ⟨rfl, rfl, ?_⟩
  intro n
  change (c.fields.set ix f)[n]? = _
  rw [List.getElem?_set]
  by_cases h : ix = n
  · subst h
    simp only [if_true, List.getLast?_singleton, Option.getD_some]
    by_cases hlt : ix < c.fields.length
    · simp [hlt]
    · simp [hlt]
  · simp [h, Ne.symm h]

theorem attach (h : Overwritten told c c') (k : Option Link) :
    Overwritten (fun ix => (told ix).map (Field.attach k)) (c.attach k) (c'.attach k) := by
  obtain ⟨l, link, fs⟩ := c
  obtain ⟨l', link', fs'⟩ := c'
  refine ⟨h.layout, rfl, ?_⟩
  intro ix
  have hfields : fs'[ix]? = fs[ix]?.map fun v => (told ix).getLast?.getD v := h.fields ix
  simp only [Composite.attach, Composite.fields, Field.attachAll_eq_map, List.getElem?_map, hfields,
    Option.map_map, List.getLast?_map]
  congr 1
  funext v
  simp only [Function.comp_apply]
  cases (told ix).getLast? <;> rfl

/-- To be told the same again changes nothing. -/
theorem again (h : Overwritten told c c') (h' : Overwritten told c' c'') : c'' = c' := by
  have hfields : c''.fields = c'.fields := by
    apply List.ext_getElem?
    intro ix
    rw [h'.fields, h.fields, Option.map_map]
    congr 1
    funext v
    simp only [Function.comp_apply]
    cases (told ix).getLast? <;> rfl
  have hlayout := h'.layout
  have hlink := h'.link
  obtain ⟨l', k', fs'⟩ := c'
  obtain ⟨l'', k'', fs''⟩ := c''
  simp only [Composite.layout, Composite.link, Composite.fields] at hlayout hlink hfields
  rw [hlayout, hlink, hfields]

end Overwritten

/-- A reading that overwrites the fields of composites of a layout with what is said of them. It fails
if something that is said cannot be told, or for a reason that has nothing to do with the composite. -/
structure Merges (l : LayoutId) (read : Composite → Progress Composite)
    (said : Nat → List (Option Field)) : Prop where
  uniform : ∀ c c', c.layout = l → c'.layout = l →
    (read c).finished?.isSome = (read c').finished?.isSome
  told : ∀ c c', c.layout = l → (read c).finished? = some c' →
    ∃ told, (∀ ix, said ix = (told ix).map some) ∧ Overwritten told c c'

namespace Merges
variable {read read' : Composite → Progress Composite}

theorem congr (h : Merges l read said) (hread : ∀ c, c.layout = l → (read' c).finished? =
    (read c).finished?) (hsaid : ∀ ix, said' ix = said ix) : Merges l read' said' := by
  obtain rfl : said' = said := funext hsaid
  refine ⟨?_, ?_⟩
  · intro c c' hc hc'
    rw [hread c hc, hread c' hc']
    exact h.uniform c c' hc hc'
  · intro c c' hc hend
    exact h.told c c' hc (hread c hc ▸ hend)

theorem done (l : LayoutId) : Merges l .done fun _ => [] := by
  refine ⟨fun _ _ _ _ => rfl, ?_⟩
  rintro c _ - ⟨⟩
  exact ⟨fun _ => [], fun _ => rfl, .refl c⟩

/-- What always fails may be said to say anything. -/
theorem fails (h : ∀ c, c.layout = l → (read c).finished? = none) (said : Nat → List (Option Field)) :
    Merges l read said := by
  refine ⟨?_, ?_⟩
  · intro c c' hc hc'
    rw [h c hc, h c' hc']
  · intro c c' hc hend
    rw [h c hc] at hend
    cases hend

theorem skip (l : LayoutId) (content : Forest) : Merges l content.skip fun _ => [] := by
  cases hclosed : content.isClosed with
  | true => exact (done l).congr (fun c _ => by simp [Forest.skip, hclosed]) fun _ => rfl
  | false => exact fails (fun c _ => by simp [Forest.skip, hclosed]) _

/-- One field is told something. -/
theorem setAt {ix : Nat} {told? : Option Field}
    (h : ∀ c, c.layout = l → (read c).finished? = told?.map (c.setAt ix)) :
    Merges l read fun n => if n = ix then [told?] else [] := by
  refine ⟨?_, ?_⟩
  · intro c c' hc hc'
    rw [h c hc, h c' hc', Option.isSome_map, Option.isSome_map]
  · intro c c' hc hend
    rw [h c hc] at hend
    obtain ⟨f, rfl, rfl⟩ := Option.map_eq_some_iff.mp hend
    refine ⟨_, ?_, Overwritten.setAt c ix f⟩
    intro n
    split <;> rfl

theorem andThen (h : Merges l read said) (h' : Merges l read' said') :
    Merges l (fun c => (read c).andThen read') fun ix => said ix ++ said' ix := by
  refine ⟨?_, ?_⟩
  · intro c d hc hd
    have hsome := h.uniform c d hc hd
    rw [Progress.finished?_andThen, Progress.finished?_andThen]
    cases hread : (read c).finished? with
    | none =>
      cases hread' : (read d).finished? with
      | none => rfl
      | some d' => simp [hread, hread'] at hsome
    | some c' =>
      cases hread' : (read d).finished? with
      | none => simp [hread, hread'] at hsome
      | some d' =>
        obtain ⟨_, -, ho⟩ := h.told c c' hc hread
        obtain ⟨_, -, ho'⟩ := h.told d d' hd hread'
        exact h'.uniform c' d' (ho.layout.trans hc) (ho'.layout.trans hd)
  · intro c c'' hc hend
    rw [Progress.finished?_andThen] at hend
    obtain ⟨c', hread, hread'⟩ := Option.bind_eq_some_iff.mp hend
    obtain ⟨told, hsaid, ho⟩ := h.told c c' hc hread
    obtain ⟨told', hsaid', ho'⟩ := h'.told c' c'' (ho.layout.trans hc) hread'
    refine ⟨_, ?_, ho.trans ho'⟩
    intro ix
    rw [hsaid, hsaid', List.map_append]

/-- What the elements of a forest say, one after the other. -/
theorem walk {step : Tag → Forest → Composite → Progress Composite}
    {said : Tag × Forest → Nat → List (Option Field)} {f : Forest}
    (h : ∀ x ∈ f.elements, Merges l (step x.1 x.2) (said x)) :
    Merges l (f.walk step) fun ix => f.elements.flatMap fun x => said x ix := by
  induction f with
  | closed => exact done l
  | cut => exact fails (fun _ _ => rfl) _
  | text _ rest ih => exact (ih h).congr (fun c _ => by simp [Forest.walk]) fun _ => rfl
  | element tag content rest _ ih =>
    have hfirst := h (tag, content) List.mem_cons_self
    have hrest := ih fun x hx => h x (List.mem_cons_of_mem _ hx)
    refine (hfirst.andThen hrest).congr ?_ fun _ => rfl
    intro c _
    simp [Forest.walk]

end Merges

theorem finished?_storeText (ix : Nat) (name : String) (codec : Codec) (text : String)
    (c : Composite) : (c.storeText session ix name codec text).finished? =
      (codec.told? session name text).map (c.setAt ix) := by
  unfold storeText Codec.told?
  obtain ⟨result, reports⟩ := codec.parse name text session.strict
  cases result <;> rfl

theorem finished?_storeValue (ix : Nat) (name : String) (codec : Codec) (site : Site)
    (c : Composite) : (c.storeValue session ix name codec site).finished? =
      (site.value.toOption.bind (codec.told? session name)).map (c.setAt ix) := by
  unfold storeValue
  cases site.value with
  | error e => rfl
  | ok text => simp [finished?_storeText, Except.toOption]

/-- The attributes of fields from a place on. -/
theorem merges_loadAttributes (session : Session) (l : LayoutId) (tag? : Option Tag) (ix : Nat)
    (fs : List LayoutField) : Merges l (loadAttributes session tag? ix fs) fun n =>
      if n < ix then [] else (fs[n - ix]?).elim [] (·.saidByAttribute session tag?) := by
  induction fs generalizing ix with
  | nil => exact (Merges.done l).congr (fun _ _ => rfl) fun n => by simp
  | cons f fs ih =>
    have hfirst : Merges l (fun c => match f.placement, f.kind, tag?.bind (·.attribute? f.name) with
        | .attr, .scalar codec, some text => c.storeText session ix f.name codec text
        | _, _, _ => .done c) fun n => if n = ix then f.saidByAttribute session tag? else [] := by
      unfold LayoutField.saidByAttribute
      split
      · exact Merges.setAt fun c _ => finished?_storeText ix f.name _ _ c
      · exact (Merges.done l).congr (fun _ _ => rfl) fun n => by simp
    refine (hfirst.andThen (ih (ix + 1))).congr (fun _ _ => rfl) ?_
    intro n
    rcases Nat.lt_trichotomy n ix with hlt | rfl | hgt
    · simp [hlt, Nat.ne_of_lt hlt, Nat.lt_succ_of_lt hlt]
    · simp
    · obtain ⟨m, rfl⟩ : ∃ m, n = ix + 1 + m := ⟨n - (ix + 1), by omega⟩
      have hnot : ¬ ix + 1 + m < ix := by omega
      have hne : ix + 1 + m ≠ ix := by omega
      have hnot' : ¬ ix + 1 + m < ix + 1 := by omega
      have hsub : ix + 1 + m - ix = m + 1 := by omega
      simp [hnot, hne, hnot', hsub]

theorem merges_loadElement (l : LayoutId) (tag : Tag) (content : Forest) :
    Merges l (loadElement cat session tag content) fun ix =>
      if (cat.layout l).elementPosition? tag.name = some ix then
        ((cat.layout l).fields[ix]?).elim [] fun f => [f.told? cat session ⟨some tag, content⟩]
      else [] := by
  cases hpos : (cat.layout l).elementPosition? tag.name with
  | none =>
    refine (Merges.skip l content).congr ?_ fun _ => by simp
    rintro c rfl
    simp only [loadElement, hpos]
  | some ix =>
    cases hf : (cat.layout l).fields[ix]? with
    | none =>
      refine (Merges.skip l content).congr ?_ ?_
      · rintro c rfl
        simp only [loadElement, hpos, hf]
      · intro n
        by_cases hn : ix = n
        · subst hn
          simp [hf]
        · simp [hn]
    | some f =>
      have hset : Merges l (loadElement cat session tag content) fun n =>
          if n = ix then [f.told? cat session ⟨some tag, content⟩] else [] := by
        apply Merges.setAt
        rintro c rfl
        obtain ⟨name, placement, kind⟩ := f
        cases kind with
        | scalar codec =>
          simp only [loadElement, hpos, hf]
          exact finished?_storeValue ix name codec _ c
        | nested inner =>
          simp only [loadElement, hpos, hf, LayoutField.told?, Composite.load, Option.map_map]
          unfold Progress.finished? Progress.map
          cases hstop : (loadBy cat session ⟨some tag, content⟩ (loadElements cat session content)
            (new cat inner)).stop? with
          | none => simp
          | some s => simp
      refine hset.congr (fun _ _ => rfl) ?_
      intro n
      by_cases hn : ix = n
      · subst hn
        simp [hf]
      · simp [hn, Ne.symm hn]

/-- What is read of a composite's element once its attributes were read: the text of a text field, or
else the child elements. -/
theorem merges_loadContent (cat : Catalog) (session : Session) (l : LayoutId) (site : Site) :
    Merges l (fun c => match (cat.layout l).textPosition? with
      | none => loadElements cat session site.content c
      | some ix =>
        match (cat.layout l).fields[ix]? with
        | some ⟨name, _, .scalar codec⟩ => c.storeValue session ix name codec site
        | _ =>
          match site.value with
          | .error e => .halt c e
          | .ok _ => .done c) fun ix => ((cat.layout l).fields[ix]?).elim [] fun f =>
            match (cat.layout l).textPosition? with
            | some n => if n = ix then f.saidByText cat session site else []
            | none =>
              (site.content.elements.filter fun x =>
                (cat.layout l).elementPosition? x.1.name = some ix).map fun x =>
                  f.told? cat session ⟨some x.1, x.2⟩ := by
  cases htext : (cat.layout l).textPosition? with
  | none =>
    have hwalk : Merges l (site.content.walk (loadElement cat session)) _ :=
      Merges.walk fun x _ => merges_loadElement l x.1 x.2
    refine hwalk.congr (fun c _ => by rw [loadElements_eq_walk]) ?_
    intro ix
    cases hf : (cat.layout l).fields[ix]? with
    | none => simp
    | some f => exact (flatMap_ite_map _ _ _).symm
  | some n =>
    dsimp only
    split
    · rename_i name placement codec hf
      refine (Merges.setAt fun c _ => finished?_storeValue n name codec site c).congr
        (fun _ _ => rfl) ?_
      intro ix
      by_cases hn : n = ix
      · subst hn
        simp [hf, LayoutField.saidByText, LayoutField.told?]
      · cases (cat.layout l).fields[ix]? <;> simp [hn, Ne.symm hn]
    · rename_i hscalar
      have hnothing : ∀ ix, (((cat.layout l).fields[ix]?).elim [] fun f =>
          if n = ix then f.saidByText cat session site else []) = [] := by
        intro ix
        cases hf : (cat.layout l).fields[ix]? with
        | none => rfl
        | some f =>
          obtain ⟨name, placement, kind⟩ := f
          by_cases hn : n = ix
          · subst hn
            cases kind with
            | scalar codec => exact absurd hf (hscalar name placement codec)
            | nested inner => simp [LayoutField.saidByText]
          · simp [hn]
      cases hvalue : site.value with
      | error e => exact Merges.fails (fun c _ => by simp) _
      | ok text => exact (Merges.done l).congr (fun _ _ => rfl) hnothing

/-- Reading an element overwrites each field with the last that is said of it. -/
theorem merges_load (cat : Catalog) (session : Session) (l : LayoutId) (site : Site) :
    Merges l (load cat session site) ((cat.layout l).said cat session site) := by
  have hattributes := merges_loadAttributes session l site.tag? 0 (cat.layout l).fields
  refine (hattributes.andThen (merges_loadContent cat session l site)).congr ?_ ?_
  · rintro c rfl
    rfl
  · intro ix
    unfold Layout.said
    cases (cat.layout l).fields[ix]? <;> simp

end Composite

end ObjectTracking
