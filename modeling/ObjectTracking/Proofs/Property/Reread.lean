import ObjectTracking.Proofs.Composite.Merged
import ObjectTracking.Proofs.Property.Reading
/-!
What reading makes of a value that is held. A composite is overwritten field by field, or replaced if
its element has no wrapper or several. A collection is filled anew; of the one that was held nothing
is left but the name of its items' elements, which need not be that of the property.
-/
set_option autoImplicit false

namespace ObjectTracking
open Markup

def Markup.Tag.IsWrapper (tag : Tag) (wrapper : String) : Prop :=
  tag.ns = some .types ∧ tag.name = wrapper

instance (tag : Tag) (wrapper : String) : Decidable (tag.IsWrapper wrapper) :=
  inferInstanceAs (Decidable (_ ∧ _))

def Composite.readInto (cat : Catalog) (l : LayoutId) : Option Value → Composite
  | some (.composite c) => if c.layout = l then c else Composite.new cat l
  | _ => Composite.new cat l

def Collection.readInto (l : LayoutId) (element : String) : Option Value → Collection
  | some (.collection c) => if c.layout = l then c else Collection.new l element
  | _ => Collection.new l element

theorem Composite.layout_readInto (cat : Catalog) (l : LayoutId) (held : Option Value) :
    (readInto cat l held).layout = l := by
  unfold readInto
  split
  · split
    · assumption
    · rfl
  · rfl

theorem Composite.readInto_of_layout {cat : Catalog} {l : LayoutId} {c : Composite}
    (h : c.layout = l) : readInto cat l (some (.composite c)) = c := if_pos h

theorem Collection.layout_readInto (l : LayoutId) (element : String) (held : Option Value) :
    (readInto l element held).layout = l := by
  unfold readInto
  split
  · split
    · assumption
    · rfl
  · rfl

section Collection
variable {cat : Catalog} {session : Session} {k : Option Link}

theorem Collection.loadItem_attach (tag : Tag) (content : Forest) (c : Collection) :
    (c.attach k).loadItem cat session tag content =
      (c.loadItem cat session tag content).map (·.attach k) := by
  unfold Collection.loadItem
  by_cases h : tag.name = c.element
  · have h' : tag.name = (c.attach k).element := h
    rw [if_pos h, if_pos h']
    cases hstop : ((Composite.new cat c.layout).load cat session ⟨some tag, content⟩).stop? with
    | some s => simp [Progress.map, Collection.attach, hstop]
    | none => simp [Progress.map, Collection.attach, hstop]
  · have h' : ¬ tag.name = (c.attach k).element := h
    rw [if_neg h, if_neg h']
    unfold Forest.skip
    split <;> rfl

/-- Up to the link, a collection that was read depends only on the layout and the name of the items
that it was read into. -/
theorem Collection.load_attach (cat : Catalog) (session : Session) (k : Option Link)
    (content : Forest) (c : Collection) :
    (c.load cat session content).map (·.attach k) =
      content.walk (loadItem cat session) ⟨c.layout, c.element, [], [], k⟩ :=
  (Forest.walk_map (g := (·.attach k)) (fun tag content c => loadItem_attach tag content c) content
    { c with entries := [], removed := [] }).symm

end Collection

namespace Shape
variable {cat : Catalog} {session : Session} {property wrapper : String} {inner shape : Shape}
  {l : LayoutId}

/-- What the shape reads from an element, given what is held. -/
def outcome (cat : Catalog) (session : Session) (property : String) (shape : Shape)
    (x : Tag × Forest) (held : Option Value) : Option Value :=
  (shape.decode cat session property ⟨some x.1, x.2⟩ held).finished?

/-- What is read from wrappers, the first of them into what is held. -/
def unwrap (cat : Catalog) (session : Session) (property : String) (inner : Shape) :
    List (Tag × Forest) → Option Value → Value → Option Value
  | [], _, v => some v
  | x :: xs, held, _ =>
    (inner.outcome cat session property x held).bind (unwrap cat session property inner xs none)

def wrappers (wrapper : String) (content : Forest) : List (Tag × Forest) :=
  content.elements.filter fun x => x.1.IsWrapper wrapper

theorem loadWrapper_of_isWrapper {tag : Tag} (h : tag.IsWrapper wrapper) (content : Forest)
    (s : Option Value × Value) : loadWrapper cat session property wrapper inner tag content s =
      (inner.decode cat session property ⟨some tag, content⟩ s.1).map (none, ·) := if_pos h

theorem loadWrapper_of_not_isWrapper {tag : Tag} (h : ¬ tag.IsWrapper wrapper) (content : Forest)
    (s : Option Value × Value) :
    loadWrapper cat session property wrapper inner tag content s = content.skip s := if_neg h

/-- Unless something in it cannot be passed over, what is read of a content is what is read from the
wrappers in it. -/
theorem walk_loadWrapper (cat : Catalog) (session : Session) (property wrapper : String)
    (inner : Shape) (content : Forest) : ∃ passes : Bool, ∀ s : Option Value × Value,
      (content.walk (loadWrapper cat session property wrapper inner) s).finished?.map Prod.snd =
        if passes then unwrap cat session property inner (wrappers wrapper content) s.1 s.2
        else none := by
  induction content with
  | closed => exact ⟨true, fun s => rfl⟩
  | cut => exact ⟨false, fun s => rfl⟩
  | text _ rest ih =>
    obtain ⟨passes, hrest⟩ := ih
    refine ⟨passes, ?_⟩
    intro s
    simpa [Forest.walk, wrappers, Forest.elements] using hrest s
  | element tag content rest _ ih =>
    obtain ⟨passes, hrest⟩ := ih
    by_cases hwrapper : tag.IsWrapper wrapper
    · refine ⟨passes, ?_⟩
      intro s
      have hwrappers : wrappers wrapper (.element tag content rest) =
          (tag, content) :: wrappers wrapper rest := List.filter_cons_of_pos (by simpa)
      rw [hwrappers, Forest.walk, Progress.finished?_andThen, Progress.finished?_later,
        loadWrapper_of_isWrapper hwrapper, Progress.finished?_map, unwrap, outcome]
      cases (inner.decode cat session property ⟨some tag, content⟩ s.1).finished? with
      | none => simp
      | some v => simpa using hrest (none, v)
    · have hwrappers : wrappers wrapper (.element tag content rest) = wrappers wrapper rest :=
        List.filter_cons_of_neg (by simpa)
      refine ⟨content.isClosed && passes, ?_⟩
      intro s
      rw [hwrappers, Forest.walk, Progress.finished?_andThen, Progress.finished?_later,
        loadWrapper_of_not_isWrapper hwrapper]
      cases hclosed : content.isClosed with
      | false => simp [Forest.skip, hclosed]
      | true => simpa [Forest.skip, hclosed] using hrest s

theorem outcome_contained (cat : Catalog) (session : Session) (property wrapper : String)
    (inner : Shape) (x : Tag × Forest) : ∃ passes : Bool, ∀ held,
      (contained wrapper inner).outcome cat session property x held =
        if passes then unwrap cat session property inner (wrappers wrapper x.2) held .null
        else none := by
  obtain ⟨passes, hwalk⟩ := walk_loadWrapper cat session property wrapper inner x.2
  refine ⟨passes, ?_⟩
  intro held
  rw [outcome, decode_contained, Progress.finished?_map]
  exact hwalk (held, .null)

theorem unwrap_eq_some {xs : List (Tag × Forest)} {v w : Value}
    (h : unwrap cat session property inner xs none v = some w) :
    w = v ∨ ∃ x, inner.outcome cat session property x none = some w := by
  induction xs generalizing v with
  | nil => exact .inl (Option.some.inj h).symm
  | cons x xs ih =>
    obtain ⟨u, hu, hrest⟩ := Option.bind_eq_some_iff.mp h
    rcases ih hrest with rfl | hx
    · exact .inr ⟨x, hu⟩
    · exact .inr hx

/-- How the wrappers in an element are read: something in between cannot be passed over, or there is
no wrapper, one, or several. What is read from the first of several only has to be readable. -/
inductive ReadsWrappers (cat : Catalog) (session : Session) (property : String) (inner : Shape) :
    (Option Value → Option Value) → Prop where
  | stuck : ReadsWrappers cat session property inner fun _ => none
  | empty : ReadsWrappers cat session property inner fun _ => some .null
  | one (y : Tag × Forest) :
      ReadsWrappers cat session property inner (inner.outcome cat session property y)
  | several (y : Tag × Forest) {last? : Option Value}
      (hlast : ∀ v, last? = some v → ∃ z, inner.outcome cat session property z none = some v) :
      ReadsWrappers cat session property inner fun held =>
        (inner.outcome cat session property y held).bind fun _ => last?

theorem readsWrappers_outcome (cat : Catalog) (session : Session) (property wrapper : String)
    (inner : Shape) (x : Tag × Forest) : ReadsWrappers cat session property inner
      ((contained wrapper inner).outcome cat session property x) := by
  obtain ⟨passes, houtcome⟩ := outcome_contained cat session property wrapper inner x
  rw [funext houtcome]
  cases passes with
  | false => exact .stuck
  | true =>
    match wrappers wrapper x.2 with
    | [] => exact .empty
    | [y] =>
      simp only [if_true, unwrap, Option.bind_fun_some]
      exact .one y
    | y :: z :: zs =>
      refine .several y ?_
      intro v hv
      obtain ⟨u, hu, hlater⟩ := Option.bind_eq_some_iff.mp hv
      rcases unwrap_eq_some hlater with rfl | hx
      · exact ⟨z, hu⟩
      · exact hx

theorem bind_eq_of_isSome {v? w? : Option Value} (h : v?.isSome = w?.isSome)
    (last? : Option Value) : (v?.bind fun _ => last?) = w?.bind fun _ => last? := by
  cases v? <;> cases w? <;> simp at h ⊢

/-- A reading of a composite. Whether it succeeds does not depend on what is held, and either nothing
of that is left, or its fields are overwritten. -/
structure Rewrites (cat : Catalog) (l : LayoutId) (read : Option Value → Option Value) : Prop where
  uniform : ∀ held held', (read held).isSome = (read held').isSome
  result : (∀ held held', read held = read held') ∨ ∃ told, ∀ held v, read held = some v →
    ∃ c, v = .composite c ∧ Composite.Overwritten told (Composite.readInto cat l held) c

theorem rewrites_of_const {read : Option Value → Option Value}
    (h : ∀ held held', read held = read held') : Rewrites cat l read :=
  ⟨fun held held' => congrArg Option.isSome (h held held'), .inl h⟩

theorem rewrites_composite (cat : Catalog) (session : Session) (property : String) (l : LayoutId)
    (x : Tag × Forest) : Rewrites cat l ((composite l).outcome cat session property x) := by
  have hmerges := Composite.merges_load cat session l ⟨some x.1, x.2⟩
  have houtcome : ∀ held, (composite l).outcome cat session property x held =
      ((Composite.readInto cat l held).load cat session ⟨some x.1, x.2⟩).finished?.map
        .composite := fun held => Progress.finished?_map _ _
  -- What is told is the same whatever is held, so it may be taken from any reading.
  by_cases hread : ∃ held v, (composite l).outcome cat session property x held = some v
  · obtain ⟨held, v, hv⟩ := hread
    rw [houtcome] at hv
    obtain ⟨c, hc, -⟩ := Option.map_eq_some_iff.mp hv
    obtain ⟨told, hsaid, -⟩ := hmerges.told _ c (Composite.layout_readInto ..) hc
    refine ⟨?_, .inr ⟨told, ?_⟩⟩
    · intro held held'
      rw [houtcome, houtcome, Option.isSome_map, Option.isSome_map]
      exact hmerges.uniform _ _ (Composite.layout_readInto ..) (Composite.layout_readInto ..)
    · intro held' v' hv'
      rw [houtcome] at hv'
      obtain ⟨c', hc', rfl⟩ := Option.map_eq_some_iff.mp hv'
      obtain ⟨told', hsaid', ho⟩ := hmerges.told _ c' (Composite.layout_readInto ..) hc'
      have htold : told' = told := by
        funext ix
        exact (List.map_inj_right fun _ _ => Option.some.inj).mp ((hsaid' ix).symm.trans (hsaid ix))
      exact ⟨c', rfl, htold ▸ ho⟩
  · have hnone : ∀ held, (composite l).outcome cat session property x held = none := by
      intro held
      apply Option.eq_none_iff_forall_not_mem.mpr
      intro v hv
      exact hread ⟨held, v, hv⟩
    exact rewrites_of_const fun held held' => (hnone held).trans (hnone held').symm

theorem rewrites_outcome (h : shape.innermost = .composite l) (cat : Catalog) (session : Session)
    (property : String) (x : Tag × Forest) :
    Rewrites cat l (shape.outcome cat session property x) := by
  induction shape generalizing x with
  | scalar codec => cases h
  | dateTime zoneUri => cases h
  | collection l' element => cases h
  | composite l' =>
    obtain rfl : l' = l := by cases h; rfl
    exact rewrites_composite cat session property l' x
  | indexed key inner ih => exact ih h x
  | contained wrapper inner ih =>
    have hread := readsWrappers_outcome cat session property wrapper inner x
    generalize (contained wrapper inner).outcome cat session property x = read at hread ⊢
    cases hread with
    | stuck => exact rewrites_of_const fun _ _ => rfl
    | empty => exact rewrites_of_const fun _ _ => rfl
    | one y => exact ih h y
    | several y _ =>
      exact rewrites_of_const fun held held' => bind_eq_of_isSome ((ih h y).uniform held held') _

/-- The name that the items of the collection that is held go by, if they are of the shape's layout but
the shape has another name for them. -/
def foreignName? (shape : Shape) (held : Option Value) : Option String :=
  match shape.innermost, held with
  | .collection l element, some (.collection c) =>
    if c.layout = l ∧ c.element ≠ element then some c.element else none
  | _, _ => none

theorem element_readInto (l : LayoutId) (element : String) (held : Option Value) :
    (Collection.readInto l element held).element =
      ((collection l element).foreignName? held).getD element := by
  match held with
  | some (.collection c) =>
    by_cases hlayout : c.layout = l
    · by_cases helement : c.element = element
      · simp [Collection.readInto, foreignName?, innermost, hlayout, helement]
      · simp [Collection.readInto, foreignName?, innermost, hlayout, helement]
    · simp [Collection.readInto, foreignName?, innermost, hlayout, Collection.new]
  | none => rfl
  | some .null => rfl
  | some (.scalar s) => rfl
  | some (.composite c) => rfl

theorem foreignName?_readInto (l : LayoutId) (element : String) (held : Option Value) :
    (collection l element).foreignName? (some (.collection (Collection.readInto l element held))) =
      (collection l element).foreignName? held := by
  have hnew : (collection l element).foreignName? (some (.collection (Collection.new l element))) =
      none := by
    simp [foreignName?, innermost, Collection.new]
  match held with
  | some (.collection c) =>
    by_cases hlayout : c.layout = l
    · rw [Collection.readInto, if_pos hlayout]
    · rw [Collection.readInto, if_neg hlayout, hnew]
      simp [foreignName?, innermost, hlayout]
  | none => exact hnew
  | some .null => exact hnew
  | some (.scalar s) => exact hnew
  | some (.composite c) => exact hnew

theorem foreignName?_of_same {c c' : Collection} (hlayout : c'.layout = c.layout)
    (helement : c'.element = c.element) : shape.foreignName? (some (.collection c')) =
      shape.foreignName? (some (.collection c)) := by
  unfold foreignName?
  cases shape.innermost <;> simp [hlayout, helement]

theorem foreignName?_none (shape : Shape) : shape.foreignName? none = none := by
  unfold foreignName?
  cases shape.innermost <;> rfl

theorem foreignName?_null (shape : Shape) : shape.foreignName? (some .null) = none := by
  unfold foreignName?
  cases shape.innermost <;> rfl

/-- A reading of anything but a composite. Of what is held only the name of a collection's items
matters, and if that is not what is left, then what is left is what is read into nothing. -/
structure Refills (shape : Shape) (read : Option Value → Option Value) : Prop where
  same : ∀ held held', shape.foreignName? held = shape.foreignName? held' → ∀ k : Link,
    (read held).map (·.attach k) = (read held').map (·.attach k)
  name : ∀ held v, read held = some v → shape.foreignName? (some v) = shape.foreignName? held ∨
    shape.foreignName? (some v) = none ∧ ∀ w, read none = some w → w = v

theorem refills_of_const {read : Option Value → Option Value}
    (h : ∀ held held', read held = read held')
    (hname : ∀ held v, read held = some v → shape.foreignName? (some v) = none) :
    shape.Refills read := by
  refine ⟨fun held held' _ k => by rw [h held held'], ?_⟩
  intro held v hv
  refine .inr ⟨hname held v hv, ?_⟩
  intro w hw
  rw [h none held, hv] at hw
  exact (Option.some.inj hw).symm

/-- What is left of several wrappers is what the last of them says, if the first one can be read. -/
theorem Refills.several {read : Option Value → Option Value} (h : shape.Refills read)
    {last? : Option Value} (hlast : ∀ v, last? = some v → shape.foreignName? (some v) = none) :
    shape.Refills fun held => (read held).bind fun _ => last? := by
  refine ⟨?_, ?_⟩
  · intro held held' hheld k
    have hsome := congrArg Option.isSome (h.same held held' hheld k)
    rw [Option.isSome_map, Option.isSome_map] at hsome
    rw [bind_eq_of_isSome hsome last?]
  · intro held v hv
    obtain ⟨-, -, hv⟩ := Option.bind_eq_some_iff.mp hv
    refine .inr ⟨hlast v hv, ?_⟩
    intro w hw
    obtain ⟨-, -, hw⟩ := Option.bind_eq_some_iff.mp hw
    exact Option.some.inj (hw.symm.trans hv)

theorem refills_collection (cat : Catalog) (session : Session) (property : String) (l : LayoutId)
    (element : String) (x : Tag × Forest) :
    (collection l element).Refills ((collection l element).outcome cat session property x) := by
  have houtcome : ∀ held, (collection l element).outcome cat session property x held =
      ((Collection.readInto l element held).load cat session x.2).finished?.map .collection :=
    fun held => Progress.finished?_map _ _
  have hattach : ∀ (k : Link) held,
      ((collection l element).outcome cat session property x held).map (·.attach k) =
        (x.2.walk (Collection.loadItem cat session) ⟨l,
          ((collection l element).foreignName? held).getD element, [], [], some k⟩).finished?.map
            .collection := by
    intro k held
    have hload := Collection.load_attach cat session (some k) x.2
      (Collection.readInto l element held)
    rw [Collection.layout_readInto, element_readInto] at hload
    rw [houtcome, ← hload, Progress.finished?_map, Option.map_map, Option.map_map]
    rfl
  refine ⟨?_, ?_⟩
  · intro held held' hname k
    rw [hattach, hattach, hname]
  · intro held v hv
    left
    rw [houtcome] at hv
    obtain ⟨c, hc, rfl⟩ := Option.map_eq_some_iff.mp hv
    obtain rfl := Progress.state_of_finished? hc
    rw [← foreignName?_readInto l element held]
    exact foreignName?_of_same (Collection.layout_load ..) (Collection.element_load ..)

theorem refills_outcome (h : ∀ l, shape.innermost ≠ .composite l) (cat : Catalog)
    (session : Session) (property : String) (x : Tag × Forest) :
    shape.Refills (shape.outcome cat session property x) := by
  induction shape generalizing x with
  | scalar codec => exact refills_of_const (fun _ _ => rfl) fun _ _ _ => rfl
  | dateTime zoneUri => exact refills_of_const (fun _ _ => rfl) fun _ _ _ => rfl
  | composite l => exact absurd rfl (h l)
  | collection l element => exact refills_collection cat session property l element x
  | indexed key inner ih => exact ⟨(ih h x).same, (ih h x).name⟩
  | contained wrapper inner ih =>
    have hread := readsWrappers_outcome cat session property wrapper inner x
    generalize (contained wrapper inner).outcome cat session property x = read at hread ⊢
    cases hread with
    | stuck => exact refills_of_const (fun _ _ => rfl) (by rintro _ _ ⟨⟩)
    | empty =>
      refine refills_of_const (fun _ _ => rfl) ?_
      rintro _ _ ⟨⟩
      exact foreignName?_null _
    | one y => exact ⟨(ih h y).same, (ih h y).name⟩
    | several y hlast =>
      have hseveral := (ih h y).several (by
        intro v hv
        obtain ⟨z, hz⟩ := hlast v hv
        rcases (ih h z).name none v hz with heq | ⟨hnone, -⟩
        · rw [heq, foreignName?_none]
        · exact hnone)
      exact ⟨hseveral.same, hseveral.name⟩

end Shape

end ObjectTracking
