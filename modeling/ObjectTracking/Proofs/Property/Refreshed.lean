import ObjectTracking.Proofs.Composite.Fits
import ObjectTracking.Proofs.Property.Reread
/-!
What several elements, one after the other, make of the value that is held of a property. To read them
all once more changes nothing, unless a collection was held whose items go by another name than those
of the property.
-/
set_option autoImplicit false

namespace ObjectTracking
open Markup

/-- A condition on readings that two readings in a row satisfy if both do is satisfied by any number
of them. -/
theorem foldlM_of_comp {σ α : Type} {P : (σ → Option σ) → Prop} {f : σ → α → Option σ}
    (hcomp : ∀ g h, P g → P h → P fun s => (g s).bind h) {x : α} {xs : List α}
    (h : ∀ y ∈ x :: xs, P (f · y)) : P fun s => (x :: xs).foldlM f s := by
  induction xs generalizing x with
  | nil =>
    have hone := h x List.mem_cons_self
    simpa using hone
  | cons y ys ih =>
    have hrest := ih fun z hz => h z (List.mem_cons_of_mem x hz)
    exact hcomp _ _ (h x List.mem_cons_self) hrest

namespace Property
variable {q : Property} {cat : Catalog} {session : Session} {link : Link} {l : LayoutId}
  {held held' : Option Value}

def store (link : Link) (v : Value) : Option Value :=
  if v.isNull then none else some (v.attach link)

/-- What is held of a property once one of its elements was read, unless that cannot be read. -/
def readOver (q : Property) (cat : Catalog) (session : Session) (link : Link) (x : Tag × Forest)
    (held : Option Value) : Option (Option Value) :=
  (q.shape.outcome cat session q.name x
    (if q.has .reuseInstance session.version then held else none)).map (store link)

def readAll (q : Property) (cat : Catalog) (session : Session) (link : Link)
    (xs : List (Tag × Forest)) (held : Option Value) : Option (Option Value) :=
  xs.foldlM (fun held x => q.readOver cat session link x held) held

/-- The name of the items of the collection that is held, if reading will keep it although the property
has another name for them. -/
def foreignName? (q : Property) (session : Session) (held : Option Value) : Option String :=
  if q.has .reuseInstance session.version then q.shape.foreignName? held else none

/-- Readings that overwrite the fields of a composite or leave nothing of it. -/
structure Rewrites (cat : Catalog) (l : LayoutId) (link : Link)
    (read : Option Value → Option (Option Value)) : Prop where
  uniform : ∀ held held', (read held).isSome = (read held').isSome
  result : (∀ held held', read held = read held') ∨ ∃ told, ∀ held w, read held = some w →
    ∃ c, w = some (.composite c) ∧ c.attach link = c ∧
      Composite.Overwritten told ((Composite.readInto cat l held).attach link) c

/-- Readings for which only the name of a collection's items matters. -/
structure Refills (name? : Option Value → Option String)
    (read : Option Value → Option (Option Value)) : Prop where
  same : ∀ held held', name? held = name? held' → read held = read held'
  name : ∀ held w, read held = some w → name? w = name? held ∨
    name? w = none ∧ ∀ u, read none = some u → u = w

namespace Rewrites
variable {read read' : Option Value → Option (Option Value)}

theorem comp (h : Rewrites cat l link read) (h' : Rewrites cat l link read') :
    Rewrites cat l link fun held => (read held).bind read' := by
  have huniform : ∀ held held',
      ((read held).bind read').isSome = ((read held').bind read').isSome := by
    intro held held'
    have hsome := h.uniform held held'
    cases hw : read held with
    | none =>
      cases hw' : read held' with
      | none => rfl
      | some w' => simp [hw, hw'] at hsome
    | some w =>
      cases hw' : read held' with
      | none => simp [hw, hw'] at hsome
      | some w' => exact h'.uniform w w'
  refine ⟨huniform, ?_⟩
  rcases h.result with hconst | ⟨told, htold⟩
  · exact .inl fun held held' => by rw [hconst held held']
  · rcases h'.result with hconst' | ⟨told', htold'⟩
    · refine .inl ?_
      intro held held'
      have hsome := h.uniform held held'
      cases hw : read held with
      | none =>
        cases hw' : read held' with
        | none => rfl
        | some w' => simp [hw, hw'] at hsome
      | some w =>
        cases hw' : read held' with
        | none => simp [hw, hw'] at hsome
        | some w' => exact hconst' w w'
    · refine .inr ⟨fun ix => told ix ++ told' ix, ?_⟩
      intro held w hw
      obtain ⟨_, hread, hread'⟩ := Option.bind_eq_some_iff.mp hw
      obtain ⟨c, rfl, hc, ho⟩ := htold _ _ hread
      obtain ⟨c', rfl, hc', ho'⟩ := htold' _ _ hread'
      have hlayout : c.layout = l := by
        rw [ho.layout, Composite.layout_attach, Composite.layout_readInto]
      rw [Composite.readInto_of_layout hlayout, hc] at ho'
      exact ⟨c', rfl, hc', ho.trans ho'⟩

/-- A reading that is repeated changes nothing. -/
theorem again (h : Rewrites cat l link read) {w : Option Value} (hw : read held = some w) :
    read w = some w := by
  rcases h.result with hconst | ⟨told, htold⟩
  · rw [hconst w held, hw]
  · obtain ⟨w', hw'⟩ : ∃ w', read w = some w' := by
      apply Option.isSome_iff_exists.mp
      rw [h.uniform w held, hw]
      rfl
    obtain ⟨c, rfl, hc, ho⟩ := htold _ _ hw
    obtain ⟨c', rfl, hc', ho'⟩ := htold _ _ hw'
    have hlayout : c.layout = l := by
      rw [ho.layout, Composite.layout_attach, Composite.layout_readInto]
    rw [Composite.readInto_of_layout hlayout, hc] at ho'
    rw [hw', ho.again ho']

end Rewrites

namespace Refills
variable {name? : Option Value → Option String} {read read' : Option Value → Option (Option Value)}

theorem comp (hnone : name? none = none) (h : Refills name? read) (h' : Refills name? read') :
    Refills name? fun held => (read held).bind read' := by
  refine ⟨fun held held' hname => by rw [h.same held held' hname], ?_⟩
  intro held w hw
  obtain ⟨v, hread, hread'⟩ := Option.bind_eq_some_iff.mp hw
  rcases h.name held v hread with hname | ⟨hname, hfirst⟩
  · rcases h'.name v w hread' with hname' | ⟨hname', hlast⟩
    · exact .inl (hname'.trans hname)
    · refine .inr ⟨hname', ?_⟩
      intro u hu
      obtain ⟨y, hy, hu⟩ := Option.bind_eq_some_iff.mp hu
      have hnone' : name? y = name? none := by
        rcases h.name none y hy with heq | ⟨heq, -⟩
        · exact heq
        · rw [heq, hnone]
      rw [h'.same y none hnone'] at hu
      exact hlast u hu
  · have hname' : name? w = none := by
      rcases h'.name v w hread' with heq | ⟨heq, -⟩
      · rw [heq, hname]
      · exact heq
    refine .inr ⟨hname', ?_⟩
    intro u hu
    obtain ⟨y, hy, hu⟩ := Option.bind_eq_some_iff.mp hu
    rw [hfirst y hy] at hu
    exact Option.some.inj (hu.symm.trans hread')

/-- A reading that is repeated changes nothing, if it can be done. -/
theorem again (hnone : name? none = none) (h : Refills name? read) {w u : Option Value}
    (hw : read held = some w) (hu : read w = some u) : u = w := by
  rcases h.name held w hw with hname | ⟨hname, hfirst⟩
  · rw [h.same w held hname, hw] at hu
    exact (Option.some.inj hu).symm
  · rw [h.same w none (hname.trans hnone.symm)] at hu
    exact hfirst u hu

/-- A reading can be repeated unless it replaced a collection of another name and could not have been
done without it. -/
theorem again_iff (hnone : name? none = none) (h : Refills name? read) {w : Option Value}
    (hw : read held = some w) : read w = some w ↔
      (name? held ≠ none → name? w = none → ∃ u, read none = some u) := by
  constructor
  · intro hagain _ hgone
    exact ⟨w, (h.same none w (hnone.trans hgone.symm)).trans hagain⟩
  · intro hread
    by_cases hsame : name? w = name? held
    · rw [h.same w held hsame, hw]
    · obtain ⟨hgone, hfirst⟩ := (h.name held w hw).resolve_left hsame
      obtain ⟨u, hu⟩ := hread (fun hheld => hsame (hgone.trans hheld.symm)) hgone
      rw [h.same w none (hgone.trans hnone.symm), hu, hfirst u hu]

end Refills

theorem foreignName?_none (q : Property) (session : Session) : q.foreignName? session none = none := by
  unfold foreignName? Shape.foreignName?
  split
  · cases q.shape.innermost <;> rfl
  · rfl

theorem foreignName?_store (shape : Shape) (link : Link) (v : Value) :
    shape.foreignName? (store link v) = shape.foreignName? (some v) := by
  unfold Shape.foreignName?
  cases shape.innermost <;> cases v <;> rfl

theorem rewrites_readOver (h : q.shape.innermost = .composite l) (cat : Catalog)
    (session : Session) (link : Link) (x : Tag × Forest) :
    Rewrites cat l link (q.readOver cat session link x) := by
  obtain ⟨huniform, hresult⟩ := q.shape.rewrites_outcome h cat session q.name x
  unfold readOver
  split
  · refine ⟨fun held held' => ?_, ?_⟩
    · rw [Option.isSome_map, Option.isSome_map, huniform]
    · rcases hresult with hconst | ⟨told, htold⟩
      · exact .inl fun held held' => by rw [hconst held held']
      · refine .inr ⟨fun ix => (told ix).map (Field.attach link), ?_⟩
        intro held w hw
        obtain ⟨v, hv, rfl⟩ := Option.map_eq_some_iff.mp hw
        obtain ⟨c, rfl, ho⟩ := htold held v hv
        exact ⟨c.attach link, rfl, Composite.attach_attach _ _ c, ho.attach link⟩
  · exact ⟨fun _ _ => rfl, .inl fun _ _ => rfl⟩

theorem refills_readOver (h : ∀ l, q.shape.innermost ≠ .composite l) (cat : Catalog)
    (session : Session) (link : Link) (x : Tag × Forest) :
    Refills (q.foreignName? session) (q.readOver cat session link x) := by
  obtain ⟨hsame, hname⟩ := q.shape.refills_outcome h cat session q.name x
  have hstore : ∀ v : Value, store link v = store link (v.attach link) := by
    intro v
    cases v <;> simp [store, Value.isNull, Value.attach]
  unfold readOver foreignName?
  split
  · refine ⟨?_, ?_⟩
    · intro held held' heq
      have hattach := congrArg (Option.map (store link)) (hsame held held' heq link)
      simpa only [Option.map_map, Function.comp_def, ← hstore] using hattach
    · intro held w hw
      obtain ⟨v, hv, rfl⟩ := Option.map_eq_some_iff.mp hw
      rw [foreignName?_store]
      rcases hname held v hv with heq | ⟨heq, hfirst⟩
      · exact .inl heq
      · refine .inr ⟨heq, ?_⟩
        intro u hu
        obtain ⟨v', hv', rfl⟩ := Option.map_eq_some_iff.mp hu
        rw [hfirst v' hv']
  · exact ⟨fun _ _ _ => rfl, fun _ _ _ => .inl rfl⟩

/-- Reading all elements of a property once more changes nothing, if it can be done, and it can be done
unless they replaced a collection of another name and could not have been read without it. -/
theorem readAll_again {xs : List (Tag × Forest)}
    (h : q.readAll cat session link xs held = some held') :
    (∀ w, q.readAll cat session link xs held' = some w → w = held') ∧
      (q.readAll cat session link xs held' = some held' ↔
        (q.foreignName? session held ≠ none → q.foreignName? session held' = none →
          ∃ w, q.readAll cat session link xs none = some w)) := by
  cases xs with
  | nil =>
    obtain rfl : held = held' := Option.some.inj h
    exact ⟨fun w hw => (Option.some.inj hw).symm,
      fun _ hheld hgone => absurd hgone hheld, fun _ => rfl⟩
  | cons x xs =>
    by_cases hshape : ∃ l, q.shape.innermost = .composite l
    · obtain ⟨l, hl⟩ := hshape
      have hrewrites : Rewrites cat l link (q.readAll cat session link (x :: xs)) :=
        foldlM_of_comp (fun _ _ => Rewrites.comp) fun y _ => rewrites_readOver hl cat session link y
      have hname : q.foreignName? session held = none := by
        unfold foreignName? Shape.foreignName?
        rw [hl]
        exact ite_self none
      have hagain := hrewrites.again h
      exact ⟨fun w hw => Option.some.inj (hw.symm.trans hagain),
        fun _ hheld => absurd hname hheld, fun _ => hagain⟩
    · have hrefills : Refills (q.foreignName? session) (q.readAll cat session link (x :: xs)) :=
        foldlM_of_comp (fun _ _ => Refills.comp (foreignName?_none q session)) fun y _ =>
          refills_readOver (not_exists.mp hshape) cat session link y
      exact ⟨fun w hw => hrefills.again (foreignName?_none q session) h hw,
        hrefills.again_iff (foreignName?_none q session) h⟩

end Property

end ObjectTracking
