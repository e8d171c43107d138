import ObjectTracking.Path
import ObjectTracking.Proofs.Composite.Fits
/-!
Edits keep that nested values fit. What a value fits matters only for layouts that are among some:
those that the properties of a type lead to. Values of other layouts may be anything, for no property
takes them.
-/
set_option autoImplicit false

namespace ObjectTracking

/-- Some layouts have no nested values of others. -/
def Catalog.Closed (cat : Catalog) (U : LayoutId → Prop) : Prop :=
  ∀ l, U l → ∀ f ∈ (cat.layout l).fields, ∀ inner, f.kind = .nested inner → U inner

theorem Catalog.closed_true (cat : Catalog) : cat.Closed fun _ => True :=
  fun _ _ _ _ _ _ => trivial

mutual

/-- A composite fits its layout if that is among some, and so does everything nested in it. -/
def Composite.FitsIn (cat : Catalog) (U : LayoutId → Prop) : Composite → Prop
  | .mk l k vs => (U l → (Composite.mk l k vs).Fits cat) ∧ Field.AllFitIn cat U vs

def Field.FitsIn (cat : Catalog) (U : LayoutId → Prop) : Field → Prop
  | .unset => True
  | .scalar _ => True
  | .nested c => c.FitsIn cat U

def Field.AllFitIn (cat : Catalog) (U : LayoutId → Prop) : List Field → Prop
  | [] => True
  | v :: vs => v.FitsIn cat U ∧ Field.AllFitIn cat U vs

end

def Collection.FitsIn (cat : Catalog) (U : LayoutId → Prop) (c : Collection) : Prop :=
  ∀ e ∈ c.entries, e.value.layout = c.layout ∧ e.value.FitsIn cat U

def Value.FitsIn (cat : Catalog) (U : LayoutId → Prop) : Value → Prop
  | .composite c => c.FitsIn cat U
  | .collection c => c.FitsIn cat U
  | _ => True

/-- A composite that can stand where another does. -/
structure Composite.Replaces (cat : Catalog) (U : LayoutId → Prop) (c c' : Composite) : Prop where
  layout : c'.layout = c.layout
  fits : c'.FitsIn cat U

structure Collection.Replaces (cat : Catalog) (U : LayoutId → Prop) (c c' : Collection) : Prop where
  layout : c'.layout = c.layout
  element : c'.element = c.element
  fits : c'.FitsIn cat U

variable {cat : Catalog} {U : LayoutId → Prop}

theorem Field.allFitIn_iff {vs : List Field} :
    Field.AllFitIn cat U vs ↔ ∀ v ∈ vs, v.FitsIn cat U := by
  induction vs with
  | nil => simp [Field.AllFitIn]
  | cons v vs ih => simp [Field.AllFitIn, ih]

theorem Composite.fitsIn_iff {c : Composite} :
    c.FitsIn cat U ↔ (U c.layout → c.Fits cat) ∧ ∀ v ∈ c.fields, v.FitsIn cat U := by
  obtain ⟨l, k, vs⟩ := c
  rw [Composite.FitsIn, Field.allFitIn_iff]
  rfl

mutual

/-- What fits a layout among some has nothing but those in it, if they are closed. -/
theorem Composite.Each.fitsIn (hU : cat.Closed U) :
    (c : Composite) → c.Each cat LayoutField.Holds → U c.layout → c.FitsIn cat U
  | .mk l _ vs, h, hl => ⟨fun _ => h, Field.allFitIn_of_eachOf hU _ vs h (hU l hl)⟩

theorem Field.fitsIn_of_each (hU : cat.Closed U) (f : LayoutField) : (v : Field) → f.Holds v →
    v.Each cat LayoutField.Holds → (∀ inner, f.kind = .nested inner → U inner) → v.FitsIn cat U
  | .unset, _, _, _ => trivial
  | .scalar _, _, _, _ => trivial
  | .nested c, hkind, h, hf => Composite.Each.fitsIn hU c h (hf c.layout hkind)

theorem Field.allFitIn_of_eachOf (hU : cat.Closed U) : (fs : List LayoutField) → (vs : List Field) →
    Field.EachOf cat LayoutField.Holds fs vs →
    (∀ f ∈ fs, ∀ inner, f.kind = .nested inner → U inner) → Field.AllFitIn cat U vs
  | [], [], _, _ => trivial
  | [], _ :: _, h, _ => h.elim
  | _ :: _, [], h, _ => h.elim
  | f :: fs, v :: vs, ⟨hv, heach, hrest⟩, hfs =>
    ⟨Field.fitsIn_of_each hU f v hv heach (hfs f List.mem_cons_self),
      Field.allFitIn_of_eachOf hU fs vs hrest fun g hg => hfs g (List.mem_cons_of_mem f hg)⟩

end

mutual

theorem Composite.fitsIn_attach (k : Option Link) :
    (c : Composite) → c.FitsIn cat U → (c.attach k).FitsIn cat U
  | .mk _ _ vs, ⟨hfits, hvs⟩ => ⟨fun hl => (hfits hl).attach k, Field.allFitIn_attachAll k vs hvs⟩

theorem Field.fitsIn_attach (k : Option Link) :
    (v : Field) → v.FitsIn cat U → (v.attach k).FitsIn cat U
  | .unset, _ => trivial
  | .scalar _, _ => trivial
  | .nested c, h => Composite.fitsIn_attach k c h

theorem Field.allFitIn_attachAll (k : Option Link) :
    (vs : List Field) → Field.AllFitIn cat U vs → Field.AllFitIn cat U (Field.attachAll k vs)
  | [], _ => trivial
  | v :: vs, ⟨hv, hvs⟩ => ⟨Field.fitsIn_attach k v hv, Field.allFitIn_attachAll k vs hvs⟩

end

theorem LayoutField.accept_fitsIn {f : LayoutField} {k : Option Link} {v : Value} {stored : Field}
    (hv : ∀ n, v = .composite n → n.FitsIn cat U) (h : f.accept k v = .ok stored) :
    f.Holds stored ∧ stored.FitsIn cat U := by
  unfold accept at h
  split at h
  · cases h
    exact ⟨trivial, trivial⟩
  · rename_i s codec hkind
    cases hs : codec.normalise f.name s with
    | error e => simp [hs, Except.map] at h
    | ok s' =>
      simp only [hs, Except.map, Except.ok.injEq] at h
      subst h
      exact ⟨⟨codec, hkind, Codec.normalise_stores hs⟩, trivial⟩
  · rename_i c l hkind
    split at h
    · rename_i hl
      cases h
      exact ⟨by simpa [Holds, hl] using hkind, Composite.fitsIn_attach k c (hv c rfl)⟩
    · cases h
  · cases h

namespace Composite
variable {c : Composite}

theorem fitsIn_new (cat : Catalog) (U : LayoutId → Prop) (l : LayoutId) :
    (new cat l).FitsIn cat U := by
  refine fitsIn_iff.mpr ⟨fun _ => new_fits cat l, ?_⟩
  intro v hv
  obtain ⟨-, -, rfl⟩ := List.mem_map.mp hv
  trivial

theorem FitsIn.fits (h : c.FitsIn cat U) (hl : U c.layout) : c.Fits cat := (fitsIn_iff.mp h).1 hl

theorem Fits.fitsIn (h : c.Fits cat) (hU : cat.Closed U) (hl : U c.layout) : c.FitsIn cat U :=
  Each.fitsIn hU c h hl

theorem FitsIn.field (h : c.FitsIn cat U) {n : Composite} (hn : Field.nested n ∈ c.fields) :
    n.FitsIn cat U := (fitsIn_iff.mp h).2 _ hn

/-- A field that holds what fits may be set. That the layout has the field matters only if it is among
those for which something has to fit. -/
theorem FitsIn.setAt (h : c.FitsIn cat U) (hU : cat.Closed U) {ix : Nat} {v : Field}
    (hf : U c.layout → ∃ f, (cat.layout c.layout).fields[ix]? = some f ∧ f.Holds v)
    (hv : v.FitsIn cat U) : c.Replaces cat U (c.setAt ix v) := by
  refine ⟨layout_setAt c ix v, fitsIn_iff.mpr ⟨?_, ?_⟩⟩
  · intro hl
    obtain ⟨f, hfield, hholds⟩ := hf hl
    have heach : v.Each cat LayoutField.Holds := by
      cases v with
      | nested n => exact FitsIn.fits hv (hU _ hl f (List.mem_of_getElem? hfield) n.layout hholds)
      | _ => trivial
    exact (h.fits hl).setAt hfield ⟨hholds, heach⟩
  · intro w hw
    rcases List.mem_or_eq_of_mem_set hw with hw | rfl
    · exact (fitsIn_iff.mp h).2 w hw
    · exact hv

theorem FitsIn.nested? (h : c.FitsIn cat U) {name : String} {ix : Nat} {n : Composite}
    (hn : c.nested? cat name = some (ix, n)) : n.FitsIn cat U := by
  rcases nested?_eq_some hn with ⟨l, -, rfl⟩ | hn
  · exact fitsIn_attach c.link _ (fitsIn_new cat U l)
  · exact h.field (List.mem_of_getElem? hn)

/-- What an edit keeps of every composite, it keeps of one in a field. -/
theorem FitsIn.editField {α : Type} {edit : Composite → Edited Composite α}
    (h : c.FitsIn cat U) (hU : cat.Closed U)
    (hedit : ∀ n : Composite, n.FitsIn cat U → n.Replaces cat U (edit n).state) (name : String) :
    c.Replaces cat U (c.editField cat name edit).state := by
  rcases editField_eq cat c name edit with ⟨ix, n, hn, heq⟩ | ⟨_, e, heq⟩
  · have hreplaces := hedit n (h.nested? hn)
    rw [heq, Edited.state_within]
    refine h.setAt hU ?_ hreplaces.fits
    intro hl
    obtain ⟨-, f, hf, hkind⟩ := (h.fits hl).nested? hn
    exact ⟨f, hf, by simpa only [LayoutField.Holds, hreplaces.layout] using hkind⟩
  · rw [heq]
    exact ⟨rfl, h⟩

theorem FitsIn.perform {edit : CompositeEdit} (h : c.FitsIn cat U) (hU : cat.Closed U)
    (hedit : ∀ n, edit.assigned? = some n → n.FitsIn cat U) :
    c.Replaces cat U (c.perform cat edit).state := by
  induction edit generalizing c with
  | touch => exact ⟨rfl, h⟩
  | set name v =>
    rcases set_eq cat c name v with ⟨ix, f, stored, hf, ha, heq⟩ | ⟨e, heq⟩
    · have hv : ∀ n, v = .composite n → n.FitsIn cat U := by
        rintro n rfl
        exact hedit n rfl
      obtain ⟨hholds, hstored⟩ := LayoutField.accept_fitsIn hv ha
      rw [Composite.perform, heq]
      exact h.setAt hU (fun _ => ⟨f, hf, hholds⟩) hstored
    · rw [Composite.perform, heq]
      exact ⟨rfl, h⟩
  | notify => exact ⟨rfl, h⟩
  | nested name edit ih => exact h.editField hU (fun n hn => ih hn hedit) name

/-- What an edit keeps of every composite, it keeps of one at the end of a path. -/
theorem FitsIn.editAt {α : Type} {edit : Composite → Edited Composite α} (h : c.FitsIn cat U)
    (hU : cat.Closed U) (hedit : ∀ n : Composite, n.FitsIn cat U → n.Replaces cat U (edit n).state)
    (path : List Step) : c.Replaces cat U (c.editAt cat edit path).state := by
  induction path generalizing c with
  | nil => exact hedit c h
  | cons step path ih =>
    cases step with
    | item ix => exact ⟨rfl, h⟩
    | field name => exact h.editField hU (fun n hn => ih hn) name

/-- An edit that assigns a composite that fits, or none, makes of a composite one that fits. -/
theorem Fits.assign {edit : CompositeEdit} (hedit : ∀ n, edit.assigned? = some n → n.Fits cat)
    (h : c.Fits cat) : (c.perform cat edit).state.Fits cat := by
  have hfits := (h.fitsIn cat.closed_true trivial).perform cat.closed_true
    fun n hn => (hedit n hn).fitsIn cat.closed_true trivial
  exact hfits.fits.fits trivial

end Composite

namespace Collection
variable {c : Collection}

theorem FitsIn.fits (h : c.FitsIn cat U) (hl : U c.layout) : c.Fits cat := by
  intro e he
  obtain ⟨hlayout, hfits⟩ := h e he
  exact ⟨hlayout, hfits.fits (hlayout ▸ hl)⟩

theorem Fits.fitsIn (h : c.Fits cat) (hU : cat.Closed U) (hl : U c.layout) : c.FitsIn cat U := by
  intro e he
  obtain ⟨hlayout, hfits⟩ := h e he
  exact ⟨hlayout, hfits.fitsIn hU (hlayout ▸ hl)⟩

theorem FitsIn.attach (h : c.FitsIn cat U) (k : Option Link) : (c.attach k).FitsIn cat U := by
  intro e he
  obtain ⟨e, hmem, rfl⟩ := List.mem_map.mp he
  obtain ⟨hlayout, hfits⟩ := h e hmem
  exact ⟨(Composite.layout_attach k e.value).trans hlayout, Composite.fitsIn_attach k e.value hfits⟩

theorem FitsIn.insert {item : Composite} (h : c.FitsIn cat U) (hitem : item.FitsIn cat U)
    (ix : Nat) : (c.insert cat ix item).state.FitsIn cat U := by
  rcases insert_eq cat c ix item with ⟨hlayout, heq⟩ | ⟨_, e, heq⟩
  · rw [heq, Edited.state_done]
    intro e he
    rcases List.eq_or_mem_of_mem_insertIdx he with rfl | he
    · exact ⟨by simpa using hlayout, Composite.fitsIn_attach c.link item hitem⟩
    · exact h e he
  · rwa [heq, Edited.state_failed]

/-- What an edit keeps of every composite, it keeps of an item. -/
theorem FitsIn.editItem? {α : Type} {edit : Composite → Edited Composite α}
    {r : Edited Collection α} {ix : Nat} (h : c.FitsIn cat U)
    (hedit : ∀ n : Composite, n.FitsIn cat U → n.Replaces cat U (edit n).state)
    (hr : c.editItem? ix edit = some r) : c.Replaces cat U r.state := by
  obtain ⟨e, hix, rfl⟩ := Option.map_eq_some_iff.mp hr
  refine ⟨rfl, rfl, ?_⟩
  intro e' he'
  rcases List.mem_or_eq_of_mem_set he' with he' | rfl
  · exact h e' he'
  · obtain ⟨hlayout, hfits⟩ := h e (List.mem_of_getElem? hix)
    have hreplaces := hedit e.value hfits
    exact ⟨hreplaces.layout.trans hlayout, hreplaces.fits⟩

theorem FitsIn.perform {edit : CollectionEdit} (h : c.FitsIn cat U) (hU : cat.Closed U)
    (hedit : ∀ n, edit.assigned? = some n → n.FitsIn cat U) :
    c.Replaces cat U (c.perform cat edit).state := by
  have hchange := perform_change cat edit c
  refine ⟨hchange.layout, hchange.element, ?_⟩
  cases edit with
  | touch => exact h
  | insert ix item => exact h.insert (hedit item rfl) ix
  | push item => exact h.insert (hedit item rfl) _
  | remove ix =>
    cases hix : c.entries[ix]? with
    | none => simpa [Collection.perform, remove, hix] using h
    | some e =>
      simp only [Collection.perform, remove, hix, Edited.state_map, Edited.state_done]
      exact fun e' he' => h e' (List.mem_of_mem_eraseIdx he')
  | clear =>
    intro e he
    simp [Collection.perform, clear] at he
  | item ix edit =>
    rw [Collection.perform]
    cases hr : c.editItem? ix (Composite.perform cat edit) with
    | none => exact h
    | some r => exact (h.editItem? (fun n hn => hn.perform hU hedit) hr).fits

/-- What an edit keeps of every composite, it keeps of one at the end of a path. -/
theorem FitsIn.editAt {α : Type} {edit : Composite → Edited Composite α} (h : c.FitsIn cat U)
    (hU : cat.Closed U) (hedit : ∀ n : Composite, n.FitsIn cat U → n.Replaces cat U (edit n).state)
    (path : List Step) : c.Replaces cat U (c.editAt cat edit path).state := by
  cases path with
  | nil => exact ⟨rfl, rfl, h⟩
  | cons step path =>
    cases step with
    | field name => exact ⟨rfl, rfl, h⟩
    | item ix =>
      rw [Collection.editAt]
      cases hr : c.editItem? ix (Composite.editAt cat edit path) with
      | none => exact ⟨rfl, rfl, h⟩
      | some r => exact h.editItem? (fun n hn => hn.editAt hU hedit path) hr

theorem FitsIn.markSaved (h : c.FitsIn cat U) : c.Replaces cat U c.markSaved := by
  refine ⟨rfl, rfl, ?_⟩
  intro e he
  obtain ⟨n, hn, rfl⟩ := List.mem_mapIdx.mp he
  exact h c.entries[n] (List.getElem_mem hn)

theorem FitsIn.copy (h : c.FitsIn cat U) : c.copy.FitsIn cat U := by
  intro e he
  obtain ⟨e, hmem, rfl⟩ := List.mem_map.mp he
  obtain ⟨hlayout, hfits⟩ := h e hmem
  exact ⟨(Composite.layout_attach none e.value).trans hlayout,
    Composite.fitsIn_attach none e.value hfits⟩

end Collection

namespace Value
variable {v : Value}

theorem FitsIn.fits (h : v.FitsIn cat U) (hl : ∀ l, v.layout? = some l → U l) : v.Fits cat := by
  cases v with
  | composite c => exact Composite.FitsIn.fits h (hl c.layout rfl)
  | collection c => exact Collection.FitsIn.fits h (hl c.layout rfl)
  | _ => trivial

theorem FitsIn.attach (h : v.FitsIn cat U) (k : Link) : (v.attach k).FitsIn cat U := by
  cases v with
  | composite c => exact Composite.fitsIn_attach k c h
  | collection c => exact Collection.FitsIn.attach h k
  | _ => trivial

theorem FitsIn.copy (h : v.FitsIn cat U) : v.copy.FitsIn cat U := by
  cases v with
  | composite c => exact Composite.fitsIn_attach none c h
  | collection c => exact Collection.FitsIn.copy h
  | _ => trivial

theorem FitsIn.perform {edit : ValueEdit} {r : Edited Value Unit} (h : v.FitsIn cat U)
    (hU : cat.Closed U) (hedit : ∀ n, edit.assigned? = some n → n.FitsIn cat U)
    (hr : v.perform cat edit = some r) : r.state.FitsIn cat U := by
  cases edit with
  | composite edit =>
    cases v with
    | composite c =>
      cases hr
      exact (Composite.FitsIn.perform h hU hedit).fits
    | _ => cases hr
  | collection edit =>
    cases v with
    | collection c =>
      cases hr
      exact (Collection.FitsIn.perform h hU hedit).fits
    | _ => cases hr

theorem FitsIn.editAt {α : Type} {edit : Composite → Edited Composite α} (h : v.FitsIn cat U)
    (hU : cat.Closed U) (hedit : ∀ n : Composite, n.FitsIn cat U → n.Replaces cat U (edit n).state)
    (path : List Step) : (v.editAt cat edit path).state.FitsIn cat U := by
  cases v with
  | composite c => exact (Composite.FitsIn.editAt h hU hedit path).fits
  | collection c => exact (Collection.FitsIn.editAt h hU hedit path).fits
  | _ => trivial

end Value

end ObjectTracking
