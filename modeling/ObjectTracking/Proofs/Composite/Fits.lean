import ObjectTracking.Proofs.Links
import ObjectTracking.Proofs.Scalar.Codec
/-!
Nested values that fit their layouts: a composite has a field for each field of its layout, and it
holds what its kind says. Creating, editing and reading make no others.
-/
set_option autoImplicit false

namespace ObjectTracking

def LayoutField.Holds (f : LayoutField) : Field → Prop
  | .unset => True
  | .scalar s => ∃ codec, f.kind = .scalar codec ∧ codec.Stores s
  | .nested c => f.kind = .nested c.layout

/-- Whether a content is told from nothing in the text of an element: empty text is read as a value
by some codecs, so that nothing must not stand there. -/
def LayoutField.Tells (f : LayoutField) (v : Field) : Prop :=
  v.isUnset = true → f.placement = .text → ∀ codec, f.kind = .scalar codec → codec.readsEmpty = false

mutual

/-- There is a field for each of the layout, and all of them satisfy a condition, here and in
everything nested. -/
def Composite.Each (cat : Catalog) (P : LayoutField → Field → Prop) : Composite → Prop
  | .mk l _ vs => Field.EachOf cat P (cat.layout l).fields vs

def Field.Each (cat : Catalog) (P : LayoutField → Field → Prop) : Field → Prop
  | .unset => True
  | .scalar _ => True
  | .nested c => c.Each cat P

def Field.EachOf (cat : Catalog) (P : LayoutField → Field → Prop) :
    List LayoutField → List Field → Prop
  | [], [] => True
  | f :: fs, v :: vs => P f v ∧ v.Each cat P ∧ Field.EachOf cat P fs vs
  | _, _ => False

end

def Composite.Fits (cat : Catalog) (c : Composite) : Prop := c.Each cat LayoutField.Holds

/-- A composite whose unset fields can be told from empty ones. -/
def Composite.Telling (cat : Catalog) (c : Composite) : Prop := c.Each cat LayoutField.Tells

variable {cat : Catalog} {P : LayoutField → Field → Prop}

theorem Field.eachOf_iff {fs : List LayoutField} {vs : List Field} :
    Field.EachOf cat P fs vs ↔
      fs.length = vs.length ∧ ∀ (ix : Nat) f v, fs[ix]? = some f → vs[ix]? = some v →
        P f v ∧ v.Each cat P := by
  induction fs generalizing vs with
  | nil => cases vs <;> simp [Field.EachOf]
  | cons f fs ih =>
    cases vs with
    | nil => simp [Field.EachOf]
    | cons v vs =>
      simp only [Field.EachOf, ih, List.length_cons, Nat.add_right_cancel_iff]
      constructor
      · rintro ⟨hP, hv, hlength, hrest⟩
        refine ⟨hlength, ?_⟩
        intro ix g w hg hw
        cases ix with
        | zero =>
          obtain rfl : f = g := by simpa using hg
          obtain rfl : v = w := by simpa using hw
          exact ⟨hP, hv⟩
        | succ ix => exact hrest ix g w (by simpa using hg) (by simpa using hw)
      · rintro ⟨hlength, hall⟩
        obtain ⟨hP, hv⟩ := hall 0 f v rfl rfl
        exact ⟨hP, hv, hlength, fun ix g w hg hw => hall (ix + 1) g w hg hw⟩

theorem Composite.each_iff {c : Composite} : c.Each cat P ↔
    (cat.layout c.layout).fields.length = c.fields.length ∧
      ∀ (ix : Nat) f v, (cat.layout c.layout).fields[ix]? = some f → c.fields[ix]? = some v →
        P f v ∧ v.Each cat P := by
  obtain ⟨l, k, vs⟩ := c
  exact Field.eachOf_iff

theorem LayoutField.holds_attach {f : LayoutField} {v : Field} (k : Option Link) :
    f.Holds (v.attach k) ↔ f.Holds v := by
  cases v with
  | unset => rfl
  | scalar s => rfl
  | nested c =>
    obtain ⟨l, k', vs⟩ := c
    rfl

mutual

theorem Composite.fits_attach (k : Option Link) :
    (c : Composite) → ((c.attach k).Each cat LayoutField.Holds ↔ c.Each cat LayoutField.Holds)
  | .mk l _ vs => by
    simp only [Composite.attach, Composite.Each]
    exact Field.fitsOf_attachAll k (cat.layout l).fields vs

theorem Field.fits_attach (k : Option Link) :
    (v : Field) → ((v.attach k).Each cat LayoutField.Holds ↔ v.Each cat LayoutField.Holds)
  | .unset => Iff.rfl
  | .scalar _ => Iff.rfl
  | .nested c => by
    simp only [Field.attach, Field.Each]
    exact Composite.fits_attach k c

theorem Field.fitsOf_attachAll (k : Option Link) : (fs : List LayoutField) → (vs : List Field) →
    (Field.EachOf cat LayoutField.Holds fs (Field.attachAll k vs) ↔
      Field.EachOf cat LayoutField.Holds fs vs)
  | [], [] => Iff.rfl
  | [], _ :: _ => Iff.rfl
  | _ :: _, [] => Iff.rfl
  | f :: fs, v :: vs => by
    simp only [Field.attachAll, Field.EachOf]
    rw [LayoutField.holds_attach, Field.fits_attach k v, Field.fitsOf_attachAll k fs vs]

end

namespace Composite

theorem new_fits (cat : Catalog) (l : LayoutId) : (new cat l).Fits cat := by
  rw [Fits, each_iff]
  refine ⟨by simp [new, layout, fields], ?_⟩
  intro ix f v _ hv
  have hunset : v = .unset := by
    simp only [new, fields, List.getElem?_map, Option.map_eq_some_iff] at hv
    obtain ⟨_, _, rfl⟩ := hv
    rfl
  subst hunset
  exact ⟨trivial, trivial⟩

theorem Fits.setAt {c : Composite} (h : c.Fits cat) {ix : Nat} {f : LayoutField} {v : Field}
    (hf : (cat.layout c.layout).fields[ix]? = some f)
    (hv : f.Holds v ∧ v.Each cat LayoutField.Holds) : (c.setAt ix v).Fits cat := by
  obtain ⟨l, k, vs⟩ := c
  rw [Fits, each_iff] at h ⊢
  obtain ⟨hlength, hall⟩ := h
  simp only [Composite.setAt, withFields, layout, fields] at hf hlength hall ⊢
  refine ⟨by simpa using hlength, ?_⟩
  intro n g w hg hw
  by_cases hn : ix = n
  · subst hn
    have hlt : ix < vs.length := by
      rw [← hlength]
      exact (List.getElem?_eq_some_iff.mp hf).1
    obtain rfl : v = w := by simpa [List.getElem?_set_self hlt] using hw
    obtain rfl : f = g := Option.some.inj (hf.symm.trans hg)
    exact hv
  · exact hall n g w hg (by rwa [List.getElem?_set_ne hn] at hw)

theorem Fits.field {c : Composite} (h : c.Fits cat) {ix : Nat} {f : LayoutField} {v : Field}
    (hf : (cat.layout c.layout).fields[ix]? = some f) (hv : c.fields[ix]? = some v) :
    f.Holds v ∧ v.Each cat LayoutField.Holds := (each_iff.mp h).2 ix f v hf hv

theorem Fits.attach {c : Composite} (h : c.Fits cat) (k : Option Link) : (c.attach k).Fits cat :=
  (fits_attach k c).mpr h

@[simp] theorem layout_attach (k : Option Link) (c : Composite) : (c.attach k).layout = c.layout := by
  obtain ⟨l, k', vs⟩ := c
  rfl

@[simp] theorem layout_setAt (c : Composite) (ix : Nat) (v : Field) :
    (c.setAt ix v).layout = c.layout := rfl

end Composite

def Collection.Fits (cat : Catalog) (c : Collection) : Prop :=
  ∀ e ∈ c.entries, e.value.layout = c.layout ∧ e.value.Fits cat

/-- A value whose composites fit their layouts. -/
def Value.Fits (cat : Catalog) : Value → Prop
  | .composite c => c.Fits cat
  | .collection c => c.Fits cat
  | _ => True

def Value.layout? : Value → Option LayoutId
  | .composite c => some c.layout
  | .collection c => some c.layout
  | _ => none

def CompositeEdit.Fits (cat : Catalog) : CompositeEdit → Prop
  | .set _ v => v.Fits cat
  | .nested _ edit => edit.Fits cat
  | _ => True

def CollectionEdit.Fits (cat : Catalog) : CollectionEdit → Prop
  | .insert _ c => c.Fits cat
  | .push c => c.Fits cat
  | .item _ edit => edit.Fits cat
  | _ => True

def ValueEdit.Fits (cat : Catalog) : ValueEdit → Prop
  | .composite edit => edit.Fits cat
  | .collection edit => edit.Fits cat

def CompositeEdit.assigned? : CompositeEdit → Option Composite
  | .set _ (.composite c) => some c
  | .nested _ edit => edit.assigned?
  | _ => none

def CollectionEdit.assigned? : CollectionEdit → Option Composite
  | .insert _ c => some c
  | .push c => some c
  | .item _ edit => edit.assigned?
  | _ => none

def ValueEdit.assigned? : ValueEdit → Option Composite
  | .composite edit => edit.assigned?
  | .collection edit => edit.assigned?

theorem CompositeEdit.Fits.assigned {edit : CompositeEdit} (h : edit.Fits cat) {n : Composite}
    (hn : edit.assigned? = some n) : n.Fits cat := by
  induction edit with
  | touch => cases hn
  | set name v =>
    cases v with
    | composite c =>
      cases hn
      exact h
    | _ => cases hn
  | notify => cases hn
  | nested name edit ih => exact ih h hn

theorem CollectionEdit.Fits.assigned {edit : CollectionEdit} (h : edit.Fits cat) {n : Composite}
    (hn : edit.assigned? = some n) : n.Fits cat := by
  cases edit with
  | insert ix item =>
    cases hn
    exact h
  | push item =>
    cases hn
    exact h
  | item ix edit => exact CompositeEdit.Fits.assigned h hn
  | _ => cases hn

theorem ValueEdit.Fits.assigned {edit : ValueEdit} (h : edit.Fits cat) {n : Composite}
    (hn : edit.assigned? = some n) : n.Fits cat := by
  cases edit with
  | composite edit => exact CompositeEdit.Fits.assigned h hn
  | collection edit => exact CollectionEdit.Fits.assigned h hn

namespace Composite

theorem Fits.nested? {c n : Composite} {name : String} {ix : Nat} (h : c.Fits cat)
    (hn : c.nested? cat name = some (ix, n)) : n.Fits cat ∧
      ∃ f, (cat.layout c.layout).fields[ix]? = some f ∧ f.kind = .nested n.layout := by
  unfold Composite.nested? at hn
  split at hn
  · cases hn
  · rename_i ix' _
    split at hn
    · rename_i l hf _
      obtain ⟨rfl, rfl⟩ := Prod.mk.inj (Option.some.inj hn)
      exact ⟨(new_fits cat l).attach c.link, _, hf, by rw [layout_attach]; rfl⟩
    · rename_i l m hf hm
      obtain ⟨rfl, rfl⟩ := Prod.mk.inj (Option.some.inj hn)
      obtain ⟨hholds, hfits⟩ := h.field hf hm
      exact ⟨hfits, _, hf, hholds⟩
    · cases hn

end Composite

theorem Collection.Fits.attach {c : Collection} (h : c.Fits cat) (k : Option Link) :
    (c.attach k).Fits cat := by
  intro e he
  obtain ⟨e, hmem, rfl⟩ := List.mem_map.mp he
  obtain ⟨hlayout, hfits⟩ := h e hmem
  exact ⟨(Composite.layout_attach k e.value).trans hlayout, hfits.attach k⟩

end ObjectTracking
