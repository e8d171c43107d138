import ObjectTracking.Proofs.Composite.Fits
import ObjectTracking.Proofs.Layout
/-!
What is read of a composite that was written. Nothing is written for an unset field, and so nothing
is read for it if it is an attribute or an element. But an element always has a text, be it empty, so
that a field in the text is read as the value its codec has for empty text, if it has one.
-/
set_option autoImplicit false

namespace ObjectTracking

/-- What a field is read as if nothing was written for it. -/
def LayoutField.unwritten (f : LayoutField) : Field :=
  match f.placement, f.kind with
  | .text, .scalar codec => .ofScalar? codec.empty?
  | _, _ => .unset

mutual

def Composite.retold (cat : Catalog) : Composite → Composite
  | .mk l _ vs => .mk l none (Field.retoldAll cat (cat.layout l).fields vs)

def Field.retold (cat : Catalog) (f : LayoutField) : Field → Field
  | .unset => f.unwritten
  | .scalar s => .scalar s
  | .nested c => .nested (c.retold cat)

def Field.retoldAll (cat : Catalog) : List LayoutField → List Field → List Field
  | f :: fs, v :: vs => v.retold cat f :: Field.retoldAll cat fs vs
  | _, _ => []

end

variable {cat : Catalog} {f : LayoutField} {v : Field} {fs : List LayoutField} {vs : List Field}

namespace LayoutField

theorem unwritten_eq_unset (h : f.placement ≠ .text) : f.unwritten = .unset := by
  unfold unwritten
  split
  · rename_i htext _
    exact absurd htext h
  · rfl

theorem unwritten_text {codec : Codec} (hplacement : f.placement = .text)
    (hkind : f.kind = .scalar codec) : f.unwritten = .ofScalar? codec.empty? := by
  simp only [unwritten, hplacement, hkind]

/-- Nothing is read where nothing was written exactly if that is told from an empty value. -/
theorem unwritten_eq_unset_iff : f.unwritten = .unset ↔ f.Tells .unset := by
  constructor
  · intro h _ hplacement codec hkind
    rw [unwritten_text hplacement hkind] at h
    rw [← Codec.empty?_eq_none_iff]
    cases hempty : codec.empty? with
    | none => rfl
    | some s =>
      rw [hempty] at h
      cases h
  · intro h
    unfold unwritten
    split
    · rename_i codec hplacement hkind
      rw [Codec.empty?_eq_none_iff.mpr (h rfl hplacement codec hkind)]
      rfl
    · rfl

theorem tells_of_isUnset_eq_false (h : v.isUnset = false) : f.Tells v := by
  intro hunset
  rw [h] at hunset
  cases hunset

theorem tells_of_not_text (h : f.placement ≠ .text) : f.Tells v :=
  fun _ htext => absurd htext h

end LayoutField

theorem Field.retoldAll_eq_zipWith :
    Field.retoldAll cat fs vs = List.zipWith (fun f v => v.retold cat f) fs vs := by
  induction fs generalizing vs with
  | nil => cases vs <;> rfl
  | cons f fs ih => cases vs <;> simp [Field.retoldAll, ih]

mutual

/-- If all unset fields can be told from empty ones, the same composite is read. -/
theorem Composite.retold_of_telling :
    (c : Composite) → c.Telling cat → c.retold cat = c.attach none
  | .mk l _ vs, h => by
    simp only [Composite.retold, Composite.attach]
    rw [Field.retoldAll_of_telling (cat.layout l).fields vs h]

theorem Field.retold_of_telling : (f : LayoutField) → (v : Field) → f.Tells v →
    v.Each cat LayoutField.Tells → v.retold cat f = v.attach none
  | _, .unset, hf, _ => LayoutField.unwritten_eq_unset_iff.mpr hf
  | _, .scalar _, _, _ => rfl
  | _, .nested c, _, h => congrArg Field.nested (Composite.retold_of_telling c h)

theorem Field.retoldAll_of_telling : (fs : List LayoutField) → (vs : List Field) →
    Field.EachOf cat LayoutField.Tells fs vs → Field.retoldAll cat fs vs = Field.attachAll none vs
  | [], [], _ => rfl
  | f :: fs, v :: vs, ⟨hf, hv, h⟩ => by
    rw [Field.retoldAll, Field.attachAll, Field.retold_of_telling f v hf hv,
      Field.retoldAll_of_telling fs vs h]

end

theorem Codec.Stores.beq_self {codec : Codec} {s : Scalar} (hf : codec.Faithful)
    (hs : codec.Stores s) : (s == s) = true := by
  have h := hs ""
  cases s with
  | double d =>
    cases codec with
    | double => exact absurd hf id
    | custom u => exact absurd hf id
    | enumeration names => simp [Codec.normalise, Scalar.text?] at h
    | _ => cases h
  | binary bytes => exact beq_self_eq_true bytes
  | _ => simp [BEq.beq, Scalar.beq]

mutual

/-- What is read of a composite is equal to it exactly if all its unset fields can be told from empty
ones. -/
theorem Composite.retold_beq_iff (hcat : cat.WellFormed) :
    (c : Composite) → c.Fits cat → ((c.retold cat == c) = true ↔ c.Telling cat)
  | .mk l _ vs, h => by
    have hall := Field.retoldAll_beq_iff hcat (cat.layout l).fields vs
      (fun f hf => (hcat l).codecs f hf) h
    change (l == l && Field.beqAll (Field.retoldAll cat (cat.layout l).fields vs) vs) = true ↔ _
    rw [beq_self_eq_true, Bool.true_and]
    exact hall

theorem Field.retold_beq_iff (hcat : cat.WellFormed) : (f : LayoutField) → (v : Field) →
    (∀ codec, f.kind = .scalar codec → codec.Faithful) → f.Holds v →
      v.Each cat LayoutField.Holds →
      ((v.retold cat f).beq v = true ↔ f.Tells v ∧ v.Each cat LayoutField.Tells)
  | f, .unset, _, _, _ => by
    have hbeq : ∀ w : Field, w.beq .unset = true ↔ w = .unset := by
      intro w
      cases w <;> simp [Field.beq]
    rw [hbeq, Field.retold, LayoutField.unwritten_eq_unset_iff]
    exact ⟨fun h => ⟨h, trivial⟩, fun h => h.1⟩
  | f, .scalar s, hcodec, ⟨codec, hkind, hs⟩, _ => by
    have hself := hs.beq_self (hcodec codec hkind)
    simp only [Field.retold, Field.beq, hself, true_iff]
    exact ⟨LayoutField.tells_of_isUnset_eq_false rfl, trivial⟩
  | f, .nested c, _, _, h => by
    have hc := Composite.retold_beq_iff hcat c h
    have htells : f.Tells (.nested c) := LayoutField.tells_of_isUnset_eq_false rfl
    exact hc.trans ⟨fun hc => ⟨htells, hc⟩, fun hc => hc.2⟩

theorem Field.retoldAll_beq_iff (hcat : cat.WellFormed) :
    (fs : List LayoutField) → (vs : List Field) →
      (∀ f ∈ fs, ∀ codec, f.kind = .scalar codec → codec.Faithful) →
      Field.EachOf cat LayoutField.Holds fs vs →
      (Field.beqAll (Field.retoldAll cat fs vs) vs = true ↔
        Field.EachOf cat LayoutField.Tells fs vs)
  | [], [], _, _ => by simp [Field.retoldAll, Field.beqAll, Field.EachOf]
  | f :: fs, v :: vs, hcodecs, ⟨hf, hv, h⟩ => by
    rw [Field.retoldAll, Field.beqAll, Bool.and_eq_true,
      Field.retold_beq_iff hcat f v (hcodecs f List.mem_cons_self) hf hv,
      Field.retoldAll_beq_iff hcat fs vs
        (fun g hg => hcodecs g (List.mem_cons_of_mem f hg)) h, and_assoc]
    rfl

end

end ObjectTracking
