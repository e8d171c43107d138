import ObjectTracking.Proofs.LocalCopy.Invariant
import ObjectTracking.Proofs.Property.Kept
/-!
Every value in a copy is one of its property's shape. Assigning checks that, and everything else that
stores a value either makes one of the shape or changes one that is.
-/
set_option autoImplicit false

namespace ObjectTracking
open Markup

/-- A type whose values are created and read as they can be written: what is created on read is the
empty value of the shape, and codecs write what they read. -/
structure ObjectType.Consistent (cat : Catalog) (U : LayoutId → Prop) (t : ObjectType) : Prop where
  layouts : cat.Consistent U
  shapes : ∀ q ∈ t.properties, q.shape.Consistent U
  created : ∀ q ∈ t.properties, q.flags.contains .autoCreate = true → ∀ v, q.default? = some v →
    v = q.shape.emptyValue cat ∧ v.isNull = false

def Operation.Made (cat : Catalog) : Operation → Prop
  | .set _ v => v.Made cat
  | .edit _ e => ∀ n, e.assigned? = some n → (Value.composite n).Made cat
  | _ => True

namespace LocalCopy
variable {cat : Catalog} {U : LayoutId → Prop} {t : ObjectType} {o o' : LocalCopy}
  {p q : Property} {slot : Nat} {v : Value}

/-- What a copy may become in the hands of its callers, whose values are such as they come by. What
they put in the place of a value has its layout. -/
inductive Handled (cat : Catalog) (o : LocalCopy) : LocalCopy → Prop where
  | same : Handled cat o o
  | perform {o' : LocalCopy} (before : Handled cat o o') (op : Operation) (made : op.Made cat) :
    Handled cat o (o'.perform cat op).state
  /-- The composite that a property holds is changed in place. -/
  | composite {o' : LocalCopy} (before : Handled cat o o') (p : Property) {α : Type}
      (edit : Composite → Edited Composite α)
      (remade : ∀ c, (Value.composite c).Made cat → c.Remade cat (edit c).state) :
    Handled cat o (o'.editComposite p edit).state
  /-- The collection that a property holds is changed in place. -/
  | collection {o' : LocalCopy} (before : Handled cat o o') (p : Property) {α : Type}
      (edit : Collection → Edited Collection α)
      (remade : ∀ c, (Value.collection c).Made cat → c.Remade cat (edit c).state) :
    Handled cat o (o'.editCollection p edit).state
  | hear {o' : LocalCopy} (before : Handled cat o o') (signals : List Link) :
    Handled cat o (o'.hear signals)
  | watch {o' : LocalCopy} (before : Handled cat o o') (watched : Bool) :
    Handled cat o { o' with watched }

/-- What is changed in place may be the composite at the end of a path. -/
theorem Handled.editAt {α : Type} (h : Handled cat o o') (p : Property) (path : List Step)
    {edit : Composite → Edited Composite α}
    (hedit : ∀ c, (Value.composite c).Made cat → c.Remade cat (edit c).state) :
    Handled cat o (o'.editAt cat p path edit).state := by
  unfold LocalCopy.editAt
  split
  · exact h.collection p _ fun c hc => Collection.remade_editAt hc hedit _
  · exact h.composite p _ fun c hc => Composite.remade_editAt hc hedit path

/-- A copy of an object of a type, with values that its properties keep. -/
structure Typed (cat : Catalog) (t : ObjectType) (o : LocalCopy) : Prop where
  type : o.type = t
  values : ∀ slot v, o.values.get? slot = some v →
    ∃ q, t.property? slot = some q ∧ q.shape.Keeps cat v

theorem Typed.clear (htype : o.type = t) : Typed cat t o.clear :=
  ⟨htype, fun _ _ hv => by cases hv⟩

theorem Typed.of_insert (h : Typed cat t o) (hq : t.property? slot = some q)
    (hv : q.shape.Keeps cat v) (htype : o'.type = o.type)
    (hvalues : o'.values = o.values.insert slot v) : Typed cat t o' := by
  refine ⟨htype.trans h.type, ?_⟩
  rw [hvalues]
  exact SlotMap.forall_insert ⟨q, hq, hv⟩ h.values

theorem Typed.of_erase (h : Typed cat t o) (htype : o'.type = o.type)
    (hvalues : o'.values = o.values.erase slot) : Typed cat t o' := by
  refine ⟨htype.trans h.type, ?_⟩
  rw [hvalues]
  exact SlotMap.forall_erase h.values

theorem Typed.property (h : Typed cat t o) (hr : o.resolve p = .ok (slot, q)) :
    t.property? slot = some q := by
  rw [← h.type]
  exact (resolve_eq_ok_iff.mp hr).2.1

theorem Typed.instantiate (h : Typed cat t o) (ht : t.Consistent cat U)
    (hi : o.instantiate p = .ok (slot, q, o')) : Typed cat t o' := by
  obtain ⟨hr, -, ⟨-, rfl⟩ | ⟨v, -, -, hdefault, hauto, rfl⟩⟩ := instantiate_eq_ok hi
  · exact h
  · have hq := h.property hr
    have hflag : q.flags.contains .autoCreate = true := by
      rw [Property.has, Bool.and_eq_true] at hauto
      exact hauto.1
    obtain ⟨rfl, hnull⟩ := ht.created q (ObjectType.mem_properties hq) hflag v hdefault
    have hkeeps := (Shape.keeps_emptyValue hnull).attach (o.link slot)
    rw [← Value.attach_copy] at hkeeps
    exact h.of_insert hq hkeeps rfl rfl

theorem Typed.storeEdited {α : Type} {r : Edited Value α} (h : Typed cat t o)
    (hv : o.values.get? slot = some v)
    (hr : ∀ q, q ∈ t.properties → q.shape.Keeps cat v → q.shape.Keeps cat r.state) :
    Typed cat t (o.storeEdited slot r).state := by
  obtain ⟨q, hq, hkeeps⟩ := h.values slot v hv
  exact h.of_insert hq (hr q (ObjectType.mem_properties hq) hkeeps) rfl rfl

section InPlace
variable {α : Type}

theorem Typed.editComposite (h : Typed cat t o) (ht : t.Consistent cat U) (p : Property)
    {edit : Composite → Edited Composite α}
    (hedit : ∀ c, (Value.composite c).Made cat → c.Remade cat (edit c).state) :
    Typed cat t (o.editComposite p edit).state := by
  unfold LocalCopy.editComposite
  cases hi : o.instantiate p with
  | error e => exact h
  | ok r =>
    obtain ⟨slot, q, o'⟩ := r
    have h' := h.instantiate ht hi
    dsimp only
    split
    · rename_i c hc
      refine h'.storeEdited hc ?_
      exact fun q hq hv => hv.composite ht.layouts (ht.shapes q hq) (hedit c hv.made)
    · exact h'

theorem Typed.editCollection (h : Typed cat t o) (ht : t.Consistent cat U) (p : Property)
    {edit : Collection → Edited Collection α}
    (hedit : ∀ c, (Value.collection c).Made cat → c.Remade cat (edit c).state) :
    Typed cat t (o.editCollection p edit).state := by
  unfold LocalCopy.editCollection
  cases hi : o.instantiate p with
  | error e => exact h
  | ok r =>
    obtain ⟨slot, q, o'⟩ := r
    have h' := h.instantiate ht hi
    dsimp only
    split
    · rename_i c hc
      refine h'.storeEdited hc ?_
      exact fun q hq hv => hv.collection ht.layouts (ht.shapes q hq) (hedit c hv.made)
    · exact h'

end InPlace

theorem Typed.withAssigned {v' : Value} (h : Typed cat t o) (ht : t.Consistent cat U)
    (hr : o.resolve p = .ok (slot, q)) (hmade : v.Made cat) (hv : v.isNull = false)
    (hnormal : q.normalise v = .ok v') : Typed cat t (o.withAssigned slot v') := by
  have hq := h.property hr
  have hshape := ht.shapes q (ObjectType.mem_properties hq)
  have hkeeps := (Property.normalise_takes hv hnormal).keeps ht.layouts hshape hmade
  exact h.of_insert hq (hkeeps.attach _) rfl rfl

theorem Typed.markSaved (h : Typed cat t o) (ht : t.Consistent cat U) : Typed cat t o.markSaved := by
  refine ⟨h.type, ?_⟩
  intro slot w hw
  obtain ⟨v, hv, rfl⟩ := Option.map_eq_some_iff.mp hw
  obtain ⟨q, hq, hkeeps⟩ := h.values slot v hv
  refine ⟨q, hq, ?_⟩
  cases v with
  | collection c =>
    have hshape := ht.shapes q (ObjectType.mem_properties hq)
    exact hkeeps.collection ht.layouts hshape ⟨rfl, rfl, hkeeps.made.settle⟩
  | _ => exact hkeeps

theorem Typed.loadSlot (h : Typed cat t o) (ht : t.Consistent cat U) (hq : t.property? slot = some q)
    (tag : Tag) (content : Forest) : Typed cat t (o.loadSlot cat slot q tag content).state := by
  have hexisting : ∀ v, (if q.has .reuseInstance o.version then o.values.get? slot else none) =
      some v → q.shape.Keeps cat v := by
    intro v hv
    obtain ⟨-, hv⟩ := Option.ite_none_right_eq_some.mp hv
    obtain ⟨q', hq', hkeeps⟩ := h.values slot v hv
    rwa [Option.some.inj (hq.symm.trans hq')]
  have hshape := ht.shapes q (ObjectType.mem_properties hq)
  have hread := Shape.decode_keeps ht.layouts hshape o.session q.name ⟨some tag, content⟩ hexisting
  rcases hread with hnull | hkeeps
  · have hvalues : (o.loadSlot cat slot q tag content).state.values = o.values.erase slot := by
      simp [LocalCopy.loadSlot, Property.decode, hnull, Value.isNull]
    exact h.of_erase rfl hvalues
  · refine h.of_insert hq (hkeeps.attach (o.link slot)) rfl ?_
    simp [LocalCopy.loadSlot, Property.decode, hkeeps.holds.not_null]

theorem Typed.load (h : Typed cat t o) (ht : t.Consistent cat U) (content : Forest) (clearFirst : Bool)
    (asked : PropertySet) (summary : Bool) :
    Typed cat t (o.load cat content clearFirst asked summary).state := by
  -- reading clears copies of whatever type, so that the type is a premise of what it keeps
  refine load_induction (P := fun o => o.type = t → Typed cat t o) ?_ ?_ ?_ (fun _ => h) content
    clearFirst asked summary ?_
  · exact fun o htype => .clear htype
  · intro o slot q tag content hq _ ho htype
    have htype : o.type = t := htype
    exact (ho htype).loadSlot ht (htype ▸ hq) tag content
  · intro o asked summary ho htype
    exact ⟨htype, (ho htype).values⟩
  · have houtcome : Outcome cat o (.load content clearFirst asked summary) (some .settled) _ :=
      .loaded content clearFirst asked summary
    exact houtcome.same.2.1.trans h.type

theorem Outcome.typed {op : Operation} {event : Option Event} (ho : Outcome cat o op event o')
    (ht : t.Consistent cat U) (hop : op.Made cat) (h : Typed cat t o) : Typed cat t o' := by
  cases ho with
  | failed => exact h
  | deleted => exact h.of_erase rfl rfl
  | assigned hv hr _ hnormal => exact h.withAssigned ht hr hop hv hnormal
  | refused hi => exact h.instantiate ht hi
  | edited hi hv hperformed =>
    refine (h.instantiate ht hi).storeEdited hv ?_
    exact fun q hq hkeeps => hkeeps.perform ht.layouts (ht.shapes q hq) hop hperformed
  | cleared => exact .clear h.type
  | loaded content clearFirst asked summary => exact h.load ht content clearFirst asked summary
  | saved => exact h.markSaved ht

theorem Handled.typed (h : Handled cat o o') (ht : t.Consistent cat U) (ho : Typed cat t o) :
    Typed cat t o' := by
  induction h with
  | same => exact ho
  | perform _ op hop ih => exact (perform_outcome cat _ op).typed ht hop ih
  | composite _ p _ hedit ih => exact ih.editComposite ht p hedit
  | collection _ p _ hedit ih => exact ih.editCollection ht p hedit
  | hear _ _ ih => exact ⟨ih.type, ih.values⟩
  | watch _ _ ih => exact ⟨ih.type, ih.values⟩

end LocalCopy

end ObjectTracking
