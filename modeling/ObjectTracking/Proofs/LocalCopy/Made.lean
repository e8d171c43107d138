import ObjectTracking.Proofs.LocalCopy.History
import ObjectTracking.Proofs.LocalCopy.Typed
/-!
Whatever a copy holds in the hands of its callers, they could have come by themselves: what is stored
is theirs, or made of what was there before, or created on read. So the collections in it keep track of
what happened to them.
-/
set_option autoImplicit false

namespace ObjectTracking
open Markup

section Values
variable {cat : Catalog}

theorem Collection.Consistent.editAt {α : Type} {c : Collection} (h : c.Consistent)
    (edit : Composite → Edited Composite α) (path : List Step) :
    (c.editAt cat edit path).state.Consistent := by
  match path with
  | [] => exact h
  | .field name :: path => exact h
  | .item ix :: path =>
    cases he : c.entries[ix]? with
    | none =>
      simp only [Collection.editAt, editItem?, he]
      exact h
    | some e =>
      simp only [Collection.editAt, editItem?, he, Option.map_some, Option.getD_some,
        Edited.state_within]
      obtain ⟨base, hbase⟩ := h
      exact ⟨base, (Change.modify ix e he _).tracks hbase⟩

/-- The collections that callers come by keep track of what happened to them. -/
theorem Value.Made.consistent {v : Value} (h : v.Made cat) :
    ∀ c, v = .collection c → c.Consistent := by
  induction h with
  | collection l element =>
    rintro c ⟨⟩
    exact Collection.new_consistent l element
  | edit _ _ _ performed ih _ => exact LocalCopy.consistent_perform ih performed
  | @refill c _ session content _ =>
    rintro _ ⟨⟩
    exact (Collection.load_settled cat session content c).consistent
  | @settle c _ _ =>
    rintro _ ⟨⟩
    exact Collection.markSaved_consistent c
  | attach _ k ih => exact LocalCopy.consistent_attach ih k
  | copy _ ih => exact LocalCopy.consistent_copy ih
  | @overwrite v n _ _ path ih _ =>
    intro c hc
    cases v with
    | collection d =>
      obtain rfl : (d.editAt cat (Composite.overwrite n) path).state = c := by
        simpa [Value.editAt] using hc
      exact (ih d rfl).editAt _ path
    | _ => cases hc
  | _ =>
    intro c hc
    cases hc

/-- What is read into a value that callers could come by, or into none, is one again. -/
theorem Shape.decode_made (session : Session) (property : String) (shape : Shape) (site : Site)
    {existing : Option Value} (h : ∀ v, existing = some v → v.Made cat) :
    (shape.decode cat session property site existing).state.Made cat := by
  induction shape generalizing site existing with
  | scalar codec => exact readText_parseValue_induction .null fun _ s _ => .scalar s
  | dateTime zoneUri => exact readText_scoping_induction .null fun _ => .scalar _
  | composite l =>
    obtain ⟨c, -, hheld, hdecode⟩ := decode_composite cat session property l existing
    rw [hdecode]
    have hc : (Value.composite c).Made cat := by
      rcases hheld with rfl | rfl
      · exact .composite l
      · exact h _ rfl
    exact hc.read session site
  | collection l element =>
    obtain ⟨c, -, hheld, hdecode⟩ := decode_collection cat session property l element existing
    rw [hdecode]
    have hc : (Value.collection c).Made cat := by
      rcases hheld with rfl | rfl
      · exact .collection l element
      · exact h _ rfl
    exact hc.refill session site.content
  | indexed key inner ih => exact ih site h
  | contained wrapper inner ih =>
    exact decode_contained_induction (Q := fun existing => ∀ v, existing = some v → v.Made cat) .null
      (by simp) h fun site _ hexisting => ih site hexisting

theorem Shape.Takes.made {property : String} {shape : Shape} {v v' : Value}
    (h : shape.Takes property v v') (hv : v.Made cat) : v'.Made cat := by
  cases h with
  | scalar _ => exact .scalar _
  | dateTime _ t => exact .scalar _
  | composite c => exact hv
  | collection c => exact hv

end Values

/-- What is created on read is made as the values of callers are. -/
def ObjectType.CreatesMade (cat : Catalog) (t : ObjectType) : Prop :=
  ∀ q ∈ t.properties, ∀ v, q.default? = some v → v.Made cat

namespace LocalCopy
variable {cat : Catalog} {t : ObjectType} {o o' : LocalCopy} {p q : Property} {slot : Nat} {v : Value}

/-- A copy of an object of a type that holds values as callers come by them. -/
structure HoldsMade (cat : Catalog) (t : ObjectType) (o : LocalCopy) : Prop where
  type : o.type = t
  values : ∀ slot v, o.values.get? slot = some v → v.Made cat

namespace HoldsMade

theorem insert (h : HoldsMade cat t o) (hv : v.Made cat) (htype : o'.type = o.type)
    (hvalues : o'.values = o.values.insert slot v) : HoldsMade cat t o' := by
  refine ⟨htype.trans h.type, ?_⟩
  rw [hvalues]
  exact SlotMap.forall_insert hv h.values

theorem erase (h : HoldsMade cat t o) (htype : o'.type = o.type)
    (hvalues : o'.values = o.values.erase slot) : HoldsMade cat t o' := by
  refine ⟨htype.trans h.type, ?_⟩
  rw [hvalues]
  exact SlotMap.forall_erase h.values

theorem instantiate (h : HoldsMade cat t o) (ht : t.CreatesMade cat)
    (hi : o.instantiate p = .ok (slot, q, o')) : HoldsMade cat t o' := by
  obtain ⟨hr, -, ⟨-, rfl⟩ | ⟨v, -, -, hdefault, -, rfl⟩⟩ := instantiate_eq_ok hi
  · exact h
  · have hq : q ∈ t.properties := by
      rw [← h.type]
      exact ObjectType.mem_properties (resolve_eq_ok_iff.mp hr).2.1
    exact h.insert ((ht q hq v hdefault).copy.attach (o.link slot)) rfl rfl

section InPlace
variable {α : Type}

theorem storeEdited {r : Edited Value α} (h : HoldsMade cat t o) (hr : r.state.Made cat)
    (slot : Nat) : HoldsMade cat t (o.storeEdited slot r).state :=
  h.insert hr rfl rfl

theorem editComposite (h : HoldsMade cat t o) (ht : t.CreatesMade cat) (p : Property)
    {edit : Composite → Edited Composite α}
    (hedit : ∀ c, (Value.composite c).Made cat → c.Remade cat (edit c).state) :
    HoldsMade cat t (o.editComposite p edit).state := by
  unfold LocalCopy.editComposite
  cases hi : o.instantiate p with
  | error e => exact h
  | ok r =>
    obtain ⟨slot, q, o'⟩ := r
    have h' := h.instantiate ht hi
    dsimp only
    split
    · rename_i c hc
      exact h'.storeEdited (hedit c (h'.values slot _ hc)).made slot
    · exact h'

theorem editCollection (h : HoldsMade cat t o) (ht : t.CreatesMade cat) (p : Property)
    {edit : Collection → Edited Collection α}
    (hedit : ∀ c, (Value.collection c).Made cat → c.Remade cat (edit c).state) :
    HoldsMade cat t (o.editCollection p edit).state := by
  unfold LocalCopy.editCollection
  cases hi : o.instantiate p with
  | error e => exact h
  | ok r =>
    obtain ⟨slot, q, o'⟩ := r
    have h' := h.instantiate ht hi
    dsimp only
    split
    · rename_i c hc
      exact h'.storeEdited (hedit c (h'.values slot _ hc)).made slot
    · exact h'

end InPlace

theorem markSaved (h : HoldsMade cat t o) : HoldsMade cat t o.markSaved := by
  refine ⟨h.type, ?_⟩
  intro slot w hw
  obtain ⟨v, hv, rfl⟩ := Option.map_eq_some_iff.mp hw
  have hmade := h.values slot v hv
  cases v with
  | collection c => exact hmade.settle
  | _ => exact hmade

theorem loadSlot (h : HoldsMade cat t o) (slot : Nat) (q : Property) (tag : Tag) (content : Forest) :
    HoldsMade cat t (o.loadSlot cat slot q tag content).state := by
  have hexisting : ∀ v, (if q.has .reuseInstance o.version then o.values.get? slot else none) =
      some v → v.Made cat := by
    intro v hv
    exact h.values slot v (Option.ite_none_right_eq_some.mp hv).2
  have hread := q.shape.decode_made o.session q.name ⟨some tag, content⟩ hexisting
  cases hnull : (q.shape.decode cat o.session q.name ⟨some tag, content⟩
      (if q.has .reuseInstance o.version then o.values.get? slot else none)).state.isNull with
  | true => exact h.erase rfl (if_pos hnull)
  | false => exact h.insert (hread.attach (o.link slot)) rfl (if_neg (ne_true_of_eq_false hnull))

theorem load (h : HoldsMade cat t o) (content : Forest) (clearFirst : Bool) (asked : PropertySet)
    (summary : Bool) : HoldsMade cat t (o.load cat content clearFirst asked summary).state := by
  have htype : (o.load cat content clearFirst asked summary).state.type = t := by
    have houtcome : Outcome cat o (.load content clearFirst asked summary) (some .settled) _ :=
      .loaded content clearFirst asked summary
    exact houtcome.same.2.1.trans h.type
  refine ⟨htype, ?_⟩
  refine (load_induction (P := fun o => HoldsMade cat o.type o) ?_ ?_ ?_ ⟨rfl, h.values⟩ content
    clearFirst asked summary).values
  · exact fun o => ⟨rfl, fun slot v hv => by cases hv⟩
  · exact fun o slot q tag content _ _ ho => ho.loadSlot slot q tag content
  · exact fun o asked summary ho => ⟨rfl, ho.values⟩

end HoldsMade

theorem Outcome.holdsMade {op : Operation} {event : Option Event} (ho : Outcome cat o op event o')
    (ht : t.CreatesMade cat) (hop : op.Made cat) (h : HoldsMade cat t o) : HoldsMade cat t o' := by
  cases ho with
  | failed => exact h
  | deleted => exact h.erase rfl rfl
  | assigned hv _ _ hnormal =>
    exact h.insert (((Property.normalise_takes hv hnormal).made hop).attach _) rfl rfl
  | refused hi => exact h.instantiate ht hi
  | edited hi hv hperformed =>
    have h' := h.instantiate ht hi
    exact h'.storeEdited ((h'.values _ _ hv).edit _ hop hperformed) _
  | cleared => exact ⟨h.type, fun slot v hv => by cases hv⟩
  | loaded content clearFirst asked summary => exact h.load content clearFirst asked summary
  | saved => exact h.markSaved

theorem Handled.holdsMade (h : Handled cat o o') (ht : t.CreatesMade cat) (ho : HoldsMade cat t o) :
    HoldsMade cat t o' := by
  induction h with
  | same => exact ho
  | perform _ op hop ih => exact (perform_outcome cat _ op).holdsMade ht hop ih
  | composite _ p _ hedit ih => exact ih.editComposite ht p hedit
  | collection _ p _ hedit ih => exact ih.editCollection ht p hedit
  | hear _ _ ih => exact ⟨ih.type, ih.values⟩
  | watch _ _ ih => exact ⟨ih.type, ih.values⟩

theorem HoldsMade.tracked (h : HoldsMade cat t o) : Tracked o :=
  fun slot _ hc => (h.values slot _ hc).consistent _ rfl

end LocalCopy

end ObjectTracking
