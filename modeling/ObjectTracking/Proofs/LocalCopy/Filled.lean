import ObjectTracking.Proofs.LocalCopy.Sound
import ObjectTracking.Proofs.Property.Content
/-!
New copies that are filled by assigning, deleting and editing: every value in them is one that its
property holds, at a slot that can be set.
-/
set_option autoImplicit false

namespace ObjectTracking
open Markup (IsName)

/-- An object type whose properties are told from each other by their elements or, if they are
entries of a dictionary, by their keys. -/
structure ObjectType.WellFormed (cat : Catalog) (t : ObjectType) : Prop where
  element : IsName t.element
  elements : t.properties.Pairwise fun p q => p.element = q.element →
    p.key?.isSome = true ∧ q.key?.isSome = true ∧ p.key? ≠ q.key?
  properties : ∀ q ∈ t.properties, q.WellFormed cat

def Operation.Fills (cat : Catalog) : Operation → Prop
  | .set _ v => v.Fits cat
  | .delete _ => True
  | .edit _ e => e.Fits cat
  | _ => False

namespace LocalCopy
variable {cat : Catalog} {o o' : LocalCopy} {p q : Property} {slot : Nat} {v : Value}

def Allows (cat : Catalog) (o : LocalCopy) (slot : Nat) (v : Value) : Prop :=
  ∃ q, o.type.property? slot = some q ∧ q.isApplicable o.version = true ∧
    q.has .settable o.version = true ∧ q.shape.Holds cat v

/-- Every slot can be set to what it holds. -/
def Filled (cat : Catalog) (o : LocalCopy) : Prop :=
  ∀ slot v, o.values.get? slot = some v → o.Allows cat slot v

theorem allows_of_resolve (hresolve : o.resolve p = .ok (slot, q))
    (hmutable : o.checkMutable q = .ok ()) (hv : q.shape.Holds cat v) : o.Allows cat slot v := by
  obtain ⟨_, hq, happlicable⟩ := resolve_eq_ok_iff.mp hresolve
  refine ⟨q, hq, happlicable, ?_, hv⟩
  cases hsettable : q.has .settable o.version with
  | true => rfl
  | false => simp [checkMutable, hsettable] at hmutable

theorem Filled.insert (h : Filled cat o) (hv : o.Allows cat slot v) (htype : o'.type = o.type)
    (hsession : o'.session = o.session) (hvalues : o'.values = o.values.insert slot v) :
    Filled cat o' := by
  intro n w hw
  rw [hvalues] at hw
  have hallows : o.Allows cat n w := SlotMap.forall_insert hv h n w hw
  simpa only [Allows, version, htype, hsession] using hallows

theorem Filled.withDeleted (h : Filled cat o) (slot : Nat) : Filled cat (o.withDeleted slot) :=
  SlotMap.forall_erase h

theorem Filled.instantiate (h : Filled cat o) (ht : o.type.WellFormed cat)
    (hi : o.instantiate p = .ok (slot, q, o')) : Filled cat o' := by
  obtain ⟨hresolve, hmutable, ⟨_, rfl⟩ | ⟨v, _, _, hdefault, hauto, rfl⟩⟩ := instantiate_eq_ok hi
  · exact h
  · obtain ⟨_, hq, _⟩ := resolve_eq_ok_iff.mp hresolve
    have hflag : q.flags.contains .autoCreate = true := by
      rw [Property.has, Bool.and_eq_true] at hauto
      exact hauto.1
    have hwf := ht.properties q (List.mem_of_getElem? hq)
    obtain ⟨hempty, hnull⟩ := hwf.created hflag
    obtain rfl : v = q.shape.emptyValue cat := Option.some.inj (hdefault.symm.trans hempty)
    have hholds := (Shape.emptyValue_holds hnull).attach (o.link slot)
    rw [← Value.attach_copy] at hholds
    exact h.insert (allows_of_resolve hresolve hmutable hholds) rfl rfl rfl

theorem Outcome.filled {op : Operation} {event : Option Event} (ho : Outcome cat o op event o')
    (hop : op.Fills cat) (ht : o.type.WellFormed cat) (h : Filled cat o) : Filled cat o' := by
  cases ho with
  | failed => exact h
  | deleted => exact h.withDeleted _
  | assigned hvalue hresolve hmutable hnormal =>
    have hholds := (Property.normalise_takes hvalue hnormal).holds hop
    exact h.insert (allows_of_resolve hresolve hmutable (hholds.of_innermost.attach _)) rfl rfl rfl
  | refused hreached => exact h.instantiate ht hreached
  | @edited _ _ e _ _ _ _ hreached hheld hperformed =>
    have hfilled := h.instantiate ht hreached
    obtain ⟨q', hq, happlicable, hsettable, hv⟩ := hfilled _ _ hheld
    have hbrought : ∀ n, e.assigned? = some n → n.FitsIn cat fun _ => True :=
      fun n hn => (ValueEdit.Fits.assigned hop hn).fitsIn cat.closed_true trivial
    have hedited := hv.perform cat.closed_true (fun _ _ => trivial) hbrought hperformed
    exact hfilled.insert ⟨q', hq, happlicable, hsettable, hedited⟩ rfl rfl rfl
  | cleared => cases hop
  | loaded => cases hop
  | saved => cases hop

theorem Filled.run {ops : List Operation} (h : Filled cat o) (ht : o.type.WellFormed cat)
    (hops : ∀ op ∈ ops, op.Fills cat) : Filled cat (o.run cat ops) := by
  refine (run_induction cat (P := fun o' => o'.type = o.type ∧ Filled cat o') ⟨rfl, h⟩ ?_).2
  rintro o' op hop ⟨htype, hfilled⟩
  have ho := perform_outcome cat o' op
  exact ⟨ho.same.2.1.trans htype, ho.filled (hops op hop) (htype ▸ ht) hfilled⟩

theorem filled_new (cat : Catalog) (id : Nat) (type : ObjectType) (session : Session) :
    Filled cat (new id type session) := by
  intro slot v hv
  cases hv

end LocalCopy

end ObjectTracking
