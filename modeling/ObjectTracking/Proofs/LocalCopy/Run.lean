import ObjectTracking.LocalCopy.Load
import ObjectTracking.LocalCopy.Save
import ObjectTracking.Proofs.Links
/-!
Runs of a local copy: operations as data, what each of them does to a slot, and everything that it
can make of a copy.

An operation either fails and leaves the copy alone, or changes one slot, or settles all of them.
The one exception is an edit that fails after its value was created on read; the value stays.
-/
set_option autoImplicit false

namespace ObjectTracking
open Markup

/-- An operation on a local copy. -/
inductive Operation where
  | set (p : Property) (v : Value)
  | delete (p : Property)
  /-- An edit of the value that a property holds. -/
  | edit (p : Property) (edit : ValueEdit)
  | clear
  | load (content : Forest) (clearFirst : Bool) (asked : PropertySet) (summary : Bool)
  | markSaved

/-- What an operation does to the slots. -/
inductive Event where
  | assigned (slot : Nat)
  | deleted (slot : Nat)
  /-- The value of the slot was changed in place. -/
  | edited (slot : Nat)
  /-- Everything counts as loaded or saved, or the copy as that of a new object. -/
  | settled
  deriving DecidableEq, Repr

namespace LocalCopy

def edit (cat : Catalog) (o : LocalCopy) (p : Property) : ValueEdit → Edited LocalCopy Unit
  | .composite edit => o.editComposite p (Composite.perform cat edit)
  | .collection edit => o.editCollection p (Collection.perform cat edit)

def perform (cat : Catalog) (o : LocalCopy) : Operation → Edited LocalCopy Unit
  | .set p v => o.set p v
  | .delete p => o.delete p
  | .edit p edit => o.edit cat p edit
  | .clear => .done () o.clear none
  | .load content clearFirst asked summary =>
    let p := o.load cat content clearFirst asked summary
    ⟨p.result.map fun _ => (), p.state, []⟩
  | .markSaved => .done () o.markSaved none

/-- What an operation does to the slots of a copy; nothing if it fails or changes nothing. -/
def event? (cat : Catalog) (o : LocalCopy) : Operation → Option Event
  | .set p v =>
    if (o.set p v).result.isOk then
      (o.type.slotOf? p).map fun slot => if v.isNull then .deleted slot else .assigned slot
    else none
  | .delete p => if (o.delete p).result.isOk then (o.type.slotOf? p).map .deleted else none
  | .edit p edit =>
    match o.instantiate p with
    | .error _ => none
    | .ok (slot, _, o') =>
      if (o'.values.get? slot).any (Value.changes cat edit) then some (.edited slot) else none
  | .clear | .load .. | .markSaved => some .settled

def run (cat : Catalog) (o : LocalCopy) (ops : List Operation) : LocalCopy :=
  ops.foldl (fun o op => (o.perform cat op).state) o

def history (cat : Catalog) (o : LocalCopy) : List Operation → List Event
  | [] => []
  | op :: ops => (o.event? cat op).toList ++ (o.perform cat op).state.history cat ops

@[simp] theorem run_nil (cat : Catalog) (o : LocalCopy) : o.run cat [] = o := rfl

@[simp] theorem run_cons (cat : Catalog) (o : LocalCopy) (op : Operation) (ops : List Operation) :
    o.run cat (op :: ops) = (o.perform cat op).state.run cat ops := rfl

theorem run_append (cat : Catalog) (o : LocalCopy) (ops ops' : List Operation) :
    o.run cat (ops ++ ops') = (o.run cat ops).run cat ops' := List.foldl_append

/-- What every operation keeps, every run keeps. -/
theorem run_induction (cat : Catalog) {P : LocalCopy → Prop} {o : LocalCopy} {ops : List Operation}
    (hstart : P o) (hstep : ∀ o, ∀ op ∈ ops, P o → P (o.perform cat op).state) :
    P (o.run cat ops) := by
  induction ops generalizing o with
  | nil => exact hstart
  | cons op ops ih =>
    refine ih (hstep o op List.mem_cons_self hstart) ?_
    intro o' op' hop
    exact hstep o' op' (List.mem_cons_of_mem op hop)

section Reach
variable {o o' : LocalCopy} {p q : Property} {slot : Nat}

theorem resolve_eq_ok_iff : o.resolve p = .ok (slot, q) ↔
    o.type.slotOf? p = some slot ∧ o.type.property? slot = some q ∧
      q.isApplicable o.version = true := by
  unfold resolve
  cases hs : o.type.slotOf? p with
  | none => simp
  | some s =>
    cases hq : o.type.property? s with
    | none =>
      simp only [hq, Option.bind_some, Option.map_none, reduceCtorEq, Option.some.injEq,
        false_iff]
      rintro ⟨rfl, h, _⟩
      exact absurd (hq.symm.trans h) (by simp)
    | some r =>
      simp only [hq, Option.bind_some, Option.map_some, Option.some.injEq]
      split
      · rename_i ha
        simp only [Except.ok.injEq, Prod.mk.injEq]
        constructor
        · rintro ⟨rfl, rfl⟩
          exact ⟨rfl, hq, ha⟩
        · rintro ⟨rfl, h, _⟩
          exact ⟨rfl, Option.some.inj (hq.symm.trans h)⟩
      · rename_i ha
        simp only [reduceCtorEq, false_iff]
        rintro ⟨rfl, h, hr⟩
        obtain rfl := Option.some.inj (hq.symm.trans h)
        exact ha hr

def created (o : LocalCopy) (slot : Nat) (v : Value) : LocalCopy :=
  { o with values := o.values.insert slot (v.copy.attach (o.link slot)) }

def withDeleted (o : LocalCopy) (slot : Nat) : LocalCopy :=
  { o with
    values := o.values.erase slot
    assigned := o.assigned.erase slot
    touched := o.touched.erase slot
    deleted := o.deleted.insert slot }

def withAssigned (o : LocalCopy) (slot : Nat) (v : Value) : LocalCopy :=
  { o with
    values := o.values.insert slot (v.attach (o.link slot))
    deleted := o.deleted.erase slot
    assigned := o.assigned.insert slot }

theorem instantiate_eq_ok (h : o.instantiate p = .ok (slot, q, o')) :
    o.resolve p = .ok (slot, q) ∧ o.checkMutable q = .ok () ∧
      ((o.values.contains slot = true ∧ o' = o) ∨
        ∃ v, o.values.get? slot = none ∧ o.deleted.contains slot = false ∧
          q.default? = some v ∧ q.has .autoCreate o.version = true ∧ o' = o.created slot v) := by
  unfold instantiate at h
  cases hr : o.resolve p with
  | error e => simp [hr, bind, Except.bind] at h
  | ok r =>
    obtain ⟨s, r⟩ := r
    cases hm : o.checkMutable r with
    | error e => simp [hr, hm, bind, Except.bind] at h
    | ok u =>
      simp only [hr, hm, bind, Except.bind] at h
      split at h
      · rename_i hc
        simp only [Except.ok.injEq, Prod.mk.injEq] at h
        obtain ⟨rfl, rfl, rfl⟩ := h
        exact ⟨rfl, hm, .inl ⟨hc, rfl⟩⟩
      · rename_i hc
        split at h
        · rename_i v hv
          split at h
          · rename_i ha
            simp only [Except.ok.injEq, Prod.mk.injEq] at h
            obtain ⟨rfl, rfl, rfl⟩ := h
            simp only [Bool.and_eq_true, Bool.not_eq_true'] at ha
            refine ⟨rfl, hm, .inr ⟨v, ?_, ha.2, hv, ha.1, rfl⟩⟩
            simpa [SlotMap.contains] using hc
          · split at h <;> cases h
        · split at h <;> cases h

/-- A value that is created on read changes nothing about where the property is found. -/
theorem resolve_of_instantiate (h : o.instantiate p = .ok (slot, q, o')) :
    o'.resolve p = .ok (slot, q) := by
  obtain ⟨hr, _, ⟨_, rfl⟩ | ⟨v, _, _, _, _, rfl⟩⟩ := instantiate_eq_ok h
  · exact hr
  · exact hr

/-- What is created on read is no change of anything but its slot's value. -/
theorem frame_of_instantiate (hi : o.instantiate p = .ok (slot, q, o')) :
    (∀ n, n ≠ slot → o'.values.get? n = o.values.get? n) ∧ { o' with values := o.values } = o := by
  obtain ⟨_, _, ⟨_, rfl⟩ | ⟨v, _, _, _, _, rfl⟩⟩ := instantiate_eq_ok hi
  · exact ⟨fun _ _ => rfl, rfl⟩
  · exact ⟨fun n hn => by simp [created, hn], rfl⟩

theorem link_of_instantiate (hi : o.instantiate p = .ok (slot, q, o')) (n : Nat) :
    o'.link n = o.link n := by
  rw [← (frame_of_instantiate hi).2]
  rfl

theorem delete_eq (o : LocalCopy) (p : Property) :
    (∃ e, o.delete p = .failed e o) ∨
    ∃ slot q, o.resolve p = .ok (slot, q) ∧ q.nullable = true ∧
      q.has .deletable o.version = true ∧
      o.delete p = .done () (o.withDeleted slot) (o.link slot) := by
  unfold delete
  cases hr : o.resolve p with
  | error e => exact .inl ⟨e, rfl⟩
  | ok r =>
    obtain ⟨slot, q⟩ := r
    by_cases hn : q.nullable = true
    · by_cases hd : q.has .deletable o.version = true
      · exact .inr ⟨slot, q, rfl, hn, hd, by simp [hn, hd, withDeleted]⟩
      · exact .inl ⟨.notDeletable q.name, by simp [hn, hd]⟩
    · exact .inl ⟨.notNullable q.name, by simp [hn]⟩

theorem set_eq (o : LocalCopy) (p : Property) {v : Value} (hv : v.isNull = false) :
    (∃ e, o.set p v = .failed e o) ∨
    ∃ slot q v', o.resolve p = .ok (slot, q) ∧ o.checkMutable q = .ok () ∧
      q.normalise v = .ok v' ∧ o.set p v = .done () (o.withAssigned slot v') (o.link slot) := by
  unfold set
  simp only [hv, Bool.false_eq_true, if_false]
  cases hr : o.resolve p with
  | error e => exact .inl ⟨e, rfl⟩
  | ok r =>
    obtain ⟨slot, q⟩ := r
    cases hm : o.checkMutable q with
    | error e => exact .inl ⟨e, by simp [hm]⟩
    | ok u =>
      cases hn : q.normalise v with
      | error e => exact .inl ⟨e, by simp [hm, hn]⟩
      | ok v' => exact .inr ⟨slot, q, v', rfl, hm, hn, by simp [hm, hn, withAssigned]⟩

theorem edit_eq (cat : Catalog) (o : LocalCopy) (p : Property) (e : ValueEdit) :
    (∃ f, o.instantiate p = .error f ∧ o.edit cat p e = .failed f o) ∨
    ∃ slot q o', o.instantiate p = .ok (slot, q, o') ∧
      ((∃ v r, o'.values.get? slot = some v ∧ v.perform cat e = some r ∧
          o.edit cat p e = o'.storeEdited slot r) ∨
        ((∀ v, o'.values.get? slot = some v → v.perform cat e = none) ∧
          ∃ f, o.edit cat p e = .failed f o')) := by
  cases hi : o.instantiate p with
  | error f =>
    refine .inl ⟨f, rfl, ?_⟩
    cases e <;> simp [edit, editComposite, editCollection, hi]
  | ok r =>
    obtain ⟨slot, q, o'⟩ := r
    refine .inr ⟨slot, q, o', rfl, ?_⟩
    cases hv : o'.values.get? slot with
    | none =>
      refine .inr ⟨by simp, .typeMismatch q.name, ?_⟩
      cases e <;> simp [edit, editComposite, editCollection, hi, hv]
    | some v =>
      cases e with
      | composite e =>
        cases v with
        | composite c =>
          exact .inl ⟨_, _, rfl, rfl, by simp [edit, editComposite, hi, hv]⟩
        | _ =>
          refine .inr ⟨?_, .typeMismatch q.name, by simp [edit, editComposite, hi, hv]⟩
          rintro _ ⟨⟩
          rfl
      | collection e =>
        cases v with
        | collection c =>
          exact .inl ⟨_, _, rfl, rfl, by simp [edit, editCollection, hi, hv]⟩
        | _ =>
          refine .inr ⟨?_, .typeMismatch q.name, by simp [edit, editCollection, hi, hv]⟩
          rintro _ ⟨⟩
          rfl

end Reach

/-- Everything that an operation can make of a copy, with what it does to the slots. -/
inductive Outcome (cat : Catalog) (o : LocalCopy) : Operation → Option Event → LocalCopy → Prop where
  | failed (op : Operation) : Outcome cat o op none o
  | deleted (op : Operation) {p q : Property} {slot : Nat} (hop : op = .delete p ∨ op = .set p .null)
      (resolved : o.resolve p = .ok (slot, q)) (nullable : q.nullable = true)
      (deletable : q.has .deletable o.version = true) :
      Outcome cat o op (some (.deleted slot)) (o.withDeleted slot)
  | assigned {p q : Property} {v v' : Value} {slot : Nat} (value : v.isNull = false)
      (resolved : o.resolve p = .ok (slot, q)) (mutable : o.checkMutable q = .ok ())
      (normal : q.normalise v = .ok v') :
      Outcome cat o (.set p v) (some (.assigned slot)) (o.withAssigned slot v')
  | refused {p q : Property} {e : ValueEdit} {slot : Nat} {o' : LocalCopy}
      (reached : o.instantiate p = .ok (slot, q, o')) : Outcome cat o (.edit p e) none o'
  | edited {p q : Property} {e : ValueEdit} {slot : Nat} {o' : LocalCopy} {v : Value}
      {r : Edited Value Unit} (reached : o.instantiate p = .ok (slot, q, o'))
      (held : o'.values.get? slot = some v) (performed : v.perform cat e = some r) :
      Outcome cat o (.edit p e) (if v.changes cat e then some (.edited slot) else none)
        (o'.storeEdited slot r).state
  | cleared : Outcome cat o .clear (some .settled) o.clear
  | loaded (content : Forest) (clearFirst : Bool) (asked : PropertySet) (summary : Bool) :
      Outcome cat o (.load content clearFirst asked summary) (some .settled)
        (o.load cat content clearFirst asked summary).state
  | saved : Outcome cat o .markSaved (some .settled) o.markSaved

theorem perform_eq_none_changes {cat : Catalog} {e : ValueEdit} {v : Value}
    (h : v.perform cat e = none) : v.changes cat e = false := by
  cases e <;> cases v <;> first | rfl | cases h

theorem perform_outcome (cat : Catalog) (o : LocalCopy) (op : Operation) :
    Outcome cat o op (o.event? cat op) (o.perform cat op).state := by
  have hdelete : ∀ (op : Operation) (p : Property), (op = .delete p ∨ op = .set p .null) →
      Outcome cat o op
        (if (o.delete p).result.isOk then (o.type.slotOf? p).map .deleted else none)
        (o.delete p).state := by
    intro op p hop
    rcases delete_eq o p with ⟨e, h⟩ | ⟨slot, q, hr, hn, hd, h⟩
    · simpa [h, Edited.failed, Except.isOk, Except.toBool] using Outcome.failed op
    · rw [h, (resolve_eq_ok_iff.mp hr).1]
      exact .deleted op hop hr hn hd
  cases op with
  | set p v =>
    cases hv : v.isNull with
    | true =>
      obtain rfl : v = .null := by
        cases v <;> first | rfl | cases hv
      exact hdelete _ p (.inr rfl)
    | false =>
      rcases set_eq o p hv with ⟨e, h⟩ | ⟨slot, q, v', hr, hm, hn, h⟩
      · simpa [event?, perform, h, Edited.failed, Except.isOk, Except.toBool] using
          Outcome.failed (.set p v)
      · simp only [event?, perform, h, hv, (resolve_eq_ok_iff.mp hr).1]
        exact .assigned hv hr hm hn
  | delete p => exact hdelete _ p (.inl rfl)
  | edit p e =>
    rcases edit_eq cat o p e with ⟨f, hi, h⟩ | ⟨slot, q, o', hi, ⟨v, r, hv, hr, h⟩ | ⟨hnone, f, h⟩⟩
    · simpa [event?, perform, h, hi] using Outcome.failed (.edit p e)
    · simpa [event?, perform, h, hi, hv] using Outcome.edited hi hv hr
    · have hany : (o'.values.get? slot).any (Value.changes cat e) = false := by
        cases hv : o'.values.get? slot with
        | none => rfl
        | some v => exact perform_eq_none_changes (hnone v hv)
      simpa [event?, perform, h, hi, hany] using Outcome.refused (e := e) hi
  | clear => exact .cleared
  | load content clearFirst asked summary => exact .loaded content clearFirst asked summary
  | markSaved => exact .saved

end LocalCopy

end ObjectTracking
