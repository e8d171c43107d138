import Mathlib.Data.Set.Defs
import ObjectTracking.Proofs.InPlace
import ObjectTracking.Proofs.LocalCopy.Run
/-!
Everything that a copy may become. Besides the operations there are the values within it, which a
caller may change in place however it likes, and values that were taken out of it and report to it
still.
-/
set_option autoImplicit false

namespace ObjectTracking

theorem Value.own_perform {cat : Catalog} {e : ValueEdit} {v : Value} {r : Edited Value Unit}
    (h : v.perform cat e = some r) : r.Own Value.links v := by
  cases e with
  | composite e =>
    cases v with
    | composite c =>
      obtain rfl := Option.some.inj h
      have hown := Composite.own_perform cat e c
      exact ⟨hown.state, hown.signals⟩
    | _ => cases h
  | collection e =>
    cases v with
    | collection c =>
      obtain rfl := Option.some.inj h
      have hown := Collection.own_perform cat e c
      exact ⟨hown.state, hown.signals⟩
    | _ => cases h

namespace LocalCopy
variable {cat : Catalog} {strays : Set Link} {o o' : LocalCopy} {p q : Property} {slot : Nat}

/-- What a copy may become in the hands of its callers, while other values report to it through some
links. -/
inductive Reachable (cat : Catalog) (strays : Set Link) (o : LocalCopy) : LocalCopy → Prop where
  | same : Reachable cat strays o o
  | perform {o' : LocalCopy} (before : Reachable cat strays o o') (op : Operation) :
    Reachable cat strays o (o'.perform cat op).state
  /-- The composite that a property holds is changed in place. -/
  | composite {o' : LocalCopy} (before : Reachable cat strays o o') (p : Property) {α : Type}
      (edit : Composite → Edited Composite α) (own : ∀ c, (edit c).Own Composite.links c) :
    Reachable cat strays o (o'.editComposite p edit).state
  /-- The collection that a property holds is changed in place. -/
  | collection {o' : LocalCopy} (before : Reachable cat strays o o') (p : Property) {α : Type}
      (edit : Collection → Edited Collection α) (own : ∀ c, (edit c).Own Collection.links c) :
    Reachable cat strays o (o'.editCollection p edit).state
  | hear {o' : LocalCopy} (before : Reachable cat strays o o') (signals : List Link)
      (stray : ∀ s ∈ signals, s ∈ strays) : Reachable cat strays o (o'.hear signals)
  | watch {o' : LocalCopy} (before : Reachable cat strays o o') (watched : Bool) :
    Reachable cat strays o { o' with watched }

/-- What a change in place of the value in a slot can make of a copy. -/
inductive InPlace (o : LocalCopy) : LocalCopy → Prop where
  | unreached : InPlace o o
  | reached {p q : Property} {slot : Nat} {o' : LocalCopy}
      (reached : o.instantiate p = .ok (slot, q, o')) : InPlace o o'
  | stored {p q : Property} {slot : Nat} {o' : LocalCopy} {v : Value} {α : Type}
      {r : Edited Value α} (reached : o.instantiate p = .ok (slot, q, o'))
      (held : o'.values.get? slot = some v) (own : r.Own Value.links v) :
      InPlace o (o'.storeEdited slot r).state

theorem editComposite_inPlace {α : Type} (o : LocalCopy) (p : Property)
    {edit : Composite → Edited Composite α} (hown : ∀ c, (edit c).Own Composite.links c) :
    InPlace o (o.editComposite p edit).state := by
  unfold editComposite
  cases hi : o.instantiate p with
  | error e => exact .unreached
  | ok r =>
    obtain ⟨slot, q, o'⟩ := r
    dsimp only
    split
    · rename_i c hc
      exact .stored hi hc ⟨(hown c).state, (hown c).signals⟩
    · exact .reached hi

theorem editCollection_inPlace {α : Type} (o : LocalCopy) (p : Property)
    {edit : Collection → Edited Collection α} (hown : ∀ c, (edit c).Own Collection.links c) :
    InPlace o (o.editCollection p edit).state := by
  unfold editCollection
  cases hi : o.instantiate p with
  | error e => exact .unreached
  | ok r =>
    obtain ⟨slot, q, o'⟩ := r
    dsimp only
    split
    · rename_i c hc
      exact .stored hi hc ⟨(hown c).state, (hown c).signals⟩
    · exact .reached hi

/-- A change in place is one of the values, and of what counts as touched. -/
theorem InPlace.frame (h : InPlace o o') :
    { o' with values := o.values, touched := o.touched } = o := by
  cases h with
  | unreached => rfl
  | reached hi =>
    obtain ⟨-, hframe⟩ := frame_of_instantiate hi
    rw [← hframe]
  | stored hi =>
    obtain ⟨-, hframe⟩ := frame_of_instantiate hi
    rw [← hframe]
    rfl

/-- What the operations keep and the changes in place, and what no report from elsewhere and no watcher
touches, holds of everything that a copy may become. -/
theorem Reachable.invariant {P : LocalCopy → Prop}
    (hperform : ∀ (o : LocalCopy) op, P o → P (o.perform cat op).state)
    (hinPlace : ∀ {o o' : LocalCopy}, InPlace o o' → P o → P o')
    (hhear : ∀ (o : LocalCopy) signals, (∀ s ∈ signals, s ∈ strays) → P o → P (o.hear signals))
    (hwatch : ∀ (o : LocalCopy) watched, P o → P { o with watched })
    (h : Reachable cat strays o o') (ho : P o) : P o' := by
  induction h with
  | same => exact ho
  | perform _ op ih => exact hperform _ op ih
  | composite _ p edit hown ih => exact hinPlace (editComposite_inPlace _ p hown) ih
  | collection _ p edit hown ih => exact hinPlace (editCollection_inPlace _ p hown) ih
  | hear _ signals hstray ih => exact hhear _ signals hstray ih
  | watch _ watched ih => exact hwatch _ watched ih

end LocalCopy

end ObjectTracking
