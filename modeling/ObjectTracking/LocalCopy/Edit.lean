import ObjectTracking.LocalCopy.Basic
import ObjectTracking.Path
/-!
Changing a local copy: whole properties are assigned and deleted, nested values are changed in
place. Every change is reported, through the link of its slot, to whoever owns the local copy.
-/
set_option autoImplicit false

namespace ObjectTracking

namespace LocalCopy

/-- A property must be settable and, unless the object is new, updatable. -/
def checkMutable (o : LocalCopy) (q : Property) : Except Fault Unit :=
  if !q.has .settable o.version then .error (.readOnly q.name)
  else if !o.isNew && !q.has .updatable o.version then .error (.notUpdatable q.name)
  else .ok ()

/-- Deletes a property, so that an update removes it from the object. -/
def delete (o : LocalCopy) (p : Property) : Edited LocalCopy Unit :=
  match o.resolve p with
  | .error e => .failed e o
  | .ok (slot, q) =>
    if !q.nullable then .failed (.notNullable q.name) o
    else if !q.has .deletable o.version then .failed (.notDeletable q.name) o
    else
      .done () { o with
        values := o.values.erase slot
        assigned := o.assigned.erase slot
        touched := o.touched.erase slot
        deleted := o.deleted.insert slot } (o.link slot)

/-- Assigns a property. Assigning no value deletes it. -/
def set (o : LocalCopy) (p : Property) (v : Value) : Edited LocalCopy Unit :=
  if v.isNull then o.delete p
  else
    match o.resolve p with
    | .error e => .failed e o
    | .ok (slot, q) =>
      match o.checkMutable q, q.normalise v with
      | .error e, _ => .failed e o
      | .ok (), .error e => .failed e o
      | .ok (), .ok v =>
        .done () { o with
          values := o.values.insert slot (v.attach (o.link slot))
          deleted := o.deleted.erase slot
          assigned := o.assigned.insert slot } (o.link slot)

/-- Makes sure that the slot of a property has a value to change in place. One that is created on
read gets its default; the creation alone is no change. -/
def instantiate (o : LocalCopy) (p : Property) : Except Fault (Nat × Property × LocalCopy) := do
  let (slot, q) ← o.resolve p
  o.checkMutable q
  if o.values.contains slot then .ok (slot, q, o)
  else
    match q.default? with
    | some v =>
      if q.has .autoCreate o.version && !o.deleted.contains slot then
        .ok (slot, q, { o with values := o.values.insert slot (v.copy.attach (o.link slot)) })
      else do
        let _ ← o.get q
        .error (.typeMismatch q.name)
    | none =>
      let _ ← o.get q
      .error (.typeMismatch q.name)

def hear (o : LocalCopy) (signals : List Link) : LocalCopy :=
  { o with touched :=
      (signals.filter (·.copy == o.id)).foldl (fun s k => s.insert k.slot) o.touched }

/-- Replaces the value of a slot by its edited form and notes what the edit reported. -/
def storeEdited {α : Type} (o : LocalCopy) (slot : Nat) (e : Edited Value α) : Edited LocalCopy α :=
  e.within [] fun v => { o with values := o.values.insert slot v }.hear e.signals

def editComposite {α : Type} (o : LocalCopy) (p : Property)
    (edit : Composite → Edited Composite α) : Edited LocalCopy α :=
  match o.instantiate p with
  | .error e => .failed e o
  | .ok (slot, q, o) =>
    match o.values.get? slot with
    | some (.composite c) => o.storeEdited slot ((edit c).within [] .composite)
    | _ => .failed (.typeMismatch q.name) o

def editCollection {α : Type} (o : LocalCopy) (p : Property)
    (edit : Collection → Edited Collection α) : Edited LocalCopy α :=
  match o.instantiate p with
  | .error e => .failed e o
  | .ok (slot, q, o) =>
    match o.values.get? slot with
    | some (.collection c) => o.storeEdited slot ((edit c).within [] .collection)
    | _ => .failed (.typeMismatch q.name) o

/-- Edits the composite at the end of a path within the value that a property holds, which is a
collection if the path begins with an item. -/
def editAt {α : Type} (o : LocalCopy) (cat : Catalog) (p : Property) (path : List Step)
    (edit : Composite → Edited Composite α) : Edited LocalCopy (Option α) :=
  match path with
  | .item _ :: _ => o.editCollection p (Collection.editAt cat edit path)
  | _ => o.editComposite p (Composite.editAt cat edit path)

/-- The reports that reach the owner, by slot, and those that reach nobody because their copy is
gone; this is the only copy there is. -/
def heard (o : LocalCopy) (signals : List Link) : List Nat × List Report :=
  let (own, strays) := signals.partition (·.copy == o.id)
  (if o.watched then own.map Link.slot else [], strays.map fun k => .orphaned k.slot)

/-- Goes back to the state of a new object. -/
def clear (o : LocalCopy) : LocalCopy :=
  { o with values := ∅, loaded := ∅, assigned := ∅, deleted := ∅, touched := ∅, isNew := true }

def settled : Value → Value
  | .collection c => .collection c.markSaved
  | v => v

/-- Notes that the object was saved with its current values. -/
def markSaved (o : LocalCopy) : LocalCopy :=
  { o with
    loaded := o.loaded ∪ o.assigned ∪ o.deleted
    assigned := ∅
    deleted := ∅
    touched := ∅
    values := o.values.map settled
    isNew := false }

end LocalCopy

end ObjectTracking
