import ObjectTracking.ObjectType
import ObjectTracking.Edited
import ObjectTracking.Session
import ObjectTracking.SlotMap
import ObjectTracking.UpdateOp
/-!
The local copy of an object on a server: the values of its properties, which of them were loaded,
and which were changed since.

A slot without a value is either not known or known to be empty; the loaded slots tell which. A slot
is assigned or deleted as a whole, or touched by a change within its value.
-/
set_option autoImplicit false

namespace ObjectTracking

structure LocalCopy where
  /-- Tells local copies apart, for the links of their values. -/
  id : Nat
  type : ObjectType
  session : Session
  values : SlotMap Value := ∅
  loaded : SlotSet := ∅
  assigned : SlotSet := ∅
  deleted : SlotSet := ∅
  touched : SlotSet := ∅
  /-- Whether the object was neither loaded from the server nor saved to it. -/
  isNew : Bool := true
  /-- Whether an owner is there to hear of changes. -/
  watched : Bool := false

namespace LocalCopy

def new (id : Nat) (type : ObjectType) (session : Session) : LocalCopy := { id, type, session }

def version (o : LocalCopy) : ProtocolVersion := o.session.version

def link (o : LocalCopy) (slot : Nat) : Link := ⟨o.id, slot⟩

/-- The slot of a property, which the type must have and the version know, and the type's own
property in it. -/
def resolve (o : LocalCopy) (p : Property) : Except Fault (Nat × Property) :=
  match (o.type.slotOf? p).bind fun slot => (o.type.property? slot).map (slot, ·) with
  | none => .error (.unknownProperty p.name o.type.element)
  | some (slot, q) =>
    if q.isApplicable o.version then .ok (slot, q)
    else .error (.versionIncompatible q.name q.since o.version)

def read (o : LocalCopy) (slot : Nat) (q : Property) : Except Fault Value :=
  match o.values.get? slot with
  | some v => .ok v
  | none =>
    if o.deleted.contains slot then .error (.propertyDeleted q.name)
    else
      match q.default? with
      | some v => .ok v
      | none => if o.loaded.contains slot then .ok .null else .error (.notLoaded q.name)

def get (o : LocalCopy) (p : Property) : Except Fault Value := do
  let (slot, q) ← o.resolve p
  o.read slot q

/-- What a property reads as, taken as something of a type; no value is nothing. -/
def getAs {α : Type} (o : LocalCopy) (p : Property) (take : Value → Option α) :
    Except Fault (Option α) := do
  let v ← o.get p
  if v.isNull then .ok none
  else
    match take v with
    | some a => .ok (some a)
    | none => .error (.typeMismatch p.name)

def isDirty (o : LocalCopy) (slot : Nat) : Bool :=
  o.assigned.contains slot || o.deleted.contains slot || o.touched.contains slot

/-- Whether the slot of a property satisfies a condition; without a slot it does not. -/
def slotIs (o : LocalCopy) (p : Property) (test : Nat → Bool) : Bool := (o.type.slotOf? p).any test

def contains (o : LocalCopy) (p : Property) : Bool := o.slotIs p o.values.contains

/-- Whether a property was loaded or saved. -/
def isLoaded (o : LocalCopy) (p : Property) : Bool := o.slotIs p o.loaded.contains

/-- Whether a property was assigned, deleted or changed in place since the last load or save. -/
def isModified (o : LocalCopy) (p : Property) : Bool := o.slotIs p o.isDirty

def isDeleted (o : LocalCopy) (p : Property) : Bool := o.slotIs p o.deleted.contains

def modifiedProperties (o : LocalCopy) : List Property :=
  (o.assigned ∪ o.touched).toList.filterMap o.type.property?

/-- Whether saving the object takes an update. -/
def needsUpdate (o : LocalCopy) : Bool :=
  !o.assigned.isEmpty || !o.deleted.isEmpty || !o.touched.isEmpty

def debug (o : LocalCopy) (cat : Catalog) : String :=
  let shown := o.type.properties.zipIdx.filterMap fun (q, slot) =>
    (o.values.get? slot).map fun v => q.name ++ ": " ++ v.debug cat
  if shown.isEmpty then o.type.element
  else o.type.element ++ " \x7b " ++ String.intercalate ", " shown ++ " \x7d"

end LocalCopy

end ObjectTracking
