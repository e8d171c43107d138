import ObjectTracking.LocalCopy.Basic
import ObjectTracking.Mail.TimeZone
/-!
What is sent to the server: a new object as a whole, or the operations that bring the server's copy
up to date.

A property that was assigned is sent whole. A collection changed in place is sent item by item if
its property allows that at the session's version. A collection without items is deleted, since
nothing else can be written for it.
-/
set_option autoImplicit false

namespace ObjectTracking
open Markup
open Time (Offset)

namespace LocalCopy

/-- Whether a changed collection is sent item by item: the property must take that, and additions
if there are any. -/
def sendsItems (o : LocalCopy) (q : Property) (c : Collection) : Bool :=
  q.has .itemLevel o.version && (c.added.isEmpty || q.has .appendable o.version)

def itemOps (q : Property) (c : Collection) : List UpdateOp :=
  c.added.map (.append q) ++ c.removedPositions.map (.deleteItem q) ++
    c.modified.map fun (position, item) => .setItem q position item

def slotOps (o : LocalCopy) (slot : Nat) (q : Property) : List UpdateOp :=
  if !q.isApplicable o.version then []
  else if o.deleted.contains slot then [.delete q]
  else if !o.assigned.contains slot && !o.touched.contains slot then []
  else
    match o.values.get? slot with
    | none => []
    | some (.collection c) =>
      if !o.assigned.contains slot && o.sendsItems q c then itemOps q c
      else if c.entries.isEmpty then [.delete q]
      else [.set q (.collection c)]
    | some v => [.set q v]

/-- The operations that bring the server's copy up to date, in the order of the slots. -/
def payload (o : LocalCopy) : List UpdateOp :=
  o.type.properties.zipIdx.flatMap fun (q, slot) => o.slotOps slot q

/-- The zone of the zone property that a date-time follows, if that property has changed. -/
def linkedZone (o : LocalCopy) (cat : Catalog) (q : Property) : Option Offset := do
  let uri ← q.zoneUri?
  let slot ← o.type.slotOfUri? uri
  if o.isDirty slot then
    let c ← (← o.values.get? slot).composite?
    c.zoneOffset? cat
  else none

/-- The value that a new object is sent with. -/
def createValue? (o : LocalCopy) (slot : Nat) (q : Property) : Option Value :=
  if q.isApplicable o.version && q.has .settable o.version then o.values.get? slot else none

def encodeDictionary (o : LocalCopy) (cat : Catalog) (ctx : WriteContext) (element : String) :
    Encoding :=
  .element .types element <| .concat <|
    (o.type.dispatch element).map fun slot =>
      match o.type.property? slot with
      | none => .nothing
      | some q =>
        match o.createValue? slot q with
        | some v => q.encodeEntry cat ctx v
        | none => .nothing

/-- The elements of the properties from a slot on. A dictionary stands where its first entry
does. -/
def encodeMembers (o : LocalCopy) (cat : Catalog) (ctx : WriteContext) :
    List String → List (Property × Nat) → Encoding
  | _, [] => .nothing
  | written, (q, slot) :: rest =>
    match o.createValue? slot q with
    | none => o.encodeMembers cat ctx written rest
    | some v =>
      if q.key?.isNone then q.encode cat ctx v ++ o.encodeMembers cat ctx written rest
      else if written.contains q.element then o.encodeMembers cat ctx written rest
      else
        o.encodeDictionary cat ctx q.element ++
          o.encodeMembers cat ctx (q.element :: written) rest

def encodeCreate (o : LocalCopy) (cat : Catalog) : Encoding :=
  .element .types o.type.element
    (o.encodeMembers cat ⟨o.session, false, none⟩ [] o.type.properties.zipIdx)

def encodeUpdate (o : LocalCopy) (cat : Catalog) : Encoding :=
  .element .types "Updates" <| .concat <|
    o.payload.map fun op =>
      op.encode cat o.type ⟨o.session, true, o.linkedZone cat op.property⟩

def encode (o : LocalCopy) (cat : Catalog) (isUpdate : Bool) : Encoding :=
  if isUpdate then o.encodeUpdate cat else o.encodeCreate cat

end LocalCopy

end ObjectTracking
