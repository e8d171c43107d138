import ObjectTracking.LocalCopy.Edit
import ObjectTracking.Property.Content
/-!
Loading a local copy from the element of its object. Elements that are no property of the type, and
those that the version of the session does not know, are passed over with a remark.
-/
set_option autoImplicit false

namespace ObjectTracking
open Markup

namespace LocalCopy

/-- Reads the element a reader stands on as the value of a slot. A property that reuses its value is
read into the one held. -/
def loadSlot (cat : Catalog) (slot : Nat) (q : Property) (tag : Tag) (content : Forest)
    (o : LocalCopy) : Progress LocalCopy :=
  let existing := if q.has .reuseInstance o.version then o.values.get? slot else none
  (q.decode cat o.session ⟨some tag, content⟩ existing).map fun v =>
    { o with
      values :=
        if v.isNull then o.values.erase slot else o.values.insert slot (v.attach (o.link slot))
      loaded := o.loaded.insert slot }

def entrySlot? (o : LocalCopy) (slots : List Nat) (key : Option String) :
    Option (Nat × Property) :=
  slots.findSome? fun slot =>
    (o.type.property? slot).bind fun q => if q.key? = key then some (slot, q) else none

def loadEntry (cat : Catalog) (slots : List Nat) (tag : Tag) (content : Forest) (o : LocalCopy) :
    Progress LocalCopy :=
  if tag.ns = some .types ∧ tag.name = "Entry" then
    let key := tag.attribute? "Key"
    let pass := (content.skip o).remarked [.unknownEntry key o.type.element]
    match o.entrySlot? slots key with
    | some (slot, q) => if q.isApplicable o.version then o.loadSlot cat slot q tag content else pass
    | none => pass
  else content.skip o

def loadElement (cat : Catalog) (tag : Tag) (content : Forest) (o : LocalCopy) :
    Progress LocalCopy :=
  let slots := o.type.dispatch tag.name
  match slots.head?.bind fun slot => (o.type.property? slot).map (slot, ·) with
  | none => (content.skip o).remarked [.unknownElement tag.name o.type.element]
  | some (slot, q) =>
    if q.key?.isSome then content.walk (loadEntry cat slots) o
    else if q.isApplicable o.version then o.loadSlot cat slot q tag content
    else (content.skip o).remarked [.unsupportedElement tag.name q.since o.version]

/-- Loads the object from the element a reader stands on, given its content. Every property asked
for counts as loaded, whether or not the server returned it. If anything cannot be read, the copy is
left as that of a new object. -/
def load (o : LocalCopy) (cat : Catalog) (content : Forest) (clearFirst : Bool)
    (asked : PropertySet) (summary : Bool) : Progress LocalCopy :=
  let p := content.walk (loadElement cat) (if clearFirst then o.clear else o)
  p.map fun o =>
    if p.stop?.isSome then o.clear
    else
      { o with
        loaded := o.loaded ∪ o.type.requested asked summary o.version
        assigned := ∅
        deleted := ∅
        touched := ∅
        isNew := false }

end LocalCopy

end ObjectTracking
