import ObjectTracking.LocalCopy.Load
import ObjectTracking.Property.Reader
/-!
Local copies read node by node from the element of their object.
-/
set_option autoImplicit false

namespace ObjectTracking
open Markup

namespace LocalCopy

def readSlot (cat : Catalog) (slot : Nat) (q : Property) (c : Cursor) (o : LocalCopy) :
    Passage c LocalCopy :=
  let existing := if q.has .reuseInstance o.version then o.values.get? slot else none
  (q.read cat o.session c existing).map fun v =>
    { o with
      values :=
        if v.isNull then o.values.erase slot else o.values.insert slot (v.attach (o.link slot))
      loaded := o.loaded.insert slot }

def readEntry (cat : Catalog) (slots : List Nat) (c : Cursor) (tag : Tag) (o : LocalCopy) :
    Passage c LocalCopy :=
  if tag.ns = some .types ∧ tag.name = "Entry" then
    let key := tag.attribute? "Key"
    let pass := (c.pass o).remarked [.unknownEntry key o.type.element]
    match o.entrySlot? slots key with
    | some (slot, q) => if q.isApplicable o.version then o.readSlot cat slot q c else pass
    | none => pass
  else c.pass o

def readElement (cat : Catalog) (c : Cursor) (tag : Tag) (o : LocalCopy) : Passage c LocalCopy :=
  let slots := o.type.dispatch tag.name
  match slots.head?.bind fun slot => (o.type.property? slot).map (slot, ·) with
  | none => (c.pass o).remarked [.unknownElement tag.name o.type.element]
  | some (slot, q) =>
    if q.key?.isSome then c.readElements (fun c' _ => readEntry cat slots c') o
    else if q.isApplicable o.version then o.readSlot cat slot q c
    else (c.pass o).remarked [.unsupportedElement tag.name q.since o.version]

def readObject (o : LocalCopy) (cat : Catalog) (c : Cursor) (clearFirst : Bool) (asked : PropertySet)
    (summary : Bool) : Passage c LocalCopy :=
  let p := c.readElements (fun c' _ => readElement cat c') (if clearFirst then o.clear else o)
  p.map fun o =>
    if p.fault?.isSome then o.clear
    else
      { o with
        loaded := o.loaded ∪ o.type.requested asked summary o.version
        assigned := ∅
        deleted := ∅
        touched := ∅
        isNew := false }

end LocalCopy

end ObjectTracking
