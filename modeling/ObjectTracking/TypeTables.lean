import ObjectTracking.KeyMap
import ObjectTracking.ObjectType
import ObjectTracking.Trap
import ObjectTracking.WordSet
/-!
The tables that the properties of an object type are found by. They are filled as the type is put
together, one property after the other, and are only read from then on.
-/
set_option autoImplicit false

namespace ObjectTracking

/-- The properties of a type in order of their slots, and what finds them. -/
structure TypeTables where
  properties : Array Property := #[]
  identity? : Option Nat := none
  full : WordSet := ∅
  summary : WordSet := ∅
  byElement : KeyMap String (List Nat) := ∅
  byAddress : KeyMap Address Nat := ∅

namespace TypeTables

def size (t : TypeTables) : Nat := t.properties.size

/-- Gives a property the next slot, where its element and its address lead to. -/
def push (t : TypeTables) (p : Property) : TypeTables :=
  let slots := (t.byElement.get? p.element).getD []
  { t with
    properties := t.properties.push p
    byElement := t.byElement.insert p.element (slots ++ [t.size])
    byAddress := t.byAddress.insert p.address t.size }

def withFull (t : TypeTables) (slot : Nat) : TypeTables := { t with full := (t.full.insert slot).2 }

def withSummary (t : TypeTables) (slot : Nat) : TypeTables :=
  { t with summary := (t.summary.insert slot).2 }

/-- Adds a property, which a view has unless it must be asked for by name. The identity is in every
view whatever its flags say. -/
def add (t : TypeTables) (view : View) (p : Property) : TypeTables :=
  let slot := t.size
  let t := t.push p
  match view with
  | .none => t
  | .full => if p.flags.contains .explicitLoad then t else t.withFull slot
  | .summary =>
    if p.flags.contains .explicitLoad then t else (t.withFull slot).withSummary slot
  | .identity => { (t.withFull slot).withSummary slot with identity? := some slot }

def ofMembers (members : List Member) : TypeTables :=
  members.foldl (fun t m => t.add m.view m.property) {}

def property? (t : TypeTables) (slot : Nat) : Option Property := t.properties[slot]?

/-- The property of a slot that must be there. -/
def property (t : TypeTables) (slot : Nat) : Except Trap Property :=
  match t.properties[slot]? with
  | some p => .ok p
  | none => .error .vacant

def slotOf? (t : TypeTables) (p : Property) : Option Nat := t.byAddress.get? p.address

def slotOfUri? (t : TypeTables) (uri : String) : Option Nat := t.byAddress.get? ⟨uri, none⟩

def dispatch? (t : TypeTables) (tag : String) : Option (List Nat) := t.byElement.get? tag

def view (t : TypeTables) (summary : Bool) : WordSet := if summary then t.summary else t.full

def isInView (t : TypeTables) (slot : Nat) (summary : Bool) : Bool :=
  (t.view summary).contains slot

def inapplicable (t : TypeTables) (version : ProtocolVersion) :
    List Nat → Except Trap (List Nat)
  | [] => .ok []
  | slot :: slots => do
    let p ← t.property slot
    let rest ← t.inapplicable version slots
    return if p.isApplicable version then rest else slot :: rest

/-- The slots that a load asks for, before the version is looked at. -/
def asked (t : TypeTables) (set : PropertySet) (summary : Bool) : WordSet :=
  let base := match set.base with
    | .identity => ∅
    | .view => t.view summary
  let named := t.identity?.toList ++ set.additional.filterMap t.slotOf?
  named.foldl (fun s slot => (s.insert slot).2) base

def requested (t : TypeTables) (set : PropertySet) (summary : Bool) (version : ProtocolVersion) :
    Except Trap WordSet := do
  let slots := t.asked set summary
  let inapplicable ← t.inapplicable version slots.toList
  return inapplicable.foldl (fun s slot => (s.erase slot).2) slots

end TypeTables

end ObjectTracking
