import ObjectTracking.Property.Basic
import ObjectTracking.SlotSet
/-!
Object types: the properties of a kind of object, in order. Within a type a property is known by its
slot, which is its place in that order.
-/
set_option autoImplicit false

namespace ObjectTracking

/-- What update operations call the object. -/
inductive UpdateTarget where
  | item
  | folder
  deriving DecidableEq, Repr

namespace UpdateTarget

def element : UpdateTarget → UpdateKind → String
  | item, .set => "SetItemField"
  | folder, .set => "SetFolderField"
  | item, .append => "AppendToItemField"
  | folder, .append => "AppendToFolderField"
  | item, .delete => "DeleteItemField"
  | folder, .delete => "DeleteFolderField"

end UpdateTarget

/-- In which views of an object the server returns a property unasked. -/
inductive View where
  /-- In no view. -/
  | none
  /-- In full responses. -/
  | full
  /-- In full responses and in summaries. -/
  | summary
  /-- Always: it is the identity of the object. -/
  | identity
  deriving DecidableEq, Repr

structure Member where
  view : View
  property : Property

/-- Whether a member belongs to the full view. The identity does whatever its flags say. -/
def Member.inFull (m : Member) : Bool :=
  match m.view with
  | .none => false
  | .identity => true
  | _ => !m.property.flags.contains .explicitLoad

def Member.inSummary (m : Member) : Bool :=
  match m.view with
  | .summary => !m.property.flags.contains .explicitLoad
  | .identity => true
  | _ => false

structure ObjectType where
  element : String
  target : UpdateTarget
  members : List Member := []

/-- Which properties are asked for besides those named: the identity alone, or a view. -/
inductive BaseSet where
  | identity
  | view
  deriving DecidableEq, Repr

/-- The properties asked for when an object is loaded. -/
structure PropertySet where
  base : BaseSet := .view
  additional : List Property := []

namespace ObjectType

def add (t : ObjectType) (view : View) (p : Property) : ObjectType :=
  { t with members := t.members ++ [⟨view, p⟩] }

def properties (t : ObjectType) : List Property := t.members.map Member.property

def size (t : ObjectType) : Nat := t.members.length

def property? (t : ObjectType) (slot : Nat) : Option Property := t.properties[slot]?

def propertyNamed? (t : ObjectType) (name : String) : Option Property :=
  t.properties.find? (·.name == name)

/-- The slots of the members that satisfy a condition, ascending; the first member has slot `n`. -/
def slotsFrom (p : Member → Bool) : Nat → List Member → List Nat
  | _, [] => []
  | n, m :: ms => if p m then n :: slotsFrom p (n + 1) ms else slotsFrom p (n + 1) ms

def slots (t : ObjectType) (p : Member → Bool) : List Nat := slotsFrom p 0 t.members

/-- The slot of an address; of several the last. -/
def slotAt? (t : ObjectType) (a : Address) : Option Nat :=
  (t.slots (·.property.address == a)).getLast?

/-- The slot of a property, which is known by its address. -/
def slotOf? (t : ObjectType) (p : Property) : Option Nat := t.slotAt? p.address

def slotOfUri? (t : ObjectType) (uri : String) : Option Nat := t.slotAt? ⟨uri, none⟩

/-- The slots of the properties whose element has a name. Only the entries of a dictionary share an
element. -/
def dispatch (t : ObjectType) (tag : String) : List Nat := t.slots (·.property.element == tag)

def identity? (t : ObjectType) : Option Nat := (t.slots (·.view == .identity)).getLast?

def viewSlots (t : ObjectType) (summary : Bool) : List Nat :=
  t.slots fun m => if summary then m.inSummary else m.inFull

def isInView (t : ObjectType) (slot : Nat) (summary : Bool) : Bool :=
  (t.viewSlots summary).contains slot

def isApplicable (t : ObjectType) (version : ProtocolVersion) (slot : Nat) : Bool :=
  (t.property? slot).any (·.isApplicable version)

/-- The slots that a load asks for: the base and the identity and what is named, without those the
version does not know. -/
def requested (t : ObjectType) (set : PropertySet) (summary : Bool) (version : ProtocolVersion) :
    SlotSet :=
  let base := match set.base with
    | .identity => []
    | .view => t.viewSlots summary
  SlotSet.ofList <|
    (base ++ t.identity?.toList ++ set.additional.filterMap t.slotOf?).filter
      (t.isApplicable version)

end ObjectType

end ObjectTracking
