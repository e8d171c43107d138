import ObjectTracking.Collection.Edit
/-!
Properties: the name and address of one field of an object type, how its value maps to XML, and what
may be done with it at which version of the protocol.
-/
set_option autoImplicit false

namespace ObjectTracking

inductive Flag where
  /-- It may be given a value on a new object. -/
  | settable
  /-- It may be deleted from an object. -/
  | deletable
  /-- It may be changed on an existing object. -/
  | updatable
  /-- Items may be appended to it on an existing object. -/
  | appendable
  /-- It is no part of the usual views of an object and must be asked for by name. -/
  | explicitLoad
  /-- Reading merges into the value already held. -/
  | reuseInstance
  /-- Changes of a collection are sent item by item. -/
  | itemLevel
  /-- It reads as an empty value when unset, and changing it in place creates that value. -/
  | autoCreate
  deriving DecidableEq, Repr

namespace Flag

/-- Every flag, in the order of its bit. -/
def all : List Flag :=
  [settable, deletable, updatable, appendable, explicitLoad, reuseInstance, itemLevel, autoCreate]

def mutable : List Flag := [settable, deletable, updatable]

/-- A set of flags as a number, the first flag being the lowest bit. -/
def bits (flags : List Flag) : Nat :=
  all.foldr (fun f n => 2 * n + (if flags.contains f then 1 else 0)) 0

end Flag

/-- How the value of a property maps to its element. -/
inductive Shape where
  /-- The text of the element is a scalar. -/
  | scalar (codec : Codec)
  /-- The text of the element is a date-time. When it is written in an update, the zone property
  with the given URI decides its zone, if that property has changed. -/
  | dateTime (zoneUri : Option String)
  /-- The element is a composite. -/
  | composite (layout : LayoutId)
  /-- The element holds the items of a collection. -/
  | collection (layout : LayoutId) (element : String)
  /-- The value is the entry of a key in a dictionary, which is the element. -/
  | indexed (key : String) (inner : Shape)
  /-- The content of the element stands in a wrapper within it. -/
  | contained (wrapper : String) (inner : Shape)

namespace Shape

def innermost : Shape → Shape
  | indexed _ inner => inner.innermost
  | contained _ inner => inner.innermost
  | shape => shape

/-- The empty value of a nested shape; other shapes have none. -/
def emptyValue (cat : Catalog) (shape : Shape) : Value :=
  match shape.innermost with
  | composite l => .composite (Composite.new cat l)
  | collection l element => .collection (Collection.new l element)
  | _ => .null

def normalise (shape : Shape) (property : String) (v : Value) : Except Fault Value :=
  let mismatch : Except Fault Value := .error (.typeMismatch property)
  match shape.innermost, v with
  | scalar codec, .scalar s => (codec.normalise property s).map .scalar
  | dateTime _, .scalar (.dateTime t) => .ok (.scalar (.dateTime t))
  | composite l, .composite c => if c.layout = l then .ok v else mismatch
  | collection l element, .collection c =>
    if c.layout = l ∧ c.element = element then .ok v else mismatch
  | _, _ => mismatch

end Shape

/-- What a property is known by: the URI of its field and, within a dictionary, its key. -/
structure Address where
  uri : String
  key : Option String
  deriving DecidableEq, Repr

structure Property where
  name : String
  element : String
  uri : String
  shape : Shape
  since : ProtocolVersion := .oldest
  flags : List Flag := []
  /-- Flags that hold only from a version on. -/
  gates : List (List Flag × ProtocolVersion) := []
  nullable : Bool := true
  /-- What it reads as when it is neither stored nor deleted. -/
  default? : Option Value := none

namespace Property

def ofShape (element uri : String) (shape : Shape) : Property :=
  { name := element, element, uri, shape }

def scalar (element uri : String) (codec : Codec) : Property := ofShape element uri (.scalar codec)

def dateTime (element uri : String) : Property := ofShape element uri (.dateTime none)

def linkedDateTime (element uri zoneUri : String) : Property :=
  ofShape element uri (.dateTime (some zoneUri))

def composite (element uri : String) (layout : LayoutId) : Property :=
  ofShape element uri (.composite layout)

def collection (element uri : String) (layout : LayoutId) (item : String) : Property :=
  ofShape element uri (.collection layout item)

/-- Makes it the entry of a key, which also becomes its name. -/
def indexed (p : Property) (key : String) : Property :=
  { p with shape := .indexed key p.shape, name := key }

def contained (p : Property) (wrapper : String) : Property :=
  { p with shape := .contained wrapper p.shape }

def named (p : Property) (name : String) : Property := { p with name }

def withFlags (p : Property) (flags : List Flag) : Property := { p with flags := p.flags ++ flags }

def withFlagsSince (p : Property) (flags : List Flag) (version : ProtocolVersion) : Property :=
  { p with flags := p.flags ++ flags, gates := p.gates ++ [(flags, version)] }

def introducedIn (p : Property) (version : ProtocolVersion) : Property :=
  { p with since := version }

def notNullable (p : Property) : Property := { p with nullable := false }

def withDefault (p : Property) (v : Value) : Property := { p with default? := some v }

def createdOnRead (p : Property) (cat : Catalog) : Property :=
  { p with flags := p.flags ++ [.autoCreate], default? := some (p.shape.emptyValue cat) }

def key? (p : Property) : Option String :=
  match p.shape with
  | .indexed key _ => some key
  | _ => none

def address (p : Property) : Address := ⟨p.uri, p.key?⟩

def zoneUri? (p : Property) : Option String :=
  match p.shape.innermost with
  | .dateTime uri => uri
  | _ => none

def isApplicable (p : Property) (v : ProtocolVersion) : Bool := p.since ≤ v

def has (p : Property) (f : Flag) (v : ProtocolVersion) : Bool :=
  p.flags.contains f && p.gates.all fun g => !g.1.contains f || g.2 ≤ v

def hasAll (p : Property) (flags : List Flag) (v : ProtocolVersion) : Bool := flags.all (p.has · v)

/-- The canonical form of a value that the property can hold. `null` always is. -/
def normalise (p : Property) (v : Value) : Except Fault Value :=
  if v.isNull then .ok v else p.shape.normalise p.name v

def debug (p : Property) : String :=
  match p.key? with
  | some key => s!"PropertyDescriptor({p.uri}[{key}])"
  | none => s!"PropertyDescriptor({p.uri})"

end Property

end ObjectTracking
