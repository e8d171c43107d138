import ObjectTracking.Scalar.Codec
/-!
Layouts of nested values: the fields they have and where each stands in the XML form.

A layout is known by its identity, and a catalog tells what the identity stands for. Two layouts
with the same name and fields are different layouts, and a field of nested values names the layout
of its values by identity.
-/
set_option autoImplicit false

namespace ObjectTracking

structure LayoutId where
  index : Nat
  deriving DecidableEq, Repr

/-- Where a field stands in the XML form of a value. -/
inductive Placement where
  /-- An attribute of the value's element. -/
  | attr
  /-- A child element. -/
  | element
  /-- The text of the value's element. -/
  | text
  deriving DecidableEq, Repr

inductive FieldKind where
  | scalar (codec : Codec)
  | nested (layout : LayoutId)

/-- A field of a layout. Its name is also that of its attribute or element. -/
structure LayoutField where
  name : String
  placement : Placement
  kind : FieldKind

/-- The fields of a kind of nested value, in order. -/
structure Layout where
  name : String
  fields : List LayoutField := []

namespace Layout

def named (name : String) : Layout := { name }

def add (l : Layout) (f : LayoutField) : Layout := { l with fields := l.fields ++ [f] }

def withAttribute (l : Layout) (name : String) (codec : Codec) : Layout :=
  l.add ⟨name, .attr, .scalar codec⟩

def withElement (l : Layout) (name : String) (codec : Codec) : Layout :=
  l.add ⟨name, .element, .scalar codec⟩

def withText (l : Layout) (name : String) (codec : Codec) : Layout :=
  l.add ⟨name, .text, .scalar codec⟩

def withNested (l : Layout) (name : String) (layout : LayoutId) : Layout :=
  l.add ⟨name, .element, .nested layout⟩

def position? (l : Layout) (name : String) : Option Nat := l.fields.findIdx? (·.name == name)

def elementPosition? (l : Layout) (name : String) : Option Nat :=
  l.fields.findIdx? fun f => f.placement == .element && f.name == name

def textPosition? (l : Layout) : Option Nat := l.fields.findIdx? (·.placement == .text)

end Layout

/-- What the identities of layouts stand for. -/
structure Catalog where
  layout : LayoutId → Layout

end ObjectTracking
