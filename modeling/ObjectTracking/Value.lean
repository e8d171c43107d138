import ObjectTracking.Layout
/-!
The values an object holds: scalars, composite values with fields, and collections of composites.

A nested value knows, by a link, the slot of the local copy that holds it, so that a change to it
can be reported there. A link is no ownership: the local copy may be gone.
-/
set_option autoImplicit false

namespace ObjectTracking

/-- The slot of a local copy to which a nested value reports its changes. -/
structure Link where
  copy : Nat
  slot : Nat
  deriving DecidableEq, Repr

mutual

/-- A value with the fields of a layout, in the layout's order. -/
inductive Composite where
  | mk (layout : LayoutId) (link : Option Link) (fields : List Field)

inductive Field where
  | unset
  | scalar (s : Scalar)
  | nested (c : Composite)

end

/-- An item of a collection with what happened to it since the collection was loaded or saved. -/
structure Entry where
  /-- Its position as of then; none if it was added since. -/
  origin : Option Nat
  /-- Whether it may have been changed since. -/
  modified : Bool
  value : Composite

/-- An ordered collection of composites of one layout that keeps track, item by item, of what
changed since it was loaded or saved. -/
structure Collection where
  layout : LayoutId
  /-- The name of an item's element. -/
  element : String
  entries : List Entry := []
  /-- The positions of the removed items as of the last load or save, in the order of removal. -/
  removed : List Nat := []
  link : Option Link := none

/-- A value, or the absence of one. -/
inductive Value where
  | null
  | scalar (s : Scalar)
  | composite (c : Composite)
  | collection (c : Collection)

namespace Composite

def layout : Composite → LayoutId
  | mk l _ _ => l

def link : Composite → Option Link
  | mk _ k _ => k

def fields : Composite → List Field
  | mk _ _ fs => fs

def withFields (c : Composite) (fs : List Field) : Composite := mk c.layout c.link fs

def setAt (c : Composite) (ix : Nat) (f : Field) : Composite := c.withFields (c.fields.set ix f)

end Composite

mutual

/-- The composite with a link, here and in everything nested in it. -/
def Composite.attach (k : Option Link) : Composite → Composite
  | .mk l _ fs => .mk l k (Field.attachAll k fs)

def Field.attach (k : Option Link) : Field → Field
  | .unset => .unset
  | .scalar s => .scalar s
  | .nested c => .nested (c.attach k)

def Field.attachAll (k : Option Link) : List Field → List Field
  | [] => []
  | f :: fs => f.attach k :: Field.attachAll k fs

end

mutual

/-- Equality of contents, which links are no part of. -/
def Composite.beq : Composite → Composite → Bool
  | .mk l _ fs, .mk l' _ fs' => l == l' && Field.beqAll fs fs'

def Field.beq : Field → Field → Bool
  | .unset, .unset => true
  | .scalar s, .scalar s' => s == s'
  | .nested c, .nested c' => c.beq c'
  | _, _ => false

def Field.beqAll : List Field → List Field → Bool
  | [], [] => true
  | f :: fs, f' :: fs' => f.beq f' && Field.beqAll fs fs'
  | _, _ => false

end

instance : BEq Composite := ⟨Composite.beq⟩
instance : BEq Field := ⟨Field.beq⟩

namespace Collection

def items (c : Collection) : List Composite := c.entries.map Entry.value

def attach (k : Option Link) (c : Collection) : Collection :=
  { c with entries := c.entries.map fun e => { e with value := e.value.attach k }, link := k }

/-- Equality of layout, element name and items. -/
protected def beq (a b : Collection) : Bool :=
  a.layout == b.layout && a.element == b.element && a.items == b.items

instance : BEq Collection := ⟨Collection.beq⟩

end Collection

namespace Field

def value : Field → Value
  | unset => .null
  | scalar s => .scalar s
  | nested c => .composite c

def ofScalar? : Option Scalar → Field
  | none => unset
  | some s => scalar s

def isUnset : Field → Bool
  | unset => true
  | _ => false

end Field

namespace Value

protected def beq : Value → Value → Bool
  | null, null => true
  | scalar a, scalar b => a == b
  | composite a, composite b => a == b
  | collection a, collection b => a == b
  | _, _ => false

instance : BEq Value := ⟨Value.beq⟩

def isNull : Value → Bool
  | null => true
  | _ => false

def ofScalar? : Option Scalar → Value
  | none => null
  | some s => scalar s

def scalar? : Value → Option Scalar
  | scalar s => some s
  | _ => none

def composite? : Value → Option Composite
  | composite c => some c
  | _ => none

def collection? : Value → Option Collection
  | collection c => some c
  | _ => none

def attach (k : Link) : Value → Value
  | composite c => .composite (c.attach k)
  | collection c => .collection (c.attach k)
  | v => v

end Value

/-- A copy of a composite, which reports to nobody. -/
def Composite.copy (c : Composite) : Composite := c.attach none

/-- A copy of a collection. It keeps its own link, but its items report to nobody. -/
def Collection.copy (c : Collection) : Collection :=
  { c with entries := c.entries.map fun e => { e with value := e.value.copy } }

def Value.copy : Value → Value
  | .composite c => .composite c.copy
  | .collection c => .collection c.copy
  | v => v

end ObjectTracking
