import ObjectTracking.ObjectType
import ObjectTracking.Property.Content
/-!
The operations of an update. Positions of items are those of the collection as last loaded or saved.
-/
set_option autoImplicit false

namespace ObjectTracking
open Markup

inductive UpdateOp where
  /-- Replaces the whole value. -/
  | set (p : Property) (v : Value)
  /-- Removes the property. -/
  | delete (p : Property)
  /-- Adds an item at the end of a collection. -/
  | append (p : Property) (item : Composite)
  /-- Removes an item of a collection. -/
  | deleteItem (p : Property) (position : Nat)
  /-- Replaces an item of a collection. -/
  | setItem (p : Property) (position : Nat) (item : Composite)

namespace UpdateOp

def kind : UpdateOp → UpdateKind
  | set .. | setItem .. => .set
  | append .. => .append
  | delete .. | deleteItem .. => .delete

def property : UpdateOp → Property
  | set p _ | delete p | append p _ | deleteItem p _ | setItem p _ _ => p

def position? : UpdateOp → Option Nat
  | deleteItem _ position | setItem _ position _ => some position
  | _ => none

/-- What the address of the operation adds to the URI: the position of an item, or else the key of
an entry. -/
def index? (op : UpdateOp) : Option String :=
  (op.position?.map fun n => String.ofList (Text.digits n)).or op.property.key?

def encodeAddress (op : UpdateOp) : Encoding :=
  let uri := Encoding.call (.attr "FieldURI" op.property.uri)
  match op.index? with
  | some index =>
    .element .types "IndexedFieldURI" (uri ++ .call (.attr "FieldIndex" index))
  | none => .element .types "FieldURI" uri

/-- What the operation puts into the object: a value or an item, within the object's element. -/
def encodeOperand (op : UpdateOp) (cat : Catalog) (type : ObjectType) (ctx : WriteContext) :
    Encoding :=
  match op with
  | set p v => .element .types type.element (p.encode cat ctx v)
  | append p item | setItem p _ item => .element .types type.element (p.encodeItems cat [item])
  | delete _ | deleteItem _ _ => .nothing

def encode (op : UpdateOp) (cat : Catalog) (type : ObjectType) (ctx : WriteContext) : Encoding :=
  .report (.operation op.kind op.property.uri op.index?) ++
    .element .types (type.target.element op.kind)
      (op.encodeAddress ++ op.encodeOperand cat type ctx)

end UpdateOp

end ObjectTracking
