import ObjectTracking.Edited
/-!
Reading and changing the fields of a composite value, and of composites nested in it.
-/
set_option autoImplicit false

namespace ObjectTracking

namespace Composite

/-- A composite of a layout with all fields unset, which reports to nobody. -/
def new (cat : Catalog) (l : LayoutId) : Composite :=
  mk l none ((cat.layout l).fields.map fun _ => .unset)

def isEmpty (c : Composite) : Bool := c.fields.all Field.isUnset

def position (cat : Catalog) (c : Composite) (name : String) : Except Fault Nat :=
  match (cat.layout c.layout).position? name with
  | some ix => .ok ix
  | none => .error (.unknownField name (cat.layout c.layout).name)

def get (cat : Catalog) (c : Composite) (name : String) : Except Fault Field :=
  (c.position cat name).map fun ix => c.fields.getD ix .unset

/-- The text of the field of a name, if it holds one. -/
def getText (cat : Catalog) (c : Composite) (name : String) : Except Fault (Option String) :=
  (c.get cat name).map fun
    | .scalar s => s.text?
    | _ => none

end Composite

/-- What a field stores for a value. A scalar is put into canonical form; a nested value must be of
the field's own layout and from now on reports where the field's owner does. -/
def LayoutField.accept (f : LayoutField) (link : Option Link) (v : Value) : Except Fault Field :=
  match v, f.kind with
  | .null, _ => .ok .unset
  | .scalar s, .scalar codec => (codec.normalise f.name s).map .scalar
  | .composite c, .nested l =>
    if c.layout = l then .ok (.nested (c.attach link)) else .error (.typeMismatch f.name)
  | _, _ => .error (.typeMismatch f.name)

namespace Composite

/-- Sets a field; `null` unsets it. -/
def set (cat : Catalog) (c : Composite) (name : String) (v : Value) : Edited Composite Unit :=
  match c.position cat name with
  | .error e => .failed e c
  | .ok ix =>
    match (cat.layout c.layout).fields[ix]? with
    | none => .failed (.unknownField name (cat.layout c.layout).name) c
    | some f =>
      match f.accept c.link v with
      | .error e => .failed e c
      | .ok stored => .done () (c.setAt ix stored) c.link

/-- Edits the nested value in a field, which is created empty if the field is unset. The creation
alone is no change to report. -/
def editField {α : Type} (cat : Catalog) (c : Composite) (name : String)
    (edit : Composite → Edited Composite α) : Edited Composite α :=
  match c.position cat name with
  | .error e => .failed e c
  | .ok ix =>
    match (cat.layout c.layout).fields[ix]?, c.fields[ix]? with
    | some ⟨_, _, .nested l⟩, some .unset =>
      (edit ((new cat l).attach c.link)).within [] fun n => c.setAt ix (.nested n)
    | some ⟨_, _, .nested _⟩, some (.nested n) =>
      (edit n).within [] fun n => c.setAt ix (.nested n)
    | some f, _ => .failed (.typeMismatch f.name) c
    | none, _ => .failed (.unknownField name (cat.layout c.layout).name) c

def notify (c : Composite) : Edited Composite Unit := .done () c c.link

/-- Sets fields in order until one of them fails. -/
def withAll (cat : Catalog) (c : Composite) : List (String × Value) → Except Fault Composite
  | [] => .ok c
  | (name, v) :: rest =>
    let e := c.set cat name v
    match e.result with
    | .error fault => .error fault
    | .ok () => withAll cat e.state rest

end Composite

end ObjectTracking
