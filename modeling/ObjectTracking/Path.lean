import ObjectTracking.Collection.Edit
/-!
Paths into nested values: to an item of a collection, to a field of a composite, and further on.
Reading along a path changes nothing. Editing at its end touches what lies on the way: a missing
nested value is created, and an item on the way counts as modified.
-/
set_option autoImplicit false

namespace ObjectTracking

inductive Step where
  | item (position : Nat)
  | field (name : String)
  deriving DecidableEq, Repr

/-- The value at the end of a path, if the path leads anywhere. -/
def Value.follow (cat : Catalog) : List Step → Value → Except Fault (Option Value)
  | [], v => .ok (some v)
  | .item ix :: path, .collection c =>
    match c.item? ix with
    | some item => follow cat path (.composite item)
    | none => .ok none
  | .field name :: path, .composite c =>
    match c.get cat name with
    | .ok f => follow cat path f.value
    | .error e => .error e
  | _ :: _, _ => .ok none

/-- Edits the composite at the end of a path, if the path leads anywhere. -/
def Composite.editAt {α : Type} (cat : Catalog) (edit : Composite → Edited Composite α) :
    List Step → Composite → Edited Composite (Option α)
  | [], c => (edit c).map some
  | .field name :: path, c => c.editField cat name (editAt cat edit path)
  | .item _ :: _, c => .done none c none

def Collection.editAt {α : Type} (cat : Catalog) (edit : Composite → Edited Composite α) :
    List Step → Collection → Edited Collection (Option α)
  | .item ix :: path, c =>
    (c.editItem? ix (Composite.editAt cat edit path)).getD (.done none c none)
  | _, c => .done none c none

def Value.editAt {α : Type} (cat : Catalog) (edit : Composite → Edited Composite α)
    (path : List Step) : Value → Edited Value (Option α)
  | .composite c => (c.editAt cat edit path).within [] .composite
  | .collection c => (c.editAt cat edit path).within [] .collection
  | v => .done none v none

end ObjectTracking
