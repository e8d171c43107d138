import ObjectTracking.Collection.Edit
import ObjectTracking.Composite.Markup
/-!
Collections in XML: an element per item. Reading replaces all items, which then count as saved.
-/
set_option autoImplicit false

namespace ObjectTracking
open Markup

namespace Collection

def loadItem (cat : Catalog) (session : Session) (tag : Tag) (content : Forest) (c : Collection) :
    Progress Collection :=
  if tag.name = c.element then
    let p := (Composite.new cat c.layout).load cat session ⟨some tag, content⟩
    p.map fun item =>
      if p.stop?.isSome then c
      else
        { c with entries := c.entries ++ [⟨some c.entries.length, false, item.attach c.link⟩] }
  else content.skip c

def load (cat : Catalog) (session : Session) (content : Forest) (c : Collection) :
    Progress Collection :=
  content.walk (loadItem cat session) { c with entries := [], removed := [] }

def encodeItems (cat : Catalog) (element : String) (items : List Composite) : Encoding :=
  .concat (items.map (·.encode cat element))

def encodeContents (cat : Catalog) (c : Collection) : Encoding :=
  encodeItems cat c.element c.items

def debug (cat : Catalog) (c : Collection) : String :=
  "[" ++ String.intercalate ", " (c.items.map (·.debug cat)) ++ "]"

end Collection

def Value.debug (cat : Catalog) : Value → String
  | .null => "Null"
  | .scalar s => s.debug
  | .composite c => "Complex(" ++ c.debug cat ++ ")"
  | .collection c => "Collection(" ++ c.debug cat ++ ")"

end ObjectTracking
