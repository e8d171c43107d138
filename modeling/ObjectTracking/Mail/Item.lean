import ObjectTracking.Mail.Layouts
import ObjectTracking.ObjectType
/-!
The properties that every kind of item has.
-/
set_option autoImplicit false

namespace ObjectTracking.Mail.Item

def id : Property := .composite "ItemId" "item:ItemId" itemId

def subject : Property :=
  (Property.scalar "Subject" "item:Subject" .text).withFlags Flag.mutable

def sensitivity : Property :=
  ((Property.scalar "Sensitivity" "item:Sensitivity" (.enumeration sensitivityNames)).withFlags
    [.settable, .updatable]).notNullable

def bodyOf : Property :=
  (Property.composite "Body" "item:Body" body).withFlags (Flag.mutable ++ [.appendable])

def categories : Property :=
  ((Property.collection "Categories" "item:Categories" category "String").withFlags
    (Flag.mutable ++ [.appendable])).createdOnRead (catalog [])

/-- What every kind of item begins with. -/
def members : List Member :=
  [⟨.identity, id⟩, ⟨.summary, subject⟩, ⟨.summary, sensitivity⟩, ⟨.full, bodyOf⟩,
    ⟨.summary, categories⟩]

end ObjectTracking.Mail.Item
