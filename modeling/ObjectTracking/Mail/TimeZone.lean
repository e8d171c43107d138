import ObjectTracking.Composite.Edit
/-!
Definitions of time zones as they stand in objects: an identifier, a name, and the base offset,
which is written as a bias.
-/
set_option autoImplicit false

namespace ObjectTracking
open Time (Offset)

def timeZoneLayout : Layout :=
  (((Layout.named "TimeZone").withAttribute "Id" .text).withAttribute "Name" .text).withElement
    "BaseOffset" .bias

def Composite.zoneOffset? (cat : Catalog) (c : Composite) : Option Offset :=
  match c.get cat "BaseOffset" with
  | .ok (.scalar (.offset o)) => some o
  | _ => none

end ObjectTracking
