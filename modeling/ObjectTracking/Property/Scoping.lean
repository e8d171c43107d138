import ObjectTracking.Session
import ObjectTracking.Time.Stamp
import ObjectTracking.Value
/-!
The zones of date-times. In memory a date-time is a wall clock time. It is read into the zone of the
session. It is written as an instant in the zone it is scoped to, or without any zone if the server
is to resolve it itself:

* on create, and on every write for a legacy server, it is scoped to the zone of the session;
* in an update it is scoped to the linked zone property if that was changed along with it, and to
  none otherwise.
-/
set_option autoImplicit false

namespace ObjectTracking
open Time (WallClock Offset Stamp)

structure WriteContext where
  session : Session
  isUpdate : Bool
  /-- The zone of the linked zone property, if that was changed. -/
  linkedZone : Option Offset := none

/-- The zone that a date-time is scoped to when it is written. -/
def scopingZone (isUpdate : Bool) (version : ProtocolVersion) (sessionZone : Offset)
    (linkedZone : Option Offset) : Option Offset :=
  if !isUpdate || version.isLegacy then some sessionZone else linkedZone

def WriteContext.zone (ctx : WriteContext) : Option Offset :=
  scopingZone ctx.isUpdate ctx.session.version ctx.session.zone ctx.linkedZone

namespace Scoping

/-- Reads a date-time as a wall clock time in a zone. Blank text is no value. -/
def decode (property text : String) (zone : Offset) : Except Fault Value :=
  let cs := Text.trim text.toList
  if cs.isEmpty then .ok .null
  else
    match (Stamp.parse? cs).bind (Stamp.localTime? zone) with
    | some t => .ok (.scalar (.dateTime t))
    | none => .error (.malformed property text "not a date-time")

/-- Writes a date-time, scoped to a zone or without any. No value has no text. -/
def encode (property : String) (v : Value) (zone : Option Offset) :
    Except Fault (Option String) :=
  match v, zone with
  | .null, _ => .ok none
  | .scalar (.dateTime t), some zone =>
    match t.scopedText? zone with
    | some s => .ok (some (String.ofList s))
    | none => .error (.typeMismatch property)
  | .scalar (.dateTime t), none => .ok (some (String.ofList t.text))
  | _, _ => .error (.typeMismatch property)

end Scoping

end ObjectTracking
