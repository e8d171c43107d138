import ObjectTracking.Fault
import ObjectTracking.Settings.Toml.Section
import ObjectTracking.Time.Offset
/-!
Sessions with one server, and the settings file they are configured from. A setting that is missing
has a default; keys that are no settings are ignored.
-/
set_option autoImplicit false

namespace ObjectTracking
open Time (Offset)
open Settings (Toml.Value Toml.Section)

/-- What every local copy of a session shares. -/
structure Session where
  version : ProtocolVersion
  /-- The zone in which wall clock times are read and, when scoped, written. -/
  zone : Offset
  /-- Whether a name that no enumeration knows is an error rather than no value. -/
  strict : Bool
  deriving DecidableEq

/-- The settings of a session as they stand in a file. -/
structure SessionSettings where
  version : ProtocolVersion := .newest
  timeZone : String := "UTC"
  strictDecode : Bool := true
  deriving DecidableEq

namespace SessionSettings

def keys : List String := ["version", "time_zone", "strict_decode"]

/-- Reads a version: its name, or an inline table with that name and an empty table. -/
def versionOf? : Toml.Value → Option ProtocolVersion
  | .text s => ProtocolVersion.ofName? s
  | .inlineTable [(k, .inlineTable [])] => ProtocolVersion.ofName? k
  | .inlineTable [(k, .dottedTable [])] => ProtocolVersion.ofName? k
  | _ => none

def withEntry? (s : SessionSettings) (key : String) (value : Toml.Value) : Option SessionSettings :=
  if key == "version" then (versionOf? value).map fun v => { s with version := v }
  else if key == "time_zone" then
    match value with
    | .text zone => some { s with timeZone := zone }
    | _ => none
  else if key == "strict_decode" then
    match value with
    | .boolean b => some { s with strictDecode := b }
    | _ => none
  else some s

/-- A section under a setting's name: only the version can be given so, by the last part of the
header of an empty section that is all there is in the file. -/
def withSection? (s : SessionSettings) (alone : Bool) (part : Toml.Section) :
    Option SessionSettings :=
  match part.header.path with
  | "version" :: _ =>
    if alone && part.entries.isEmpty then
      (part.header.path.getLast?.bind ProtocolVersion.ofName?).map fun v => { s with version := v }
    else none
  | key :: _ => if keys.contains key then none else some s
  | [] => some s

def parse? (text : String) : Option SessionSettings := do
  let (entries, sections) ← Settings.Toml.parse? text.toList
  let named := (entries.map (·.1)).filter keys.contains
  if !decide named.Nodup then none
  let s ← entries.foldlM (fun s e => s.withEntry? e.1 e.2) ({} : SessionSettings)
  let alone := entries.isEmpty && sections.length == 1
  sections.foldlM (fun s x => s.withSection? alone x) s

/-- Reads the text of a settings file, or reports it as broken. -/
def read (text : String) : Except Fault SessionSettings :=
  match parse? text with
  | some s => .ok s
  | none => .error .brokenSettings

def session (s : SessionSettings) : Except Fault Session :=
  match Offset.parse? s.timeZone.toList with
  | some zone => .ok ⟨s.version, zone, s.strictDecode⟩
  | none => .error (.unknownZone s.timeZone)

end SessionSettings

end ObjectTracking
