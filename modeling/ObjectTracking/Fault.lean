import ObjectTracking.Markup.Namespace
import ObjectTracking.ProtocolVersion
import ObjectTracking.Text.Quoted
import ObjectTracking.Text.Utf8
/-!
What can go wrong, as causes with the facts their wording needs.
-/
set_option autoImplicit false

namespace ObjectTracking
open Markup (Namespace)

/-- Markup that is not where it should be, read or written. -/
inductive Misplaced where
  | endOfDocument
  | unterminated
  | valueOutsideElement
  | childInValue (element child : String)
  | expectedStart (ns : Namespace) (name found : String)
  | expectedEnd (ns : Namespace) (name found : String)
  | stillOpen (element : String)
  | nothingOpen
  | attributeOutsideStart (name : String)
  | textOutsideElement
  | notUtf8 (cause : Text.Utf8Fault)
  /-- A receiver of markup refused it for a reason of its own. -/
  | refused (reason : String)
  deriving DecidableEq, Repr

def Misplaced.message : Misplaced → String
  | .endOfDocument => "unexpected end of document"
  | .unterminated => "unterminated element"
  | .valueOutsideElement => "element value read outside an element"
  | .childInValue element child =>
    s!"element {element} has child element {child} where a value was expected"
  | .expectedStart ns name found =>
    s!"expected start of {ns.label}:{name}, found {Text.quoted found}"
  | .expectedEnd ns name found =>
    s!"expected end of {ns.label}:{name}, found {Text.quoted found}"
  | .stillOpen element => s!"element {element} still open at end of output"
  | .nothingOpen => "end element with nothing open"
  | .attributeOutsideStart name => s!"attribute {name} written outside of a start element"
  | .textOutsideElement => "text written outside of any element"
  | .notUtf8 cause => s!"non-UTF-8 output: {cause.message}"
  | .refused reason => reason

inductive Fault where
  | notLoaded (property : String)
  | propertyDeleted (property : String)
  | typeMismatch (property : String)
  | readOnly (property : String)
  | notUpdatable (property : String)
  | notDeletable (property : String)
  | notNullable (property : String)
  | unknownProperty (property type : String)
  | unknownField (field layout : String)
  | versionIncompatible (property : String) (required negotiated : ProtocolVersion)
  | malformed (property value reason : String)
  | misplaced (cause : Misplaced)
  | unknownZone (text : String)
  /-- The text is not a well-formed XML document, or the output could not be written. -/
  | brokenXml
  /-- The text is not a settings file. -/
  | brokenSettings
  deriving DecidableEq, Repr

namespace Fault

/-- Whether the caller can recover by loading or assigning the property and trying again. -/
def isAccessFault : Fault → Bool
  | notLoaded _ | propertyDeleted _ | typeMismatch _ => true
  | _ => false

/-- The wording of a fault; broken XML and broken settings have none. -/
def message? : Fault → Option String
  | notLoaded p => some s!"Property {p} must be loaded or assigned before it can be read"
  | propertyDeleted p => some s!"Property {p} has been deleted"
  | typeMismatch p => some s!"Property {p} does not hold a value of the requested type"
  | readOnly p => some s!"Property {p} is read-only"
  | notUpdatable p => some s!"Property {p} cannot be updated"
  | notDeletable p => some s!"Property {p} cannot be deleted"
  | notNullable p => some s!"Property {p} cannot be set to null"
  | unknownProperty p type => some s!"Property {p} is not part of the {type} schema"
  | unknownField field layout => some s!"Field {field} is not part of the {layout} structure"
  | versionIncompatible p required negotiated =>
    some s!"Property {p} requires {required.name} but the session negotiated {negotiated.name}"
  | malformed p value reason => some s!"Malformed value {Text.quoted value} for {p}: {reason}"
  | misplaced cause => some s!"Unexpected XML: {cause.message}"
  | unknownZone text =>
    some s!"Invalid session configuration: unrecognised time zone {Text.quoted text}"
  | brokenXml => none
  | brokenSettings => none

end Fault

end ObjectTracking
