import ObjectTracking.ProtocolVersion
import ObjectTracking.Text.Quoted
/-!
Remarks made while objects are read, changed and written, as causes with the facts their wording
needs.
-/
set_option autoImplicit false

namespace ObjectTracking

inductive Level where
  | trace
  | debug
  | warn
  deriving DecidableEq, Repr

def Level.name : Level → String
  | .trace => "TRACE"
  | .debug => "DEBUG"
  | .warn => "WARN"

inductive UpdateKind where
  | set
  | append
  | delete
  deriving DecidableEq, Repr

def UpdateKind.name : UpdateKind → String
  | .set => "Set"
  | .append => "Append"
  | .delete => "Delete"

/-- Something worth a remark. -/
inductive Report where
  | unknownElement (tag type : String)
  | unsupportedElement (tag : String) (required negotiated : ProtocolVersion)
  | unknownEntry (key : Option String) (type : String)
  | unknownName (text property : String)
  /-- A value changed whose local copy is gone. -/
  | orphaned (slot : Nat)
  | operation (kind : UpdateKind) (uri : String) (index : Option String)
  deriving DecidableEq, Repr

namespace Report

def level : Report → Level
  | unknownElement .. | unsupportedElement .. | unknownEntry .. => .debug
  | unknownName .. | orphaned .. => .warn
  | operation .. => .trace

def optional : Option String → String
  | some s => "Some(" ++ Text.quoted s ++ ")"
  | none => "None"

def message : Report → String
  | unknownElement tag type => s!"Skipping unknown element {tag} in {type}"
  | unsupportedElement tag required negotiated =>
    s!"Skipping {tag} which requires {required.name}, but session is {negotiated.name}"
  | unknownEntry key type => s!"Skipping dictionary entry {optional key} in {type}"
  | unknownName text property => s!"Ignoring unknown value {Text.quoted text} for {property}"
  | orphaned slot =>
    s!"Change to a nested value in slot {slot} whose property bag no longer exists"
  | operation kind uri index => s!"{kind.name} {uri} {optional index}"

end Report

end ObjectTracking
