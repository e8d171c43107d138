import ObjectTracking.Markup.Call
import ObjectTracking.Markup.Entity
/-!
The receiver of calls that builds a document. A start tag is held back until the next call decides
whether its element is empty. The first element of a document declares every namespace.
-/
set_option autoImplicit false

namespace ObjectTracking.Markup

structure PendingTag where
  name : String
  attributes : List (String × String)
  deriving DecidableEq, Repr

/-- A finished piece of a document. -/
inductive Piece where
  | opening (tag : PendingTag)
  | empty (tag : PendingTag)
  | closing (name : String)
  | text (value : String)
  deriving DecidableEq, Repr

namespace Piece

def attributeText (a : String × String) : String :=
  " " ++ a.1 ++ "=\"" ++ String.ofList (escape a.2.toList) ++ "\""

/-- What stands between the angle brackets of a start tag. -/
def tagText (t : PendingTag) : String :=
  t.name ++ String.join (t.attributes.map attributeText)

def render : Piece → String
  | opening t => "<" ++ tagText t ++ ">"
  | empty t => "<" ++ tagText t ++ "/>"
  | closing name => "</" ++ name ++ ">"
  | text value => String.ofList (escape value.toList)

end Piece

structure Writer where
  /-- What the output held before. -/
  held : List UInt8 := []
  /-- The pieces written, the last one first. -/
  written : List Piece := []
  /-- The names of the open elements, the innermost first. -/
  opened : List String := []
  /-- The start tag that is not written yet. -/
  pending : Option PendingTag := none
  /-- Whether the namespaces are declared. -/
  declared : Bool := false

namespace Writer

/-- A writer whose output holds some bytes already. -/
def onto (bytes : List UInt8) : Writer := { held := bytes }

def flush (w : Writer) : Writer :=
  match w.pending with
  | some t => { w with written := .opening t :: w.written, pending := none }
  | none => w

def declarations : List (String × String) :=
  Namespace.all.map fun ns => ("xmlns:" ++ ns.label, ns.uri)

/-- Takes a call. A refused call leaves no trace. -/
def take (w : Writer) : Call → Except Fault Writer
  | .opening ns name =>
    let full := ns.label ++ ":" ++ name
    let w' := w.flush
    .ok { w' with
      opened := full :: w'.opened
      pending := some ⟨full, if w'.declared then [] else declarations⟩
      declared := true }
  | .attr name value =>
    match w.pending with
    | some t =>
      .ok { w with pending := some { t with attributes := t.attributes ++ [(name, value)] } }
    | none => .error (.misplaced (.attributeOutsideStart name))
  | .text value =>
    if w.opened.isEmpty then .error (.misplaced .textOutsideElement)
    else
      let w' := w.flush
      if value.isEmpty then .ok w' else .ok { w' with written := .text value :: w'.written }
  | .closing =>
    match w.opened with
    | [] => .error (.misplaced .nothingOpen)
    | name :: outer =>
      match w.pending with
      | some t => .ok { w with written := .empty t :: w.written, opened := outer, pending := none }
      | none => .ok { w with written := .closing name :: w.written, opened := outer }

def text (w : Writer) : String := String.join (w.written.reverse.map Piece.render)

def size (w : Writer) : Nat := w.held.length + w.text.utf8ByteSize

/-- Ends the document. Every element must be closed, and the whole output must be UTF-8. -/
def finish (w : Writer) : Except Fault String :=
  match w.opened with
  | name :: _ => .error (.misplaced (.stillOpen name))
  | [] =>
    if w.held.isEmpty then .ok w.text
    else
      match Text.ofUtf8 (w.held ++ Text.toUtf8 w.text.toList) with
      | .ok s => .ok s
      | .error cause => .error (.misplaced (.notUtf8 cause))

end Writer

/-- A writer whose output fails once it holds more than a number of bytes. -/
structure LimitedWriter where
  writer : Writer
  limit : Nat

def LimitedWriter.take (l : LimitedWriter) (c : Call) : Except Fault LimitedWriter := do
  let w ← l.writer.take c
  if w.size ≤ l.limit then .ok { l with writer := w } else .error .brokenXml

/-- Runs an encoding against a receiver that writes a document, and ends the document. -/
def Encoding.documentBy {σ : Type} (take : σ → Call → Except Fault σ) (s : σ)
    (writer : σ → Writer) (e : Encoding) : Except Fault String × List Report :=
  let o := e.run take s
  match o.fault? with
  | some fault => (.error fault, o.reports)
  | none => ((writer o.state).finish, o.reports)

def Encoding.document (e : Encoding) : Except Fault String × List Report :=
  e.documentBy Writer.take {} id

def Encoding.documentWithin (limit : Nat) (e : Encoding) : Except Fault String × List Report :=
  e.documentBy LimitedWriter.take ⟨{}, limit⟩ LimitedWriter.writer

end ObjectTracking.Markup
