import ObjectTracking.Fault
import ObjectTracking.Markup.Entity
import ObjectTracking.Markup.Token
import ObjectTracking.Text.Blank
/-!
Documents as a sequence of nodes: start tags, texts and end tags, with names resolved to the
protocol's namespaces. An empty element is a start and an end.

Blank text between tags is layout and leaves no node, but blank text that is all an element holds
is its value and stays.
-/
set_option autoImplicit false

namespace ObjectTracking.Markup

/-- A start tag. Attributes are in order, under their names without a namespace; declarations of
namespaces are not among them. -/
structure Tag where
  ns : Option Namespace
  name : String
  attributes : List (String × String)
  deriving DecidableEq, Repr

def Tag.attribute? (t : Tag) (name : String) : Option String := t.attributes.lookup name

inductive Node where
  | opening (tag : Tag)
  | text (s : String)
  | closing (ns : Option Namespace) (name : String)
  deriving DecidableEq, Repr

/-- An attribute as it stands: its full name and its value with entities. -/
structure RawAttribute where
  key : List Char
  value : List Char
  deriving DecidableEq, Repr

/-- Reads one attribute from a text that begins with its name, and gives what follows it. -/
def rawAttribute? : List Char → Option (RawAttribute × List Char)
  | [] => none
  | k :: cs =>
    let inKey (c : Char) : Bool := c != '=' && !isSpace c
    match (cs.dropWhile inKey).dropWhile isSpace with
    | '=' :: cs' =>
      match cs'.dropWhile isSpace with
      | q :: body =>
        if q == '\'' || q == '"' then
          let n := (body.takeWhile (· != q)).length
          if n < body.length then some (⟨k :: cs.takeWhile inKey, body.take n⟩, body.drop (n + 1))
          else none
        else none
      | [] => none
    | _ => none

theorem rawAttribute?_length {cs rest : List Char} {a : RawAttribute}
    (h : rawAttribute? cs = some (a, rest)) : rest.length < cs.length := by
  cases cs with
  | nil => simp [rawAttribute?] at h
  | cons k cs =>
    simp only [rawAttribute?] at h
    split at h
    next cs' h₁ =>
      split at h
      next q body h₂ =>
        split at h
        · split at h
          · cases h
            have l₁ := ((cs.dropWhile fun c => c != '=' && !isSpace c).dropWhile_sublist
              isSpace).length_le
            have l₂ := (cs.dropWhile_sublist fun c => c != '=' && !isSpace c).length_le
            have l₃ := (cs'.dropWhile_sublist isSpace).length_le
            rw [h₁] at l₁
            rw [h₂] at l₃
            simp only [List.length_cons, List.length_drop] at *
            omega
          · cases h
        · cases h
      · cases h
    · cases h

def rawAttributes? (cs : List Char) : Option (List RawAttribute) :=
  match _h : cs.dropWhile isSpace with
  | [] => some []
  | k :: body =>
    match _ha : rawAttribute? (k :: body) with
    | none => none
    | some (a, rest) => (a :: ·) <$> rawAttributes? rest
termination_by cs.length
decreasing_by
  have := rawAttribute?_length _ha
  have := (cs.dropWhile_sublist isSpace).length_le
  rw [_h] at this
  omega

/-- What the name of an attribute declares: the default namespace, which has no label, or the
namespace of a label before a colon. -/
def declared? : List Char → Option (Option (List Char))
  | ['x', 'm', 'l', 'n', 's'] => some none
  | 'x' :: 'm' :: 'l' :: 'n' :: 's' :: ':' :: label => some (some label)
  | _ => none

def splitName (cs : List Char) : Option (List Char) × List Char :=
  match cs.span (· != ':') with
  | (before, _ :: after) => (some before, after)
  | (before, []) => (none, before)

def localName (cs : List Char) : String := String.ofList (splitName cs).2

/-- Two labels that XML keeps for itself, and their URIs. -/
def xmlUri : List Char := "http://www.w3.org/XML/1998/namespace".toList
def xmlnsUri : List Char := "http://www.w3.org/2000/xmlns/".toList

/-- Declarations in force: labels with their URIs, the innermost first. The default namespace stands
under the empty label. -/
abbrev Bindings := List (List Char × List Char)

/-- Adds the declaration an attribute makes. Reserved labels and URIs stay with each other, but the
default namespace may be any. -/
def declare? (bindings : Bindings) (a : RawAttribute) : Option Bindings :=
  match declared? a.key with
  | none => some bindings
  | some none => some (([], a.value) :: bindings)
  | some (some label) =>
    if label == "xml".toList then if a.value == xmlUri then some bindings else none
    else if label == "xmlns".toList || a.value == xmlUri || a.value == xmlnsUri then none
    else some ((label, a.value) :: bindings)

def resolve (bindings : Bindings) (name : List Char) : Option Namespace :=
  let uri? := match (splitName name).1 with
    | none => bindings.lookup []
    | some label => if label == [] then none else bindings.lookup label
  uri?.bind fun uri => Namespace.ofUri? (String.ofList uri)

/-- An element that is open: its name as it stands, and the declarations within it. -/
structure Frame where
  name : List Char
  bindings : Bindings

def bindingsOf : List Frame → Bindings
  | [] => []
  | f :: _ => f.bindings

/-- Reads a start tag: the tag, and the frame it opens. -/
def openTag? (frames : List Frame) (content : List Char) : Option (Tag × Frame) := do
  let name := content.takeWhile (!isSpace ·)
  let raw ← rawAttributes? (content.drop name.length)
  if !decide ((raw.map (·.key)).Nodup) then none
  let bindings ← raw.foldlM declare? (bindingsOf frames)
  let attributes ← (raw.filter fun a => (declared? a.key).isNone).mapM fun a =>
    (unescape? a.value).map fun v => (localName a.key, String.ofList v)
  some (⟨resolve bindings name, localName name, attributes⟩, ⟨name, bindings⟩)

def Frame.closing (f : Frame) : Node := .closing (resolve f.bindings f.name) (localName f.name)

/-- The nodes of a sequence of tokens inside the open elements. An end tag must have the name of the
innermost one. -/
def nodesOf? : List Frame → List Token → Option (List Node)
  | _, [] => some []
  | frames, .text raw :: ts => do
    let s ← unescape? raw
    (.text (String.ofList s) :: ·) <$> nodesOf? frames ts
  | frames, .verbatim data :: ts => (.text (String.ofList data) :: ·) <$> nodesOf? frames ts
  | frames, .opening content isEmpty :: ts => do
    let (tag, frame) ← openTag? frames content
    if isEmpty then
      ([.opening tag, frame.closing] ++ ·) <$> nodesOf? frames ts
    else (.opening tag :: ·) <$> nodesOf? (frame :: frames) ts
  | frames, .closing content :: ts =>
    match frames with
    | [] => none
    | f :: outer =>
      if f.name == content then (f.closing :: ·) <$> nodesOf? outer ts else none

def joinText : List Node → List Node
  | [] => []
  | .text s :: rest =>
    match joinText rest with
    | .text t :: rest => .text (s ++ t) :: rest
    | rest => .text s :: rest
  | n :: rest => n :: joinText rest

/-- Whether a sequence of nodes begins with an end tag. -/
def startsWithClosing : List Node → Bool
  | .closing _ _ :: _ => true
  | _ => false

/-- Drops layout; `afterOpening` tells whether a start tag comes right before. -/
def dropLayout (afterOpening : Bool) : List Node → List Node
  | [] => []
  | .text s :: rest =>
    if Text.isBlankText s.toList && !(afterOpening && startsWithClosing rest) then
      dropLayout false rest
    else .text s :: dropLayout false rest
  | .opening t :: rest => .opening t :: dropLayout true rest
  | .closing ns name :: rest => .closing ns name :: dropLayout false rest

/-- A byte order mark at the very beginning is no part of the document. -/
def dropMark : List Char → List Char
  | '\ufeff' :: cs => cs
  | cs => cs

/-- The nodes of a document, if it is well formed. Elements may be left open at its end. -/
def nodes? (xml : String) : Option (List Node) := do
  let ts ← tokens? (dropMark xml.toList)
  let ns ← nodesOf? [] ts
  some (dropLayout false (joinText ns))

end ObjectTracking.Markup
