import ObjectTracking.Markup.Forest
import ObjectTracking.Markup.Writer
/-!
The content of an element as an object has it: nothing, a text, or elements in a row. It tells the
calls that write it, the nodes that are read from them, and the forest that the nodes make.
-/
set_option autoImplicit false

namespace ObjectTracking.Markup

/-- Whether a character may stand in a name. XML allows fewer, but these are those that end or split
a name. -/
def isPlain (c : Char) : Bool := !isSpace c && !(['<', '>', '/', '=', '"', '\'', ':'].contains c)

def IsName (s : String) : Prop := s.toList ≠ [] ∧ s.toList.all isPlain = true

instance : DecidablePred IsName :=
  fun s => inferInstanceAs (Decidable (s.toList ≠ [] ∧ s.toList.all isPlain = true))

/-- Attributes that an element can have: their names are distinct, and none declares a namespace. -/
structure AreAttributes (attributes : List (String × String)) : Prop where
  names : ∀ a ∈ attributes, IsName a.1 ∧ a.1 ≠ "xmlns"
  distinct : (attributes.map Prod.fst).Nodup

theorem areAttributes_nil : AreAttributes [] := ⟨by simp, by simp⟩

def attributeCalls (attributes : List (String × String)) : List Call :=
  attributes.map fun a => .attr a.1 a.2

def Forest.ofText (s : String) : Forest := if s.isEmpty then .closed else .text s .closed

/-- What an element holds. -/
inductive Content where
  | nothing
  | text (s : String)
  /-- An element and what follows it. -/
  | element (name : String) (attributes : List (String × String)) (content rest : Content)

namespace Content

def tag (name : String) (attributes : List (String × String)) : Tag :=
  ⟨some .types, name, attributes⟩

def calls : Content → List Call
  | nothing => []
  | text s => [.text s]
  | element name attributes content rest =>
    .opening .types name ::
      (attributeCalls attributes ++ (content.calls ++ .closing :: rest.calls))

def nodes : Content → List Node
  | nothing => []
  | text s => if s.isEmpty then [] else [.text s]
  | element name attributes content rest =>
    .opening (tag name attributes) :: (content.nodes ++ .closing (some .types) name :: rest.nodes)

def forest : Content → Forest
  | nothing => .closed
  | text s => .ofText s
  | element name attributes content rest =>
    .element (tag name attributes) content.forest rest.forest

def isRow : Content → Bool
  | text _ => false
  | _ => true

/-- Names and attributes are such, and no text stands beside an element. -/
def WellFormed : Content → Prop
  | nothing => True
  | text _ => True
  | element name attributes content rest =>
    IsName name ∧ AreAttributes attributes ∧ content.WellFormed ∧ rest.WellFormed ∧
      rest.isRow = true

end Content

end ObjectTracking.Markup
