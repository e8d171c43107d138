import ObjectTracking.Proofs.Markup.Content
import ObjectTracking.Text.Blank
/-!
Texts and elements in any order, as calls can write them into an element. They tell the pieces of the
document that they become and the nodes that a reader makes of it: texts that stand next to each other
are one, a text without characters leaves no node, and neither does blank text beside an element.
-/
set_option autoImplicit false

namespace ObjectTracking.Markup

def Namespace.fullName (ns : Namespace) (name : String) : String := ns.label ++ ":" ++ name

inductive Mixed where
  | nothing
  | text (s : String) (rest : Mixed)
  /-- An element and what follows it. -/
  | element (ns : Namespace) (name : String) (attributes : List (String × String))
      (content rest : Mixed)

/-- The node of a text between two tags; `whole` tells whether it is all that its element holds. -/
def textNodes (whole : Bool) (s : String) : List Node :=
  if s.isEmpty || (Text.isBlankText s.toList && !whole) then [] else [.text s]

namespace Mixed

def calls : Mixed → List Call
  | nothing => []
  | text s rest => .text s :: rest.calls
  | element ns name attributes content rest =>
    .opening ns name :: (attributeCalls attributes ++ (content.calls ++ .closing :: rest.calls))

def isNothing : Mixed → Bool
  | nothing => true
  | _ => false

def wrap (t : PendingTag) (content : Mixed) (inner : List Piece) : List Piece :=
  if content.isNothing then [.empty t] else .opening t :: (inner ++ [.closing t.name])

def pieces : Mixed → List Piece
  | nothing => []
  | text s rest => (if s.isEmpty then [] else [.text s]) ++ rest.pieces
  | element ns name attributes content rest =>
    wrap ⟨ns.fullName name, attributes⟩ content content.pieces ++ rest.pieces

/-- The nodes that are read from the rest of a content. So far there was the text `before`, and
`first` tells whether no element stands before that text. -/
def nodesAfter (first : Bool) (before : String) : Mixed → List Node
  | nothing => textNodes first before
  | text s rest => rest.nodesAfter first (before ++ s)
  | element ns name attributes content rest =>
    textNodes false before ++ .opening ⟨some ns, name, attributes⟩ ::
      (content.nodesAfter true "" ++ .closing (some ns) name :: rest.nodesAfter false "")

def nodes (c : Mixed) : List Node := c.nodesAfter true ""

def WellFormed : Mixed → Prop
  | nothing => True
  | text _ rest => rest.WellFormed
  | element _ name attributes content rest =>
    IsName name ∧ AreAttributes attributes ∧ content.WellFormed ∧ rest.WellFormed

end Mixed

namespace Content

/-- The content of an object's element among all that can be written. -/
def mixed : Content → Mixed
  | nothing => .nothing
  | text s => .text s .nothing
  | element name attributes content rest =>
    .element .types name attributes content.mixed rest.mixed

theorem calls_mixed (c : Content) : c.mixed.calls = c.calls := by
  induction c with
  | nothing => rfl
  | text s => rfl
  | element name attributes content rest ihcontent ihrest =>
    simp only [mixed, Mixed.calls, calls, ihcontent, ihrest]

theorem wellFormed_mixed {c : Content} (h : c.WellFormed) : c.mixed.WellFormed := by
  induction c with
  | nothing => trivial
  | text s => trivial
  | element name attributes content rest ihcontent ihrest =>
    obtain ⟨hname, hattributes, hcontent, hrest, -⟩ := h
    exact ⟨hname, hattributes, ihcontent hcontent, ihrest hrest⟩

/-- Where no text stands beside an element, every text is a node. -/
theorem nodesAfter_mixed {c : Content} (h : c.WellFormed) {first : Bool}
    (hfirst : first = true ∨ c.isRow = true) : c.mixed.nodesAfter first "" = c.nodes := by
  induction c generalizing first with
  | nothing => rfl
  | text s =>
    obtain rfl : first = true := by
      rcases hfirst with hfirst | hrow
      · exact hfirst
      · cases hrow
    simp [mixed, Mixed.nodesAfter, textNodes, nodes]
  | element name attributes content rest ihcontent ihrest =>
    obtain ⟨-, -, hcontent, hrest, hrow⟩ := h
    simp only [mixed, Mixed.nodesAfter, nodes, ihcontent hcontent (.inl rfl),
      ihrest hrest (.inr hrow)]
    rfl

end Content

end ObjectTracking.Markup
