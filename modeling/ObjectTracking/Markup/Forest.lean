import ObjectTracking.Markup.Node
/-!
The content of an element as a tree. A forest is what stands between a position in a document and
the end tag that closes that position, or the end of the document if no tag does. Everything that
reads a document beyond a single node reads a forest.
-/
set_option autoImplicit false

namespace ObjectTracking.Markup

/-- What follows a position, up to the end tag that closes it. -/
inductive Forest where
  /-- The closing end tag comes next. -/
  | closed
  /-- The document ends here. -/
  | cut
  | text (s : String) (rest : Forest)
  | element (tag : Tag) (content rest : Forest)
  deriving DecidableEq, Repr

namespace Forest

/-- Whether the position is closed before the document ends. -/
def isClosed : Forest → Bool
  | closed => true
  | cut => false
  | text _ rest => rest.isClosed
  | element _ _ rest => rest.isClosed

/-- How many nodes stand before the end tag that closes the position, or before the end of the
document. -/
def size : Forest → Nat
  | closed => 0
  | cut => 0
  | text _ rest => rest.size + 1
  | element _ content rest =>
    content.size + 1 + (if content.isClosed then rest.size + 1 else 0)

/-- The forest after a position and the forests after the end tags that close it and what encloses
it, innermost first. -/
def levels : List Node → Forest × List Forest
  | [] => (cut, [])
  | .text s :: ns =>
    let (f, outer) := levels ns
    (text s f, outer)
  | .closing _ _ :: ns =>
    let (f, outer) := levels ns
    (closed, f :: outer)
  | .opening t :: ns =>
    match levels ns with
    | (f, g :: outer) => (element t f g, outer)
    | (f, []) => (element t f cut, [])

def ofNodes (ns : List Node) : Forest := (levels ns).1

end Forest

/-- What a reader stands on: a start tag or something else, and what follows. -/
structure Site where
  tag? : Option Tag
  content : Forest

/-- Why reading stopped, and how many nodes it had moved forward by then. -/
structure Stop where
  fault : Fault
  passed : Nat

/-- The same stop, seen from `n` nodes earlier. -/
def Stop.later (n : Nat) (s : Stop) : Stop := { s with passed := n + s.passed }

def Stop.here (fault : Fault) : Stop := ⟨fault, 0⟩

/-- The texts of a forest that holds nothing else, or the name of its first element. -/
def Forest.plainText : Forest → Except String String
  | .closed => .ok ""
  | .cut => .ok ""
  | .text s rest => (s ++ ·) <$> rest.plainText
  | .element tag _ _ => .error tag.name

def Site.value (site : Site) : Except Fault String :=
  match site.tag? with
  | none => .error (.misplaced .valueOutsideElement)
  | some tag =>
    if site.content.isClosed then
      match site.content.plainText with
      | .ok s => .ok s
      | .error child => .error (.misplaced (.childInValue tag.name child))
    else .error (.misplaced .unterminated)

end ObjectTracking.Markup
