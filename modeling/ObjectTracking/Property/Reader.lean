import ObjectTracking.Composite.Reader
import ObjectTracking.Property.Content
/-!
The values of properties read node by node.
-/
set_option autoImplicit false

namespace ObjectTracking
open Markup

namespace Shape

def readScalar (c : Cursor) (parse : String → Except Fault Value × List Report) : Passage c Value :=
  c.readText .null fun text =>
    let (result, reports) := parse text
    let p : Progress Value := match result with
      | .ok v => .done v
      | .error e => .halt .null e
    p.remarked reports

def readWrapper (wrapper : String) (c : Cursor) (inner : Option Value → Passage c Value) (tag : Tag)
    (s : Option Value × Value) : Passage c (Option Value × Value) :=
  if tag.ns = some .types ∧ tag.name = wrapper then (inner s.1).map (none, ·) else c.pass s

def read (cat : Catalog) (session : Session) (property : String) :
    Shape → (c : Cursor) → Option Value → Passage c Value
  | scalar codec, c, _ => readScalar c fun s => codec.parseValue property s session.strict
  | dateTime _, c, _ => readScalar c fun s => (Scoping.decode property s session.zone, [])
  | composite l, c, existing =>
    let v := match existing with
      | some (.composite v) => if v.layout = l then v else Composite.new cat l
      | _ => Composite.new cat l
    (v.read cat session c).map .composite
  | collection l element, c, existing =>
    let v := match existing with
      | some (.collection v) => if v.layout = l then v else Collection.new l element
      | _ => Collection.new l element
    (v.read cat session c).map .collection
  | indexed _ inner, c, existing => inner.read cat session property c existing
  | contained wrapper inner, c, existing =>
    (c.readElements (fun c' _ => readWrapper wrapper c' (inner.read cat session property c'))
      (existing, .null)).map Prod.snd

end Shape

def Property.read (p : Property) (cat : Catalog) (session : Session) (c : Cursor)
    (existing : Option Value) : Passage c Value :=
  p.shape.read cat session p.name c existing

end ObjectTracking
