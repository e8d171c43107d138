import ObjectTracking.Composite.Edit
import ObjectTracking.Markup.Call
import ObjectTracking.Markup.Progress
import ObjectTracking.Session
/-!
Composite values in XML. Reading fills the fields that the element mentions and leaves the others
as they are; elements that are no field are passed over. Writing gives the attributes first and then
the fields in the layout's order, and nothing for a field that is unset.
-/
set_option autoImplicit false

namespace ObjectTracking
open Markup

namespace Composite

def storeText (session : Session) (ix : Nat) (name : String) (codec : Codec) (text : String)
    (c : Composite) : Progress Composite :=
  let (result, reports) := codec.parse name text session.strict
  let p : Progress Composite := match result with
    | .ok v => .done (c.setAt ix (.ofScalar? v))
    | .error e => .halt c e
  p.remarked reports

/-- Stores the text of an element in a field. A text that the field cannot read is only refused at
the end of the element. -/
def storeValue (session : Session) (ix : Nat) (name : String) (codec : Codec) (site : Site)
    (c : Composite) : Progress Composite :=
  match site.value with
  | .error e => .halt c e
  | .ok text => (c.storeText session ix name codec text).later (site.content.size + 1)

/-- Stores the attributes of an element in their fields, which stand at places from `ix` on. -/
def loadAttributes (session : Session) (tag? : Option Tag) :
    Nat → List LayoutField → Composite → Progress Composite
  | _, [], c => .done c
  | ix, f :: fs, c =>
    let p : Progress Composite :=
      match f.placement, f.kind, tag?.bind (·.attribute? f.name) with
      | .attr, .scalar codec, some text => c.storeText session ix f.name codec text
      | _, _, _ => .done c
    p.andThen (loadAttributes session tag? (ix + 1) fs)

/-- Reads a composite from the element a reader stands on, given how its child elements are read.
A layout with a text field has no child elements. -/
def loadBy (cat : Catalog) (session : Session) (site : Site)
    (children : Composite → Progress Composite) (c : Composite) : Progress Composite :=
  let l := cat.layout c.layout
  (loadAttributes session site.tag? 0 l.fields c).andThen fun c =>
    match l.textPosition? with
    | none => children c
    | some ix =>
      match l.fields[ix]? with
      | some ⟨name, _, .scalar codec⟩ => c.storeValue session ix name codec site
      | _ =>
        match site.value with
        | .error e => .halt c e
        | .ok _ => .done c

def loadElements (cat : Catalog) (session : Session) : Forest → Composite → Progress Composite
  | .closed, c => .done c
  | .cut, c => .halt c (.misplaced .endOfDocument)
  | .text _ rest, c => (loadElements cat session rest c).later 1
  | .element tag content rest, c =>
    let l := cat.layout c.layout
    let p : Progress Composite :=
      match l.elementPosition? tag.name with
      | none => content.skip c
      | some ix =>
        match l.fields[ix]? with
        | some ⟨name, _, .scalar codec⟩ => c.storeValue session ix name codec ⟨some tag, content⟩
        | some ⟨_, _, .nested inner⟩ =>
          let n := loadBy cat session ⟨some tag, content⟩ (loadElements cat session content)
            (new cat inner)
          n.map fun n' => if n.stop?.isSome then c else c.setAt ix (.nested n')
        | none => content.skip c
    (p.later 1).andThen fun c => (loadElements cat session rest c).later (content.size + 2)

def load (cat : Catalog) (session : Session) (site : Site) (c : Composite) : Progress Composite :=
  loadBy cat session site (loadElements cat session site.content) c

end Composite

def LayoutField.encodeAttribute (f : LayoutField) (v : Field) : Encoding :=
  match f.placement, f.kind with
  | .attr, .scalar codec =>
    match v with
    | .unset => .nothing
    | .nested _ => .fail (.typeMismatch f.name)
    | .scalar s =>
      match codec.text? s with
      | some text => .call (.attr f.name text)
      | none => .fail (.typeMismatch f.name)
  | _, _ => .nothing

def LayoutField.encodeAttributes : List LayoutField → List Field → Encoding
  | f :: fs, v :: vs => f.encodeAttribute v ++ LayoutField.encodeAttributes fs vs
  | _, _ => .nothing

mutual

def Composite.encodeContents (cat : Catalog) : Composite → Encoding
  | .mk l _ vs =>
    LayoutField.encodeAttributes (cat.layout l).fields vs ++
      Field.encodeAll cat (cat.layout l).fields vs

def Field.encode (cat : Catalog) (f : LayoutField) : Field → Encoding
  | .unset => .nothing
  | .scalar s =>
    match f.placement, f.kind with
    | .attr, _ => .nothing
    | _, .nested _ => .nothing
    | placement, .scalar codec =>
      match codec.text? s with
      | none => .fail (.typeMismatch f.name)
      | some text =>
        if placement = .text then .call (.text text) else .textElement .types f.name text
  | .nested c =>
    match f.placement, f.kind with
    | .attr, _ => .nothing
    | _, .scalar _ => .fail (.typeMismatch f.name)
    | _, .nested _ => .element .types f.name (c.encodeContents cat)

def Field.encodeAll (cat : Catalog) : List LayoutField → List Field → Encoding
  | f :: fs, v :: vs => v.encode cat f ++ Field.encodeAll cat fs vs
  | _, _ => .nothing

end

def Composite.encode (cat : Catalog) (element : String) (c : Composite) : Encoding :=
  .element .types element (c.encodeContents cat)

mutual

/-- Debugging text: the name of the layout and the fields that are set. -/
def Composite.debug (cat : Catalog) : Composite → String
  | .mk l _ vs =>
    let shown := Field.debugAll cat (cat.layout l).fields vs
    let name := (cat.layout l).name
    if shown.isEmpty then name else name ++ " \x7b " ++ String.intercalate ", " shown ++ " \x7d"

def Field.debug (cat : Catalog) : Field → String
  | .unset => "Null"
  | .scalar s => s.debug
  | .nested c => "Complex(" ++ c.debug cat ++ ")"

def Field.debugAll (cat : Catalog) : List LayoutField → List Field → List String
  | f :: fs, v :: vs =>
    if v.isUnset then Field.debugAll cat fs vs
    else (f.name ++ ": " ++ v.debug cat) :: Field.debugAll cat fs vs
  | _, _ => []

end

end ObjectTracking
