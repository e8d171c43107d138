import ObjectTracking.Collection.Markup
import ObjectTracking.Property.Basic
import ObjectTracking.Property.Scoping
/-!
The values of properties in XML. The nesting of an element follows the shape of the property, one
layer at a time, both ways.
-/
set_option autoImplicit false

namespace ObjectTracking
open Markup

def Codec.parseValue (codec : Codec) (property text : String) (strict : Bool) :
    Except Fault Value × List Report :=
  let (result, reports) := codec.parse property text strict
  (result.map Value.ofScalar?, reports)

/-- Writes a value through a codec; nested values have no text. -/
def Codec.formatValue (codec : Codec) (property : String) (v : Value) :
    Except Fault (Option String) :=
  match v with
  | .null => .ok none
  | .scalar s => codec.format property (some s)
  | _ => .error (.typeMismatch property)

/-- The canonical form of a value that a codec can write. No value is one for every codec but that
of an enumeration. -/
def Codec.normaliseValue (codec : Codec) (property : String) (v : Value) : Except Fault Value :=
  match codec, v with
  | codec, .scalar s => (codec.normalise property s).map .scalar
  | .enumeration _, .null => .error (.typeMismatch property)
  | _, .null => .ok .null
  | _, _ => .error (.typeMismatch property)

namespace Shape

/-- Reads the text of an element as a value. A text that is refused is refused at its end. -/
def readText (site : Site) (parse : String → Except Fault Value × List Report) : Progress Value :=
  match site.value with
  | .error e => .halt .null e
  | .ok text =>
    let (result, reports) := parse text
    let p : Progress Value := match result with
      | .ok v => .done v
      | .error e => (Progress.halt .null e).later (site.content.size + 1)
    p.remarked reports

/-- Reads the content of the element a reader stands on. A nested value that is already held is read
into, if it is of the same layout. The last of several wrappers gives the value, and only the first
is read into what is held. -/
def decode (cat : Catalog) (session : Session) (property : String) :
    Shape → Site → Option Value → Progress Value
  | scalar codec, site, _ => readText site fun s => codec.parseValue property s session.strict
  | dateTime _, site, _ => readText site fun s => (Scoping.decode property s session.zone, [])
  | composite l, site, existing =>
    let c := match existing with
      | some (.composite c) => if c.layout = l then c else Composite.new cat l
      | _ => Composite.new cat l
    (c.load cat session site).map .composite
  | collection l element, site, existing =>
    let c := match existing with
      | some (.collection c) => if c.layout = l then c else Collection.new l element
      | _ => Collection.new l element
    (c.load cat session site.content).map .collection
  | indexed _ inner, site, existing => inner.decode cat session property site existing
  | contained wrapper inner, site, existing =>
    let step (tag : Tag) (content : Forest) (s : Option Value × Value) :
        Progress (Option Value × Value) :=
      if tag.ns = some .types ∧ tag.name = wrapper then
        (inner.decode cat session property ⟨some tag, content⟩ s.1).map (none, ·)
      else content.skip s
    (site.content.walk step (existing, .null)).map Prod.snd

def encodeText : Except Fault (Option String) → Encoding
  | .ok (some s) => .call (.text s)
  | .ok none => .nothing
  | .error e => .fail e

def encode (cat : Catalog) (ctx : WriteContext) (property : String) : Shape → Value → Encoding
  | scalar codec, v => encodeText (codec.formatValue property v)
  | dateTime _, v => encodeText (Scoping.encode property v ctx.zone)
  | composite _, .composite c => c.encodeContents cat
  | collection _ _, .collection c => c.encodeContents cat
  | composite _, .null => .nothing
  | collection _ _, .null => .nothing
  | composite _, _ => .fail (.typeMismatch property)
  | collection _ _, _ => .fail (.typeMismatch property)
  | indexed _ inner, v => inner.encode cat ctx property v
  | contained wrapper inner, v =>
    if v.isNull then .nothing else .element .types wrapper (inner.encode cat ctx property v)

def encodeItems (cat : Catalog) (property : String) : Shape → List Composite → Encoding
  | collection _ element, items => Collection.encodeItems cat element items
  | contained wrapper inner, items =>
    .element .types wrapper (inner.encodeItems cat property items)
  | indexed _ inner, items => inner.encodeItems cat property items
  | _, _ => .fail (.typeMismatch property)

end Shape

namespace Property

/-- Reads the element a reader stands on, which is the entry if the property is one of a dictionary.
A nested value already held is read into. -/
def decode (p : Property) (cat : Catalog) (session : Session) (site : Site)
    (existing : Option Value) : Progress Value :=
  p.shape.decode cat session p.name site existing

def encodeEntry (p : Property) (cat : Catalog) (ctx : WriteContext) (v : Value) : Encoding :=
  match p.key? with
  | none => .fail (.typeMismatch p.name)
  | some key =>
    if v.isNull then .nothing
    else .element .types "Entry" (.call (.attr "Key" key) ++ p.shape.encode cat ctx p.name v)

/-- The whole element for a value; nothing for no value. The element of an entry is a dictionary
with that entry alone. -/
def encode (p : Property) (cat : Catalog) (ctx : WriteContext) (v : Value) : Encoding :=
  if v.isNull then .nothing
  else .element .types p.element <|
    if p.key?.isSome then p.encodeEntry cat ctx v else p.shape.encode cat ctx p.name v

def encodeItems (p : Property) (cat : Catalog) (items : List Composite) : Encoding :=
  .element .types p.element (p.shape.encodeItems cat p.name items)

end Property

end ObjectTracking
