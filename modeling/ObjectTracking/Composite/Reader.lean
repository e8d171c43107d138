import ObjectTracking.Composite.Markup
import ObjectTracking.Markup.Reader
/-!
Composite values and collections read node by node. What is stored is the same as for a tree; here it
is the cursor that decides what is read next.
-/
set_option autoImplicit false

namespace ObjectTracking
open Markup

namespace Composite

/-- Reads a composite from the element a cursor stands on, given how its child elements are read. -/
def readBy (cat : Catalog) (session : Session) (c : Cursor)
    (children : Composite → Passage c Composite) (v : Composite) : Passage c Composite :=
  let l := cat.layout v.layout
  .startingWith (loadAttributes session c.tag? 0 l.fields v) fun v =>
    match l.textPosition? with
    | none => children v
    | some ix =>
      c.readText v fun text =>
        match l.fields[ix]? with
        | some ⟨name, _, .scalar codec⟩ => v.storeText session ix name codec text
        | _ => .done v

def readElement (cat : Catalog) (session : Session) (c : Cursor)
    (children : Composite → Passage c Composite) (tag : Tag) (v : Composite) :
    Passage c Composite :=
  let l := cat.layout v.layout
  match l.elementPosition? tag.name with
  | none => c.pass v
  | some ix =>
    match l.fields[ix]? with
    | some ⟨name, _, .scalar codec⟩ =>
      c.readText v fun text => v.storeText session ix name codec text
    | some ⟨_, _, .nested inner⟩ =>
      let n := readBy cat session c children (new cat inner)
      n.map fun n' => if n.fault?.isSome then v else v.setAt ix (.nested n')
    | none => c.pass v

def readElements (cat : Catalog) (session : Session) (c : Cursor) (v : Composite) :
    Passage c Composite :=
  c.readElements (fun c' _h => readElement cat session c' (readElements cat session c')) v
termination_by c.rest.length

def read (cat : Catalog) (session : Session) (c : Cursor) (v : Composite) : Passage c Composite :=
  readBy cat session c (readElements cat session c) v

end Composite

namespace Collection

def readItem (cat : Catalog) (session : Session) (c : Cursor) (tag : Tag) (v : Collection) :
    Passage c Collection :=
  if tag.name = v.element then
    let p := (Composite.new cat v.layout).read cat session c
    p.map fun item =>
      if p.fault?.isSome then v
      else
        { v with entries := v.entries ++ [⟨some v.entries.length, false, item.attach v.link⟩] }
  else c.pass v

def read (cat : Catalog) (session : Session) (c : Cursor) (v : Collection) : Passage c Collection :=
  c.readElements (fun c' _ => readItem cat session c') { v with entries := [], removed := [] }

end Collection

end ObjectTracking
