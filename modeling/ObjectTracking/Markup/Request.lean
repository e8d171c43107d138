import ObjectTracking.Markup.Writer
/-!
A writer in the hands of a caller. Requests change it in place, one step after another. One that is
refused leaves it as the steps before the refusal have made it, and the caller may go on from there.
-/
set_option autoImplicit false

namespace ObjectTracking.Markup

/-- What a caller asks of a writer. -/
inductive Request where
  | call (c : Call)
  | element (ns : Namespace) (name value : String)
  deriving DecidableEq, Repr

def Request.calls : Request → List Call
  | call c => [c]
  | element ns name value => (Encoding.textElement ns name value).calls

abbrev Change := EStateM Fault Writer

namespace Change

def emit (p : Piece) : Change Unit := modify fun w => { w with written := p :: w.written }

def takePending : Change (Option PendingTag) := do
  let w ← get
  set { w with pending := none }
  return w.pending

def flush : Change Unit := do
  match ← takePending with
  | some t => emit (.opening t)
  | none => return

def pop : Change String := do
  let w ← get
  match w.opened with
  | [] => throw (.misplaced .nothingOpen)
  | name :: outer =>
    set { w with opened := outer }
    return name

/-- Holds a start tag back. The first one declares the namespaces. -/
def start (name : String) : Change Unit := do
  flush
  let w ← get
  set { w with
    pending := some ⟨name, if w.declared then [] else Writer.declarations⟩
    declared := true }
  modify fun w => { w with opened := name :: w.opened }

def close : Change Unit := do
  let name ← pop
  match ← takePending with
  | some t => emit (.empty t)
  | none => emit (.closing name)

def addAttribute (name value : String) : Change Unit := do
  let w ← get
  match w.pending with
  | some t =>
    set { w with pending := some { t with attributes := t.attributes ++ [(name, value)] } }
  | none => throw (.misplaced (.attributeOutsideStart name))

def addText (value : String) : Change Unit := do
  if (← get).opened.isEmpty then throw (.misplaced .textOutsideElement)
  flush
  if !value.isEmpty then emit (.text value)

def call : Call → Change Unit
  | .opening ns name => start (ns.label ++ ":" ++ name)
  | .attr name value => addAttribute name value
  | .text value => addText value
  | .closing => close

/-- One request: its calls, until one of them is refused. -/
def request (r : Request) : Change Unit := r.calls.forM call

end Change

namespace Writer

/-- Asks something of a writer: the fault if it is refused, and the writer afterwards. -/
def ask (w : Writer) (r : Request) : Option Fault × Writer :=
  match (Change.request r).run w with
  | .ok _ w => (none, w)
  | .error e w => (some e, w)

def askAll (w : Writer) : List Request → List (Option Fault) × Writer
  | [] => ([], w)
  | r :: rs =>
    let (fault?, w) := w.ask r
    let (faults, w) := w.askAll rs
    (fault? :: faults, w)

end Writer

end ObjectTracking.Markup
