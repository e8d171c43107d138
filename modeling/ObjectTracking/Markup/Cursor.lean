import ObjectTracking.Markup.Progress
import ObjectTracking.Text.Blank
/-!
Reading a document node by node. A cursor stands before the first node or on a node and only moves
forward.
-/
set_option autoImplicit false

namespace ObjectTracking.Markup

structure Cursor where
  /-- The node it stands on, unless it is still before the first. -/
  current : Option Node
  rest : List Node

namespace Cursor

def ofXml (xml : String) : Except Fault Cursor :=
  match nodes? xml with
  | some ns => .ok ⟨none, ns⟩
  | none => .error .brokenXml

def advance (c : Cursor) : Except Fault Cursor :=
  match c.rest with
  | [] => .error (.misplaced .endOfDocument)
  | n :: rest => .ok ⟨some n, rest⟩

def later : List Node → List Cursor
  | [] => []
  | n :: rest => ⟨some n, rest⟩ :: later rest

/-- The cursor `n` nodes further on, or on the last node. -/
def forward : Nat → Cursor → Cursor
  | 0, c => c
  | n + 1, c =>
    match c.rest with
    | [] => c
    | x :: rest => forward n ⟨some x, rest⟩

def tag? (c : Cursor) : Option Tag :=
  match c.current with
  | some (.opening t) => some t
  | _ => none

/-- The name of the element whose start or end it stands on; elsewhere the empty name. -/
def name (c : Cursor) : String :=
  match c.current with
  | some (.opening t) => t.name
  | some (.closing _ name) => name
  | _ => ""

def ns (c : Cursor) : Option Namespace :=
  match c.current with
  | some (.opening t) => t.ns
  | some (.closing ns _) => ns
  | _ => none

/-- What it stands on and what follows. -/
def site (c : Cursor) : Site := ⟨c.tag?, Forest.ofNodes c.rest⟩

/-- Whether a namespace and a name are the wanted ones; nothing wanted matches anything. -/
def fits (ns : Option Namespace) (name : Option String) (ns' : Option Namespace) (name' : String) :
    Bool :=
  ns.all (fun ns => ns' == some ns) && name.all (· == name')

def isStart (c : Cursor) (ns : Option Namespace) (name : Option String) : Bool :=
  match c.current with
  | some (.opening t) => fits ns name t.ns t.name
  | _ => false

def isEnd (c : Cursor) (ns : Option Namespace) (name : Option String) : Bool :=
  match c.current with
  | some (.closing ns' name') => fits ns name ns' name'
  | _ => false

def isEmptyElement (c : Cursor) : Bool := c.tag?.isSome && startsWithClosing c.rest

def toEnd (c : Cursor) : Cursor := c.forward ((Forest.ofNodes c.rest).size + 1)

def stopped (c : Cursor) (s : Stop) : Cursor := c.forward s.passed

def after {σ : Type} (c : Cursor) (p : Progress σ) : Cursor :=
  match p.stop? with
  | some s => c.stopped s
  | none => c.toEnd

/-- Reads the text of the element it stands on and moves to the end of that element. -/
def readValue (c : Cursor) : Except Fault (String × Cursor) :=
  (c.site.value).map (·, c.toEnd)

/-- Reads the text of the element it stands on, without the blanks around it, as something else. A
text that is refused leaves the cursor at the end of the element. -/
def readAs {α : Type} (c : Cursor) (parse : List Char → Option α) : Except Fault α × Cursor :=
  match c.readValue with
  | .error e => (.error e, c)
  | .ok (text, c') =>
    match parse (Text.trim text.toList) with
    | some a => (.ok a, c')
    | none => (.error (.malformed c.name text "unparsable value"), c')

/-- Moves from the start of an element to its end; elsewhere it stays. -/
def skip (c : Cursor) : Except Fault Cursor :=
  match c.tag? with
  | none => .ok c
  | some _ =>
    if (Forest.ofNodes c.rest).isClosed then .ok c.toEnd
    else .error (.misplaced .unterminated)

/-- Moves to the next node, which must be a given start tag. A failure leaves the cursor there. -/
def readStart (c : Cursor) (ns : Namespace) (name : String) : Except Fault Unit × Cursor :=
  match c.advance with
  | .error e => (.error e, c)
  | .ok c =>
    if c.isStart (some ns) (some name) then (.ok (), c)
    else (.error (.misplaced (.expectedStart ns name c.name)), c)

def readEnd (c : Cursor) (ns : Namespace) (name : String) : Except Fault Unit × Cursor :=
  match c.advance with
  | .error e => (.error e, c)
  | .ok c =>
    if c.isEnd (some ns) (some name) then (.ok (), c)
    else (.error (.misplaced (.expectedEnd ns name c.name)), c)

end Cursor

end ObjectTracking.Markup
