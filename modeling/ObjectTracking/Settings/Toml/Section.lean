import ObjectTracking.Settings.Toml.Value
/-!
The sections of a settings file. A file is read as the entries before the first header and the
sections that the headers begin.

Headers must agree with each other. Each opens a table, and no table is opened twice; a header in
double brackets adds an item to an array of tables, and the headers after it that lead through the
array lead into that item.
-/
set_option autoImplicit false

namespace ObjectTracking.Settings.Toml

structure Header where
  path : List String
  /-- Whether it adds an item to an array of tables. -/
  isArray : Bool

/-- A section: its header and the entries below it. -/
structure Section where
  header : Header
  entries : List (String × Value)

/-- What headers have made of a table. For an array of tables this is its last item. -/
inductive Opened where
  | mk (byHeader isItem : Bool) (parts : List (String × Opened))

namespace Opened

/-- A table that no header has opened or led through. -/
def untouched : Opened := mk false false []

def item : Opened := mk true true []

def byHeader : Opened → Bool
  | mk b _ _ => b

def isItem : Opened → Bool
  | mk _ b _ => b

def parts : Opened → List (String × Opened)
  | mk _ _ ps => ps

def part? (t : Opened) (key : String) : Option Opened := t.parts.lookup key

def withPart (t : Opened) (key : String) (p : Opened) : Opened :=
  mk t.byHeader t.isItem ((key, p) :: t.parts.filter (·.1 != key))

/-- Opens the table at the end of a path, which must not be open. -/
def openTable? : List String → Opened → Option Opened
  | [], t => if t.byHeader then none else some (mk true t.isItem t.parts)
  | key :: path, t =>
    (openTable? path ((t.part? key).getD untouched)).map (t.withPart key)

/-- Adds an item to the array at the end of a path, which must not be a table. -/
def openItem? : List String → Opened → Option Opened
  | [], _ => none
  | [key], t =>
    if (t.part? key).all isItem then some (t.withPart key item) else none
  | key :: path, t =>
    (openItem? path ((t.part? key).getD untouched)).map (t.withPart key)

/-- What a header makes of the table of the whole file, unless it disagrees with those before. -/
def add? (t : Opened) (h : Header) : Option Opened :=
  if h.isArray then openItem? h.path t else openTable? h.path t

end Opened

def coherent (headers : List Header) : Bool :=
  (headers.foldlM Opened.add? Opened.untouched).isSome

def header? (ts : List Token) : Option (Header × List Token) := do
  let (isArray, ts) := match ts with
    | .openBracket :: ts => (true, ts)
    | ts => (false, ts)
  let (path, ts) ← key? (skipBlank ts)
  let ts ← expect .closeBracket (skipBlank ts)
  let ts ← if isArray then expect .closeBracket ts else some ts
  let ts ← endOfLine? (skipBlank ts)
  some (⟨path, isArray⟩, ts)

/-- Reads the lines of a file from within a section, whose entries so far are given: the entries of
that section and the sections after it. -/
def lines? : Nat → List (String × Value) → List Token →
    Option (List (String × Value) × List Section)
  | 0, _, _ => none
  | fuel + 1, entries, ts =>
    match skipBlank ts with
    | [] => some (entries, [])
    | .newline :: ts => lines? fuel entries ts
    | .comment :: ts => do
      let ts ← endOfLine? ts
      lines? fuel entries ts
    | .openBracket :: ts => do
      let (header, ts) ← header? ts
      let (inner, sections) ← lines? fuel [] ts
      some (entries, ⟨header, inner⟩ :: sections)
    | ts => do
      let (key, ts) ← key? ts
      let ts ← expect .equals (skipBlank ts)
      let (v, ts) ← value? (ts.length + 1) (skipBlank ts)
      let ts ← endOfLine? (skipBlank ts)
      lines? fuel (← addEntry v key entries) ts

/-- Reads a file as the entries before the first header and the sections with one. A byte order mark
before it is passed over. -/
def parse? (text : List Char) : Option (List (String × Value) × List Section) := do
  let cs := match text with
    | '\ufeff' :: cs => cs
    | cs => cs
  let cs := foldLines cs
  let ts ← tokens? cs.length cs
  let (entries, sections) ← lines? (ts.length + 1) [] ts
  if coherent (sections.map Section.header) then some (entries, sections) else none

end ObjectTracking.Settings.Toml
