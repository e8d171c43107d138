import ObjectTracking.Composite.Edit
/-!
Changing a collection item by item. The positions reported as removed or modified are those that
the items had when the collection was last loaded or saved.
-/
set_option autoImplicit false

namespace ObjectTracking

namespace Collection

def new (layout : LayoutId) (element : String) : Collection := { layout, element }

def item? (c : Collection) (ix : Nat) : Option Composite := c.items[ix]?

/-- An item must have the layout of the collection. -/
def check (cat : Catalog) (c : Collection) (item : Composite) : Except Fault Unit :=
  if item.layout = c.layout then .ok () else .error (.typeMismatch (cat.layout c.layout).name)

/-- Adds an item before the one at `ix`, or at the end if there is no such item. -/
def insert (cat : Catalog) (c : Collection) (ix : Nat) (item : Composite) :
    Edited Collection Unit :=
  match c.check cat item with
  | .error e => .failed e c
  | .ok () =>
    let entry : Entry := ⟨none, false, item.attach c.link⟩
    .done () { c with entries := c.entries.insertIdx (min ix c.entries.length) entry } c.link

def push (cat : Catalog) (c : Collection) (item : Composite) : Edited Collection Unit :=
  c.insert cat c.entries.length item

/-- Adds items at the end until one of them does not fit. -/
def withAll (cat : Catalog) (c : Collection) : List Composite → Except Fault Collection
  | [] => .ok c
  | item :: rest =>
    let e := c.push cat item
    match e.result with
    | .error fault => .error fault
    | .ok () => withAll cat e.state rest

/-- Takes out the item at a position; it then reports to nobody. Nothing happens if there is no such
item. -/
def remove (c : Collection) (ix : Nat) : Edited Collection (Option Composite) :=
  match c.entries[ix]? with
  | none => .done none c none
  | some e =>
    .done (some (e.value.attach none))
      { c with entries := c.entries.eraseIdx ix, removed := c.removed ++ e.origin.toList } c.link

/-- Takes out the last item as long as there is one. -/
def clear (c : Collection) : Edited Collection Unit :=
  ⟨.ok (), { c with
      entries := []
      removed := c.removed ++ c.entries.reverse.filterMap Entry.origin },
    c.entries.flatMap fun _ => c.link.toList⟩

/-- Edits the item at a position, if there is one. From then on it counts as modified, whatever the
edit does. -/
def editItem? {α : Type} (c : Collection) (ix : Nat) (edit : Composite → Edited Composite α) :
    Option (Edited Collection α) :=
  c.entries[ix]?.map fun e =>
    (edit e.value).within c.link.toList fun v =>
      { c with entries := c.entries.set ix { e with modified := true, value := v } }

/-- The items added since the last load or save, in order. -/
def added (c : Collection) : List Composite :=
  (c.entries.filter (·.origin.isNone)).map Entry.value

/-- The former positions of the items removed since then, ascending. -/
def removedPositions (c : Collection) : List Nat := c.removed.mergeSort (· ≤ ·)

/-- The items changed in place since then, with their former positions. -/
def modified (c : Collection) : List (Nat × Composite) :=
  (c.entries.filter Entry.modified).filterMap fun e => e.origin.map (·, e.value)

def hasChanges (c : Collection) : Bool :=
  !c.removed.isEmpty || c.entries.any fun e => e.origin.isNone || e.modified

/-- Takes the current items as those last saved. -/
def markSaved (c : Collection) : Collection :=
  { c with
    entries := c.entries.mapIdx fun ix e => { e with origin := some ix, modified := false }
    removed := [] }

end Collection

end ObjectTracking
