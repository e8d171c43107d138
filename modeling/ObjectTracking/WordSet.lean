/-!
Sets of slots in machine words, 64 slots to a word. The first word is part of the set itself; the
others stand in an array that grows when a slot beyond its end is inserted or removed.
-/
set_option autoImplicit false

namespace ObjectTracking

/-- A finite set of slots. -/
structure WordSet where
  near : UInt64 := 0
  far : Array UInt64 := #[]

namespace WordSet

def empty : WordSet := {}

instance : EmptyCollection WordSet := ⟨empty⟩

/-- The bit of a slot within its word. -/
def mask (slot : Nat) : UInt64 := 1 <<< UInt64.ofNat (slot % 64)

def hasBit (slot : Nat) (word : UInt64) : Bool := word &&& mask slot != 0

def ones (word : UInt64) : Nat := (List.range 64).countP (hasBit · word)

def resized (words : Array UInt64) (size : Nat) : Array UInt64 :=
  words ++ Array.replicate (size - words.size) 0

def word (s : WordSet) (slot : Nat) : UInt64 :=
  if slot < 64 then s.near else (resized s.far (slot / 64))[slot / 64 - 1]?.getD 0

/-- Makes room for the word of a slot and changes it. -/
def modifyWord (s : WordSet) (slot : Nat) (change : UInt64 → UInt64) : WordSet :=
  if slot < 64 then { s with near := change s.near }
  else { s with far := (resized s.far (slot / 64)).modify (slot / 64 - 1) change }

def contains (s : WordSet) (slot : Nat) : Bool :=
  if slot < 64 then hasBit slot s.near else s.far[slot / 64 - 1]?.any (hasBit slot)

/-- Adds a slot, and tells whether it was not there. -/
def insert (s : WordSet) (slot : Nat) : Bool × WordSet :=
  (s.word slot &&& mask slot == 0, s.modifyWord slot (· ||| mask slot))

/-- Takes a slot out, and tells whether it was there. -/
def erase (s : WordSet) (slot : Nat) : Bool × WordSet :=
  (s.word slot &&& mask slot != 0, s.modifyWord slot (· &&& ~~~mask slot))

def union (s t : WordSet) : WordSet :=
  { near := s.near ||| t.near
    far := (resized s.far t.far.size).mapIdx fun ix word =>
      match t.far[ix]? with
      | some other => word ||| other
      | none => word }

instance : Union WordSet := ⟨union⟩

def isEmpty (s : WordSet) : Bool := s.near == 0 && s.far.all (· == 0)

def size (s : WordSet) : Nat := ones s.near + (s.far.toList.map ones).foldr (· + ·) 0

def slotsOf (word : UInt64) (ix : Nat) : List Nat :=
  ((List.range 64).filter (hasBit · word)).map (· + ix * 64)

def toList (s : WordSet) : List Nat :=
  (s.near :: s.far.toList).zipIdx.flatMap fun (word, ix) => slotsOf word ix

def debug (s : WordSet) : String :=
  let members := s.toList.map fun n => String.ofList (Nat.toDigits 10 n)
  "FieldSet[" ++ String.intercalate ", " members ++ "]"

end WordSet

end ObjectTracking
