import ObjectTracking.Markup.Cursor
/-!
Reading node by node. All readers of a document move one cursor. Each begins on a start tag and has
to come to rest on the end tag that belongs to it, since the loop around it takes the next end tag
that it meets for its own.
-/
set_option autoImplicit false

namespace ObjectTracking.Markup

/-- What reading from a cursor on leaves: the state, the cursor, the fault that ended it early, and
the remarks made. A cursor does not move back. -/
@[ext] structure Passage (start : Cursor) (σ : Type) where
  state : σ
  cursor : Cursor
  onward : cursor.rest.length ≤ start.rest.length
  fault? : Option Fault
  reports : List Report

namespace Passage
variable {σ τ : Type} {c c' : Cursor}

def here (c : Cursor) (p : Progress σ) : Passage c σ :=
  ⟨p.state, c, Nat.le_refl _, p.stop?.map Stop.fault, p.reports⟩

def since (h : c'.rest.length ≤ c.rest.length) (p : Passage c' σ) : Passage c σ :=
  { p with onward := Nat.le_trans p.onward h }

def remarked (before : List Report) (p : Passage c σ) : Passage c σ :=
  { p with reports := before ++ p.reports }

def map (whole : σ → τ) (p : Passage c σ) : Passage c τ := { p with state := whole p.state }

/-- Reads after something is done with the cursor where it is, unless that fails. -/
def startingWith (p : Progress σ) (next : σ → Passage c σ) : Passage c σ :=
  match p.stop? with
  | some _ => here c p
  | none => (next p.state).remarked p.reports

def andThen (p : Passage c σ)
    (next : (c' : Cursor) → c'.rest.length ≤ c.rest.length → σ → Passage c' σ) : Passage c σ :=
  match p.fault? with
  | some _ => p
  | none => ((next p.cursor p.onward p.state).since p.onward).remarked p.reports

def result (p : Passage c σ) : Except Fault σ :=
  match p.fault? with
  | some f => .error f
  | none => .ok p.state

end Passage

/-- The cursor on the end tag that closes so many elements further out than the innermost one. -/
def Cursor.closing? : Nat → List Node → Option Cursor
  | _, [] => none
  | depth, .opening _ :: rest => closing? (depth + 1) rest
  | depth, .text _ :: rest => closing? depth rest
  | 0, .closing ns name :: rest => some ⟨some (.closing ns name), rest⟩
  | depth + 1, .closing _ _ :: rest => closing? depth rest

theorem Cursor.closing?_length {depth : Nat} {ns : List Node} {c : Cursor}
    (h : closing? depth ns = some c) : c.rest.length < ns.length := by
  fun_induction closing? depth ns with
  | case1 => cases h
  | case2 _ _ _ ih => exact Nat.lt_succ_of_lt (ih h)
  | case3 _ _ _ ih => exact Nat.lt_succ_of_lt (ih h)
  | case4 =>
    cases h
    exact Nat.lt_succ_self _
  | case5 _ _ _ _ ih => exact Nat.lt_succ_of_lt (ih h)

/-- The texts before the next tag, or the name of that tag if it opens an element. -/
def leadingText : List Node → Except String String
  | .text s :: rest => (s ++ ·) <$> leadingText rest
  | .opening tag :: _ => .error tag.name
  | _ => .ok ""

namespace Cursor
variable {σ : Type}

def pass (c : Cursor) (s : σ) : Passage c σ :=
  match h : closing? 0 c.rest with
  | none => .here c (.halt s (.misplaced .unterminated))
  | some c' => (Passage.here c' (.done s)).since (Nat.le_of_lt (closing?_length h))

def readText (c : Cursor) (s : σ) (use : String → Progress σ) : Passage c σ :=
  match c.tag? with
  | none => .here c (.halt s (.misplaced .valueOutsideElement))
  | some tag =>
    match h : closing? 0 c.rest with
    | none => .here c (.halt s (.misplaced .unterminated))
    | some c' =>
      match leadingText c.rest with
      | .error child => .here c (.halt s (.misplaced (.childInValue tag.name child)))
      | .ok text => (Passage.here c' (use text)).since (Nat.le_of_lt (closing?_length h))

/-- Reads elements up to the next end tag and passes over texts. The step begins on the start of an
element. -/
def readElements : (c : Cursor) →
    ((c' : Cursor) → c'.rest.length < c.rest.length → Tag → σ → Passage c' σ) → σ → Passage c σ
  | ⟨_, []⟩, _, s => .here _ (.halt s (.misplaced .endOfDocument))
  | ⟨_, .closing ns name :: rest⟩, _, s =>
    (Passage.here ⟨some (.closing ns name), rest⟩ (.done s)).since (Nat.le_succ _)
  | ⟨_, .text t :: rest⟩, step, s =>
    (readElements ⟨some (.text t), rest⟩ (fun c' h => step c' (Nat.lt_succ_of_lt h)) s).since
      (Nat.le_succ _)
  | ⟨_, .opening tag :: rest⟩, step, s =>
    ((step ⟨some (.opening tag), rest⟩ (Nat.lt_succ_self _) tag s).andThen fun c' hc' s =>
      readElements c'
        (fun c'' h => step c'' (Nat.lt_succ_of_lt (Nat.lt_of_lt_of_le h hc'))) s).since
      (Nat.le_succ _)
termination_by c => c.rest.length
decreasing_by
  · exact Nat.lt_succ_self _
  -- A step may stop anywhere, but not before the element it began on.
  · exact Nat.lt_succ_of_le hc'

end Cursor

end ObjectTracking.Markup
