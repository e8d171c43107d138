import ObjectTracking.Markup.Forest
import ObjectTracking.Report
/-!
Reading a forest into a state. Whatever was read before a stop stays in the state. The loop over
the elements of a forest is written once here; those that read objects, dictionaries, wrappers and
collections differ only in what they do with an element.
-/
set_option autoImplicit false

namespace ObjectTracking.Markup

/-- The state that reading has reached, the stop that ended it early, and the remarks made. -/
structure Progress (σ : Type) where
  state : σ
  stop? : Option Stop
  reports : List Report

namespace Progress
variable {σ τ : Type}

def done (s : σ) : Progress σ := ⟨s, none, []⟩

def halt (s : σ) (fault : Fault) : Progress σ := ⟨s, some (.here fault), []⟩

def remarked (before : List Report) (p : Progress σ) : Progress σ :=
  { p with reports := before ++ p.reports }

/-- The same reading, seen from `n` nodes earlier. -/
def later (n : Nat) (p : Progress σ) : Progress σ := { p with stop? := p.stop?.map (·.later n) }

/-- Goes on from the state, unless reading has stopped. -/
def andThen (p : Progress σ) (next : σ → Progress σ) : Progress σ :=
  match p.stop? with
  | some _ => p
  | none => (next p.state).remarked p.reports

def result (p : Progress σ) : Except Fault σ :=
  match p.stop? with
  | some s => .error s.fault
  | none => .ok p.state

def map (whole : σ → τ) (p : Progress σ) : Progress τ := ⟨whole p.state, p.stop?, p.reports⟩

end Progress

namespace Forest
variable {σ : Type}

def skip (content : Forest) (s : σ) : Progress σ :=
  if content.isClosed then .done s else .halt s (.misplaced .unterminated)

/-- Reads the elements of a forest in order and passes over its texts. The step stands on the start
of an element. -/
def walk (step : Tag → Forest → σ → Progress σ) : Forest → σ → Progress σ
  | closed, s => .done s
  | cut, s => .halt s (.misplaced .endOfDocument)
  | text _ rest, s => (walk step rest s).later 1
  | element tag content rest, s =>
    ((step tag content s).later 1).andThen fun s => (walk step rest s).later (content.size + 2)

end Forest

end ObjectTracking.Markup
