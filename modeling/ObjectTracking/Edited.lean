import ObjectTracking.Fault
import ObjectTracking.Value
/-!
Edits. An edit gives a result or a fault, the value as it then stands, and the links through which
it reported changes, in order. A fault does not take back what was done before it.
-/
set_option autoImplicit false

namespace ObjectTracking

/-- What an edit of a `σ` leaves. -/
structure Edited (σ α : Type) where
  result : Except Fault α
  state : σ
  signals : List Link

namespace Edited
variable {σ τ α : Type}

/-- An edit that succeeded and reported through the link, if there is one. -/
def done (a : α) (s : σ) (link : Option Link) : Edited σ α := ⟨.ok a, s, link.toList⟩

/-- An edit that failed without a change. -/
def failed (e : Fault) (s : σ) : Edited σ α := ⟨.error e, s, []⟩

def map {β : Type} (f : α → β) (e : Edited σ α) : Edited σ β := ⟨e.result.map f, e.state, e.signals⟩

/-- The edit of a part as an edit of the whole, with signals that went before it. -/
def within (before : List Link) (whole : σ → τ) (e : Edited σ α) : Edited τ α :=
  ⟨e.result, whole e.state, before ++ e.signals⟩

end Edited

end ObjectTracking
