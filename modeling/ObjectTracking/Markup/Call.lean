import ObjectTracking.Fault
import ObjectTracking.Report
/-!
Writing XML as a sequence of calls. What writes an object produces the calls, and the remarks that
go between them, without any receiver; it may end in a fault. A receiver then takes the calls one
by one and may refuse one, at which everything stops.
-/
set_option autoImplicit false

namespace ObjectTracking.Markup

inductive Call where
  | opening (ns : Namespace) (name : String)
  | attr (name value : String)
  | text (value : String)
  | closing
  deriving DecidableEq, Repr

/-- A call, or a remark between calls. -/
inductive Emission where
  | call (c : Call)
  | report (r : Report)
  deriving DecidableEq, Repr

/-- What writing something comes to: emissions, and the fault that ends them if there is one. -/
structure Encoding where
  emissions : List Emission
  fault? : Option Fault

namespace Encoding

def nothing : Encoding := ⟨[], none⟩

def call (c : Call) : Encoding := ⟨[.call c], none⟩

def report (r : Report) : Encoding := ⟨[.report r], none⟩

def fail (e : Fault) : Encoding := ⟨[], some e⟩

/-- One encoding after another; nothing comes after a fault. -/
def append (a b : Encoding) : Encoding :=
  match a.fault? with
  | some e => ⟨a.emissions, some e⟩
  | none => ⟨a.emissions ++ b.emissions, b.fault?⟩

instance : Append Encoding := ⟨append⟩

def concat (es : List Encoding) : Encoding := es.foldr (· ++ ·) nothing

def element (ns : Namespace) (name : String) (content : Encoding) : Encoding :=
  call (.opening ns name) ++ content ++ call .closing

def textElement (ns : Namespace) (name value : String) : Encoding :=
  element ns name (call (.text value))

def calls (e : Encoding) : List Call :=
  e.emissions.filterMap fun
    | .call c => some c
    | .report _ => none

/-- What is left after a receiver took calls: its state, the remarks made until then, and the fault
that stopped it or the encoding. -/
structure Outcome (σ : Type) where
  state : σ
  reports : List Report
  fault? : Option Fault

/-- Hands the emissions to a receiver until it refuses a call. -/
def deliver {σ : Type} (take : σ → Call → Except Fault σ) : σ → List Emission → Outcome σ
  | s, [] => ⟨s, [], none⟩
  | s, .report r :: es =>
    let o := deliver take s es
    { o with reports := r :: o.reports }
  | s, .call c :: es =>
    match take s c with
    | .ok s => deliver take s es
    | .error e => ⟨s, [], some e⟩

/-- Runs an encoding against a receiver. A refused call comes before the encoding's own fault. -/
def run {σ : Type} (take : σ → Call → Except Fault σ) (s : σ) (e : Encoding) : Outcome σ :=
  let o := deliver take s e.emissions
  { o with fault? := o.fault?.or e.fault? }

end Encoding

end ObjectTracking.Markup
