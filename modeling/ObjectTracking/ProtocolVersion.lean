/-!
Versions of the server protocol, oldest first. A session agrees on one, and a property introduced
after it does not exist for that session.
-/
set_option autoImplicit false

namespace ObjectTracking

/-- A version of the server protocol. -/
inductive ProtocolVersion where
  | exchange2007SP1
  | exchange2010
  | exchange2010SP1
  | exchange2010SP2
  | exchange2013
  | exchange2013SP1
  deriving DecidableEq, Repr

namespace ProtocolVersion

/-- Every version, oldest first. -/
def all : List ProtocolVersion :=
  [exchange2007SP1, exchange2010, exchange2010SP1, exchange2010SP2, exchange2013, exchange2013SP1]

def oldest : ProtocolVersion := exchange2007SP1
def newest : ProtocolVersion := exchange2013SP1

def rank : ProtocolVersion → Nat
  | exchange2007SP1 => 0
  | exchange2010 => 1
  | exchange2010SP1 => 2
  | exchange2010SP2 => 3
  | exchange2013 => 4
  | exchange2013SP1 => 5

instance : LE ProtocolVersion := ⟨fun a b => a.rank ≤ b.rank⟩
instance : LT ProtocolVersion := ⟨fun a b => a.rank < b.rank⟩
instance (a b : ProtocolVersion) : Decidable (a ≤ b) :=
  inferInstanceAs (Decidable (a.rank ≤ b.rank))
instance (a b : ProtocolVersion) : Decidable (a < b) :=
  inferInstanceAs (Decidable (a.rank < b.rank))

theorem rank_injective {a b : ProtocolVersion} (h : a.rank = b.rank) : a = b := by
  cases a <;> cases b <;> simp_all [rank]

/-- Servers of these versions take every date-time they are sent as an absolute one. -/
def isLegacy (v : ProtocolVersion) : Bool := v < exchange2010

def name : ProtocolVersion → String
  | exchange2007SP1 => "Exchange2007_SP1"
  | exchange2010 => "Exchange2010"
  | exchange2010SP1 => "Exchange2010_SP1"
  | exchange2010SP2 => "Exchange2010_SP2"
  | exchange2013 => "Exchange2013"
  | exchange2013SP1 => "Exchange2013_SP1"

def ofName? (s : String) : Option ProtocolVersion := all.find? (·.name == s)

theorem mem_all (v : ProtocolVersion) : v ∈ all := by cases v <;> decide

theorem ofName?_name (v : ProtocolVersion) : ofName? v.name = some v := by cases v <;> decide

end ProtocolVersion

end ObjectTracking
