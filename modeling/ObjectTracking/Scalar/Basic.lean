import ObjectTracking.Time.WallClock
import ObjectTracking.Decimal.Shortest
import ObjectTracking.Text.Quoted
/-!
Scalar values, the leaves of everything an object holds.
-/
set_option autoImplicit false

namespace ObjectTracking
open Time (WallClock Offset)

inductive Scalar where
  | text (s : String)
  | boolean (b : Bool)
  | integer (i : Int64)
  | double (d : Float)
  /-- One of the names of an enumeration. -/
  | name (s : String)
  | binary (bytes : List UInt8)
  /-- A wall clock time; its zone depends on the property that holds it. -/
  | dateTime (t : WallClock)
  | offset (o : Offset)

namespace Scalar

/-- Equality of contents. Doubles compare as numbers, so that no NaN equals anything. -/
protected def beq : Scalar → Scalar → Bool
  | text a, text b => a == b
  | boolean a, boolean b => a == b
  | integer a, integer b => a == b
  | double a, double b => a == b
  | name a, name b => a == b
  | binary a, binary b => a == b
  | dateTime a, dateTime b => a == b
  | offset a, offset b => a == b
  | _, _ => false

instance : BEq Scalar := ⟨Scalar.beq⟩

def text? : Scalar → Option String
  | text s => some s
  | name s => some s
  | _ => none

def boolean? : Scalar → Option Bool
  | boolean b => some b
  | _ => none

def integer? : Scalar → Option Int64
  | integer i => some i
  | _ => none

def double? : Scalar → Option Float
  | double d => some d
  | integer i => some i.toFloat
  | _ => none

def binary? : Scalar → Option (List UInt8)
  | binary bytes => some bytes
  | _ => none

def dateTime? : Scalar → Option WallClock
  | dateTime t => some t
  | _ => none

def offset? : Scalar → Option Offset
  | offset o => some o
  | _ => none

def debug : Scalar → String
  | text s => "Text(" ++ Text.quoted s ++ ")"
  | boolean b => "Boolean(" ++ (if b then "true" else "false") ++ ")"
  | integer i => "Integer(" ++ String.ofList (Text.signed i.toInt) ++ ")"
  | double d => "Double(" ++ Decimal.render .debug d ++ ")"
  | name s => "Enum(" ++ Text.quoted s ++ ")"
  | binary bytes =>
    let numbers := bytes.map fun b => String.ofList (Text.digits b.toNat)
    "Binary([" ++ String.intercalate ", " numbers ++ "])"
  | dateTime t => "DateTime(" ++ String.ofList t.text ++ ")"
  | offset o => "Offset(" ++ o.debug ++ ")"

end Scalar

end ObjectTracking
